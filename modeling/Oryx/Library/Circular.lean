import Mathlib.Data.List.Chain
import Mathlib.Data.List.Nodup
import Mathlib.Logic.Function.Basic

/-!
# Circular doubly linked lists

A doubly linked list through a sentinel: `fd` and `bk` are the forward and backward
links of all nodes, `b` is the sentinel, and `qs` are the members in forward order. A list
with a head and a tail pointer is the case where the sentinel is the null pointer, with
the head as its forward and the tail as its backward link; unlinking a node and linking
one in after the sentinel then have no special cases at the ends.
-/

namespace Oryx.Library
set_option autoImplicit false

variable {α : Type*} {fd bk fd' bk' : α → α} {b e : α} {qs : List α}

/-- `y` follows `x`, and both know it. -/
def Linked (fd bk : α → α) (x y : α) : Prop := fd x = y ∧ bk y = x

/-- The nodes from the sentinel round to the sentinel again are linked, and no node occurs twice. -/
structure Circular (fd bk : α → α) (b : α) (qs : List α) : Prop where
  links : (b :: qs ++ [b]).IsChain (Linked fd bk)
  nodup : (b :: qs).Nodup

/-- Links read the forward link of every node but the last and the backward link of every
node but the first. -/
theorem isChain_linked_congr {l : List α} (chain : l.IsChain (Linked fd bk))
    (front : ∀ x ∈ l.dropLast, fd' x = fd x) (back : ∀ y ∈ l.tail, bk' y = bk y) : l.IsChain (Linked fd' bk') := by
  induction l with
  | nil => exact .nil
  | cons x rest ih =>
    cases rest with
    | nil => exact .singleton x
    | cons y rest =>
      obtain ⟨⟨forward, backward⟩, later⟩ := List.isChain_cons_cons.mp chain
      rw [List.dropLast_cons_cons, List.forall_mem_cons] at front
      rw [List.tail_cons, List.forall_mem_cons] at back
      refine List.isChain_cons_cons.mpr ⟨⟨front.1.trans forward, back.1.trans backward⟩, ?_⟩
      exact ih later front.2 back.2

namespace Circular

/-- A circular list is a matter of its own nodes. -/
theorem congr (circular : Circular fd bk b qs) (front : ∀ x ∈ b :: qs, fd' x = fd x)
    (back : ∀ x ∈ b :: qs, bk' x = bk x) : Circular fd' bk' b qs where
  links := isChain_linked_congr circular.links (by rw [List.dropLast_concat]; exact front) fun y member =>
    back y (by simpa [or_comm] using member)
  nodup := circular.nodup

/-- The same list, read backwards. -/
theorem reverse (circular : Circular fd bk b qs) : Circular bk fd b qs.reverse where
  links := by
    have flipped : (b :: qs ++ [b]).reverse = b :: qs.reverse ++ [b] := by simp
    rw [← flipped, List.isChain_reverse]
    exact circular.links.imp fun x y linked => ⟨linked.2, linked.1⟩
  nodup := by simpa using circular.nodup

/-- A node is linked to another node or to the sentinel, which is linked back to it. -/
theorem linked (circular : Circular fd bk b qs) {x : α} (member : x ∈ b :: qs) :
    fd x ∈ b :: qs ∧ bk (fd x) = x ∧ (x ∈ qs → fd x ≠ x) := by
  obtain ⟨before, after, split⟩ := List.append_of_mem member
  have chain := circular.links
  have nodup := circular.nodup
  rw [split, List.append_assoc, List.cons_append] at chain
  cases after with
  | nil =>
    obtain ⟨forward, backward⟩ := List.isChain_pair.mp chain.right_of_append
    rw [forward]
    exact ⟨List.mem_cons_self, backward, fun inside => (ne_of_mem_of_not_mem inside (List.nodup_cons.mp nodup).1).symm⟩
  | cons y after =>
    obtain ⟨forward, backward⟩ := (List.isChain_cons_cons.mp chain.right_of_append).1
    rw [forward]
    rw [split] at nodup ⊢
    refine ⟨by simp, backward, fun _ same => ?_⟩
    have apart := (List.nodup_append.mp nodup).2.1
    simp [same] at apart

theorem fd_mem (circular : Circular fd bk b qs) {x : α} (member : x ∈ b :: qs) : fd x ∈ b :: qs :=
  (circular.linked member).1

theorem bk_mem (circular : Circular fd bk b qs) {x : α} (member : x ∈ b :: qs) : bk x ∈ b :: qs := by
  simpa using circular.reverse.fd_mem (by simpa using member)

/-- Following a link and the link back leads to the same node. -/
theorem bk_fd (circular : Circular fd bk b qs) {x : α} (member : x ∈ b :: qs) : bk (fd x) = x :=
  (circular.linked member).2.1

theorem fd_bk (circular : Circular fd bk b qs) {x : α} (member : x ∈ b :: qs) : fd (bk x) = x :=
  circular.reverse.bk_fd (by simpa using member)

/-- The backward links are the inverse of the forward links. -/
theorem fd_eq_iff (circular : Circular fd bk b qs) {x y : α} (first : x ∈ b :: qs) (second : y ∈ b :: qs) :
    fd x = y ↔ bk y = x := by
  constructor
  · rintro rfl
    exact circular.bk_fd first
  · rintro rfl
    exact circular.fd_bk second

/-- No member is its own neighbour. -/
theorem bk_ne (circular : Circular fd bk b qs) {x : α} (member : x ∈ qs) : bk x ≠ x :=
  (circular.reverse.linked (by simpa using Or.inr member)).2.2 (by simpa using member)

/-- The first member, or the sentinel. -/
theorem fd_sentinel (circular : Circular fd bk b qs) : fd b = qs.head?.getD b := by
  cases qs with
  | nil => exact (List.isChain_pair.mp circular.links).1
  | cons x rest => exact (List.isChain_cons_cons.mp circular.links).1.1

/-- The last member, or the sentinel. -/
theorem bk_sentinel (circular : Circular fd bk b qs) : bk b = qs.getLast?.getD b := by
  rw [circular.reverse.fd_sentinel, List.head?_reverse]

variable [DecidableEq α]

/-- **Unlinking**: the neighbours of a member are linked to each other. -/
theorem unlink {l r : List α} (circular : Circular fd bk b (l ++ e :: r)) :
    Circular (Function.update fd (bk e) (fd e)) (Function.update bk (fd e) (bk e)) b (l ++ r) := by
  obtain ⟨chain, nodup⟩ := circular
  -- The round is `front ++ p :: e :: s :: back`, where `p` or `s` may be the sentinel.
  obtain ⟨front, p, before⟩ := (List.eq_nil_or_concat' (b :: l)).resolve_left (List.cons_ne_nil _ _)
  obtain ⟨s, back, after⟩ := List.exists_cons_of_ne_nil (List.append_ne_nil_of_right_ne_nil r (List.cons_ne_nil b []))
  have round : b :: (l ++ e :: r) ++ [b] = front ++ p :: e :: s :: back := by
    rw [← List.cons_append, before]
    simp [after]
  have shorter : b :: (l ++ r) ++ [b] = front ++ p :: s :: back := by
    rw [← List.cons_append, before]
    simp [after]
  rw [round, List.isChain_append_cons_cons, List.isChain_cons_cons] at chain
  obtain ⟨left, ⟨-, backward⟩, ⟨forward, -⟩, right⟩ := chain
  subst backward forward
  have kept' : (b :: (l ++ r)).Nodup :=
    nodup.sublist (((List.sublist_cons_self e r).append_left l).cons_cons b)
  have ahead : (front ++ [bk e]).Nodup := by
    rw [← before]
    exact kept'.sublist ((List.sublist_append_left l r).cons_cons b)
  have behind : (fd e :: back).Nodup := by
    rw [← after, List.nodup_append_comm]
    exact kept'.sublist ((List.sublist_append_right l r).cons_cons b)
  have last : bk e ∈ b :: l := by simp [before]
  have first : fd e ∈ r ++ [b] := by simp [after]
  have kept := List.nodup_cons.mp kept'
  rw [List.mem_append, not_or] at kept
  refine ⟨?_, kept'⟩
  rw [shorter, List.isChain_append_cons_cons]
  refine ⟨isChain_linked_congr left (fun x member => Function.update_of_ne ?_ _ _)
    (fun y member => Function.update_of_ne ?_ _ _), ⟨Function.update_self .., Function.update_self ..⟩,
    isChain_linked_congr right (fun x member => Function.update_of_ne ?_ _ _)
    (fun y member => Function.update_of_ne ?_ _ _)⟩
  · rw [List.dropLast_concat] at member
    rintro rfl
    exact (List.nodup_append.mp ahead).2.2 _ member _ (List.mem_singleton_self _) rfl
  · rw [← before, List.tail_cons] at member
    rintro rfl
    rcases List.mem_append.mp first with inside | sentinel
    · exact (List.nodup_append.mp kept.2).2.2 _ member _ inside rfl
    · exact kept.1.1 (List.mem_singleton.mp sentinel ▸ member)
  · rw [← after, List.dropLast_concat] at member
    rintro rfl
    rcases List.mem_cons.mp last with sentinel | inside
    · exact kept.1.2 (sentinel ▸ member)
    · exact (List.nodup_append.mp kept.2).2.2 _ inside _ member rfl
  · rintro rfl
    exact (List.nodup_cons.mp behind).1 member

/-- **Linking in** a new node after the sentinel. -/
theorem link (circular : Circular fd bk b qs) (fresh : e ∉ b :: qs) :
    Circular (Function.update (Function.update fd e (fd b)) b e) (Function.update (Function.update bk e b) (fd b) e) b
      (e :: qs) := by
  obtain ⟨chain, nodup⟩ := circular
  obtain ⟨s, back, after⟩ := List.exists_cons_of_ne_nil (List.append_ne_nil_of_right_ne_nil qs (List.cons_ne_nil b []))
  rw [List.cons_append, after, List.isChain_cons_cons] at chain
  obtain ⟨⟨forward, -⟩, rest⟩ := chain
  subst forward
  have apart : e ≠ b ∧ e ∉ qs := by simpa [List.mem_cons, not_or] using fresh
  have first : fd b ∈ qs ++ [b] := by simp [after]
  have new : e ≠ fd b := by
    rintro same
    rw [← same, List.mem_append, List.mem_singleton] at first
    exact first.elim apart.2 apart.1
  have behind : (fd b :: back).Nodup := by
    rw [← after, List.nodup_append_comm]
    exact nodup
  refine ⟨?_, ?_⟩
  · rw [List.cons_append, List.cons_append, after, List.isChain_cons_cons, List.isChain_cons_cons]
    refine ⟨⟨Function.update_self .., ?_⟩, ⟨?_, Function.update_self ..⟩, isChain_linked_congr rest ?_ ?_⟩
    · rw [Function.update_of_ne new, Function.update_self]
    · rw [Function.update_of_ne apart.1, Function.update_self]
    · intro x member
      rw [← after, List.dropLast_concat] at member
      rw [Function.update_of_ne (ne_of_mem_of_not_mem member (List.nodup_cons.mp nodup).1),
        Function.update_of_ne (ne_of_mem_of_not_mem member apart.2)]
    · intro y member
      have other : y ≠ e := by
        have inside : y ∈ qs ++ [b] := after ▸ List.mem_cons_of_mem _ member
        rintro rfl
        rw [List.mem_append, List.mem_singleton] at inside
        exact inside.elim apart.2 apart.1
      rw [Function.update_of_ne (ne_of_mem_of_not_mem member (List.nodup_cons.mp behind).1),
        Function.update_of_ne other]
  · have swapped := List.nodup_cons.mpr ⟨fresh, nodup⟩
    exact (List.Perm.swap b e qs).nodup_iff.mp swapped

end Circular
end Oryx.Library
