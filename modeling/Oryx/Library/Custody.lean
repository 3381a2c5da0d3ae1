import Mathlib.Data.List.Nodup
import Mathlib.Logic.Function.Basic

/-!
# Things held by one holder at a time

Things are numbered; some are held, some are free for the next holder, and numbers from
`fresh` on are not in use. Taking a free one, making a new one and giving one back keep the
holders apart.
-/

namespace Oryx.Library
set_option autoImplicit false

variable {I : Type*}

/-- No thing has two holders, and a free one has none. -/
structure Exclusive (held : I → List Nat) (free : List Nat) (fresh : Nat) : Prop where
  apart : ∀ i j a, a ∈ held i → a ∈ held j → i = j
  held_once : ∀ i, (held i).Nodup
  free_once : free.Nodup
  unheld : ∀ i, ∀ a ∈ held i, a ∉ free
  held_lt : ∀ i, ∀ a ∈ held i, a < fresh
  free_lt : ∀ a ∈ free, a < fresh

namespace Exclusive

variable {held : I → List Nat} {free : List Nat} {fresh : Nat}

theorem none_held : Exclusive (fun _ : I => []) [] 0 where
  apart _ _ _ mine := absurd mine List.not_mem_nil
  held_once _ := List.nodup_nil
  free_once := List.nodup_nil
  unheld _ _ mine := absurd mine List.not_mem_nil
  held_lt _ _ mine := absurd mine List.not_mem_nil
  free_lt _ mine := absurd mine List.not_mem_nil

/-- A free thing is forgotten. -/
theorem forget (exclusive : Exclusive held free fresh) (a : Nat) : Exclusive held (free.erase a) fresh where
  apart := exclusive.apart
  held_once := exclusive.held_once
  free_once := exclusive.free_once.erase a
  unheld i b mine gone := exclusive.unheld i b mine (List.mem_of_mem_erase gone)
  held_lt := exclusive.held_lt
  free_lt b member := exclusive.free_lt b (List.mem_of_mem_erase member)

variable [DecidableEq I]

/-- A holder takes something that nobody else has. -/
theorem take (exclusive : Exclusive held free fresh) {i : I} {a : Nat} (nobody : ∀ j, a ∉ held j) (reserved : a ∉ free)
    (used : a < fresh) : Exclusive (Function.update held i (a :: held i)) free fresh := by
  have split (j : I) (b : Nat) (mine : b ∈ Function.update held i (a :: held i) j) : b = a ∧ j = i ∨ b ∈ held j := by
    by_cases here : j = i
    · subst here
      rw [Function.update_self] at mine
      exact (List.mem_cons.mp mine).imp (fun same => ⟨same, rfl⟩) id
    · rw [Function.update_of_ne here] at mine
      exact Or.inr mine
  refine ⟨fun j k b mine theirs => ?_, fun j => ?_, exclusive.free_once, fun j b mine => ?_, fun j b mine => ?_,
    exclusive.free_lt⟩
  · rcases split j b mine with ⟨rfl, rfl⟩ | old <;> rcases split k _ theirs with ⟨same, rfl⟩ | old'
    · rfl
    · exact absurd old' (nobody k)
    · exact absurd (same ▸ old) (nobody j)
    · exact exclusive.apart j k b old old'
  · by_cases here : j = i
    · subst here
      rw [Function.update_self]
      exact List.nodup_cons.mpr ⟨nobody j, exclusive.held_once j⟩
    · rw [Function.update_of_ne here]
      exact exclusive.held_once j
  · rcases split j b mine with ⟨rfl, -⟩ | old
    · exact reserved
    · exact exclusive.unheld j b old
  · rcases split j b mine with ⟨rfl, -⟩ | old
    · exact used
    · exact exclusive.held_lt j b old

/-- A free thing finds a holder. -/
theorem lease (exclusive : Exclusive held free fresh) (i : I) {a : Nat} (member : a ∈ free) :
    Exclusive (Function.update held i (a :: held i)) (free.erase a) fresh :=
  (exclusive.forget a).take (fun j mine => exclusive.unheld j a mine member) (exclusive.free_once.not_mem_erase)
    (exclusive.free_lt a member)

/-- A new thing is made. -/
theorem make (exclusive : Exclusive held free fresh) (i : I) :
    Exclusive (Function.update held i (fresh :: held i)) free (fresh + 1) := by
  have later : Exclusive held free (fresh + 1) :=
    { exclusive with
      held_lt := fun j b mine => Nat.lt_succ_of_lt (exclusive.held_lt j b mine)
      free_lt := fun b member => Nat.lt_succ_of_lt (exclusive.free_lt b member) }
  exact later.take (fun j mine => Nat.lt_irrefl _ (exclusive.held_lt j fresh mine))
    (fun member => Nat.lt_irrefl _ (exclusive.free_lt fresh member)) (Nat.lt_succ_self fresh)

/-- A holder keeps some of its things. -/
theorem keep (exclusive : Exclusive held free fresh) {i : I} {l : List Nat} (kept : l.Sublist (held i)) :
    Exclusive (Function.update held i l) free fresh := by
  have before (j : I) (b : Nat) (mine : b ∈ Function.update held i l j) : b ∈ held j := by
    by_cases here : j = i
    · subst here
      rw [Function.update_self] at mine
      exact kept.subset mine
    · rwa [Function.update_of_ne here] at mine
  refine ⟨fun j k b mine theirs => exclusive.apart j k b (before j b mine) (before k b theirs), fun j => ?_,
    exclusive.free_once, fun j b mine => exclusive.unheld j b (before j b mine),
    fun j b mine => exclusive.held_lt j b (before j b mine), exclusive.free_lt⟩
  by_cases here : j = i
  · subst here
    rw [Function.update_self]
    exact (exclusive.held_once j).sublist kept
  · rw [Function.update_of_ne here]
    exact exclusive.held_once j

/-- A holder gives one of its things back. -/
theorem release (exclusive : Exclusive held free fresh) {i : I} {a : Nat} {l : List Nat}
    (kept : (l ++ [a]).Sublist (held i)) : Exclusive (Function.update held i l) (a :: free) fresh := by
  have mine : a ∈ held i := kept.subset (List.mem_append_right l (List.mem_singleton_self a))
  have without := exclusive.keep ((List.sublist_append_left l [a]).trans kept)
  have apart : a ∉ l := by
    have once := (exclusive.held_once i).sublist kept
    rw [List.nodup_append] at once
    exact fun again => once.2.2 a again a (List.mem_singleton_self a) rfl
  refine { without with free_once := ?_, unheld := fun j b theirs free => ?_, free_lt := fun b member => ?_ }
  · exact List.nodup_cons.mpr ⟨exclusive.unheld i a mine, exclusive.free_once⟩
  · rcases List.mem_cons.mp free with rfl | old
    · by_cases here : j = i
      · subst here
        rw [Function.update_self] at theirs
        exact apart theirs
      · rw [Function.update_of_ne here] at theirs
        exact here (exclusive.apart j i b theirs mine)
    · exact without.unheld j b theirs old
  · rcases List.mem_cons.mp member with rfl | old
    · exact exclusive.held_lt i b mine
    · exact exclusive.free_lt b old

end Exclusive
end Oryx.Library
