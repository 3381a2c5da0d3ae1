import Mathlib.Data.List.Rotate
import Mathlib.Data.List.Sort
import Mathlib.Data.Set.BooleanAlgebra
import Mathlib.Data.Set.Image
import Mathlib.Order.CompletePartialOrder

/-!
# Ranking by the nearest position

Each of several nodes has a set of positions in a linear order. A list ranks the
nodes when each stands before those whose positions all lie behind one of its own
(`Ranks`). There is at most one such list, so it depends on the positions alone and
not on how the list was found; and it moves a single node when the positions of that
node change. Walking a sorted circle clockwise from a point and keeping the first
occurrence of every node ranks the nodes by their distance from the point.
-/

namespace Oryx.Library
set_option autoImplicit false

variable {N D : Type*} [DecidableEq N]

/-! ## First occurrences -/

theorem nodup_eraseDups (l : List N) : l.eraseDups.Nodup := by
  induction length : l.length using Nat.strongRecOn generalizing l with
  | ind n ih =>
    cases l with
    | nil => simp
    | cons a rest =>
      rw [List.eraseDups_cons, List.nodup_cons, List.mem_eraseDups]
      refine ⟨by simp, ih _ ?_ _ rfl⟩
      rw [← length, List.length_cons]
      exact Nat.lt_succ_of_le (List.length_filter_le ..)

theorem eraseDups_of_nodup {l : List N} (nodup : l.Nodup) : l.eraseDups = l := by
  induction l with
  | nil => rfl
  | cons a rest ih =>
    obtain ⟨fresh, nodup⟩ := List.nodup_cons.mp nodup
    have others : rest.filter (fun b => !b == a) = rest := by
      rw [List.filter_eq_self]
      intro b member
      simpa using fun same : b = a => fresh (same ▸ member)
    rw [List.eraseDups_cons, others, ih nodup]

/-- The first occurrence of every member. -/
def firsts (l : List N) : List N := l.eraseDups

theorem nodup_firsts (l : List N) : (firsts l).Nodup := nodup_eraseDups l

@[simp] theorem mem_firsts {l : List N} {a : N} : a ∈ firsts l ↔ a ∈ l := List.mem_eraseDups

theorem head?_firsts (l : List N) : (firsts l).head? = l.head? := by
  cases l with
  | nil => rfl
  | cons a rest => rw [firsts, List.eraseDups_cons, List.head?_cons, List.head?_cons]

/-- Collect new members until there are `target` of them. -/
def collect (target : Nat) : List N → List N → List N
  | found, [] => found
  | found, a :: rest =>
    if found.length < target then collect target (if a ∈ found then found else found ++ [a]) rest else found

theorem collect_eq {target : Nat} {found : List N} (nodup : found.Nodup) (short : found.length ≤ target) (l : List N) :
    collect target found l = (firsts (found ++ l)).take target := by
  unfold firsts
  induction l generalizing found with
  | nil => rw [collect, List.append_nil, eraseDups_of_nodup nodup, List.take_of_length_le short]
  | cons a rest ih =>
    rw [collect]
    split
    · rename_i room
      split
      · rename_i old
        rw [ih nodup short, List.eraseDups_append, List.eraseDups_append]
        simp [List.removeAll, old]
      · rename_i fresh
        have apart : (found ++ [a]).Nodup := by
          rw [List.nodup_append]
          refine ⟨nodup, List.nodup_singleton a, fun b member c here same => fresh ?_⟩
          rwa [← List.mem_singleton.mp here, ← same]
        rw [ih apart (by rwa [List.length_append, List.length_singleton]), List.append_assoc, List.singleton_append]
    · rename_i full
      rw [List.eraseDups_append, eraseDups_of_nodup nodup, List.take_append_of_le_length (Nat.not_lt.mp full),
        List.take_of_length_le short]

/-! ## Ranks -/

section Ranks

variable [LinearOrder D]

/-- Some position of `a` is before all of `b`'s. -/
def Before (pos : N → Set D) (a b : N) : Prop := ∃ d ∈ pos a, ∀ d' ∈ pos b, d < d'

omit [DecidableEq N] in
theorem Before.asymm {pos : N → Set D} {a b : N} (before : Before pos a b) : ¬Before pos b a := by
  rintro ⟨d', here', first'⟩
  obtain ⟨d, here, first⟩ := before
  exact (first d' here').asymm (first' d here)

omit [DecidableEq N] in
/-- More positions for `a` and fewer for `b`. -/
theorem Before.mono {pos pos' : N → Set D} {a b : N} (before : Before pos a b) (more : pos a ⊆ pos' a)
    (fewer : pos' b ⊆ pos b) : Before pos' a b := by
  obtain ⟨d, here, first⟩ := before
  exact ⟨d, more here, fun d' there => first d' (fewer there)⟩

/-- The nodes that have a position, each before those behind it. -/
structure Ranks (pos : N → Set D) (l : List N) : Prop where
  nodup : l.Nodup
  mem : ∀ a, a ∈ l ↔ (pos a).Nonempty
  ordered : l.Pairwise (Before pos)

omit [DecidableEq N] in
/-- **One ranking**: the positions decide it. -/
theorem Ranks.unique {pos : N → Set D} {l l' : List N} (ranks : Ranks pos l) (ranks' : Ranks pos l') : l = l' := by
  have perm : l.Perm l' :=
    (List.perm_ext_iff_of_nodup ranks.nodup ranks'.nodup).mpr fun a => (ranks.mem a).trans (ranks'.mem a).symm
  exact perm.eq_of_pairwise (fun a b _ _ forth back => absurd back forth.asymm) ranks.ordered ranks'.ordered

/-- The positions of a list of placed nodes. -/
def positions (l : List (D × N)) (a : N) : Set D := {d | (d, a) ∈ l}

/-- Different nodes never share a position. -/
def Apart (pos : N → Set D) : Prop := ∀ a b, a ≠ b → Disjoint (pos a) (pos b)

theorem pairwise_before {l : List (D × N)} (sorted : l.Pairwise fun p q => p.1 ≤ q.1) (apart : Apart (positions l)) :
    (l.map Prod.snd).eraseDups.Pairwise (Before (positions l)) := by
  -- each first occurrence removes all points of its node from the rest
  induction length : l.length using Nat.strongRecOn generalizing l with
  | ind n ih =>
    cases l with
    | nil => simp
    | cons p rest =>
      obtain ⟨d, a⟩ := p
      have others : (rest.map Prod.snd).filter (fun b => !b == a) = (rest.filter fun p => !p.2 == a).map Prod.snd := by
        rw [List.filter_map]
        rfl
      rw [List.map_cons, List.eraseDups_cons, others, List.pairwise_cons]
      constructor
      · intro b member
        have other : b ≠ a := by
          obtain ⟨p, kept, rfl⟩ := List.mem_map.mp (List.mem_eraseDups.mp member)
          simpa using (List.mem_filter.mp kept).2
        refine ⟨d, List.mem_cons_self, fun d' behind => lt_of_le_of_ne ?_ ?_⟩
        · rcases List.mem_cons.mp behind with same | later
          · exact absurd (congrArg Prod.snd same) other
          · exact (List.pairwise_cons.mp sorted).1 _ later
        · rintro rfl
          exact Set.disjoint_left.mp (apart a b other.symm) List.mem_cons_self behind
      · have inner := ih (rest.filter fun p => !p.2 == a).length
          (by rw [← length, List.length_cons]; exact Nat.lt_succ_of_le (List.length_filter_le ..))
          ((List.pairwise_cons.mp sorted).2.filter _) ?_ rfl
        · refine inner.imp_of_mem fun {b c} _ member before => ?_
          have other : c ≠ a := by
            obtain ⟨p, kept, rfl⟩ := List.mem_map.mp (List.mem_eraseDups.mp member)
            simpa using (List.mem_filter.mp kept).2
          refine before.mono (fun d' here => List.mem_cons_of_mem _ (List.mem_of_mem_filter here)) fun d' behind => ?_
          rcases List.mem_cons.mp behind with same | later
          · exact absurd (congrArg Prod.snd same) other
          · exact List.mem_filter.mpr ⟨later, by simpa using other⟩
        · intro b c other
          refine (apart b c other).mono ?_ ?_ <;>
            exact fun d' here => List.mem_cons_of_mem _ (List.mem_of_mem_filter here)

/-- **First occurrences** in a sorted list rank the nodes. -/
theorem ranks_firsts {l : List (D × N)} (sorted : l.Pairwise fun p q => p.1 ≤ q.1) (apart : Apart (positions l)) :
    Ranks (positions l) (firsts (l.map Prod.snd)) where
  nodup := nodup_firsts _
  mem a := by
    rw [mem_firsts, List.mem_map]
    constructor
    · rintro ⟨⟨d, _⟩, member, rfl⟩
      exact ⟨d, member⟩
    · rintro ⟨d, member⟩
      exact ⟨(d, a), member, rfl⟩
  ordered := pairwise_before sorted apart

/-! ## One node moves -/

theorem take_of_notMem {n : N} {l : List N} {t : Nat} (absent : n ∉ l.take t) :
    l.take t = (l.filter (· ≠ n)).take t := by
  induction l generalizing t with
  | nil => rfl
  | cons a rest ih =>
    cases t with
    | zero => rfl
    | succ t =>
      rw [List.take_succ_cons, List.mem_cons, not_or] at absent
      have kept : (a :: rest).filter (· ≠ n) = a :: rest.filter (· ≠ n) :=
        List.filter_cons_of_pos (by simpa using Ne.symm absent.1)
      rw [kept, List.take_succ_cons, List.take_succ_cons, ih absent.2]

variable {pos pos' : N → Set D} {l l' : List N} {n : N}

/-- The others are ranked as before. -/
theorem Ranks.filter_eq (ranks : Ranks pos l) (ranks' : Ranks pos' l') (others : ∀ a, a ≠ n → pos a = pos' a) :
    l.filter (· ≠ n) = l'.filter (· ≠ n) := by
  have keep {a : N} {l : List N} (member : a ∈ l.filter (· ≠ n)) : a ≠ n := by simpa using (List.mem_filter.mp member).2
  have perm : (l.filter (· ≠ n)).Perm (l'.filter (· ≠ n)) := by
    refine (List.perm_ext_iff_of_nodup (ranks.nodup.filter _) (ranks'.nodup.filter _)).mpr fun a => ?_
    rw [List.mem_filter, List.mem_filter, ranks.mem, ranks'.mem]
    refine and_congr_left fun other => ?_
    rw [others a (by simpa using other)]
  have ordered' : (l'.filter (· ≠ n)).Pairwise (Before pos) :=
    (ranks'.ordered.filter _).imp_of_mem fun {a b} first second before =>
      before.mono (others a (keep first)).ge (others b (keep second)).le
  exact perm.eq_of_pairwise (fun a b _ _ forth back => absurd back forth.asymm) (ranks.ordered.filter _) ordered'

/-- **A node that gains positions** moves forward. -/
theorem Ranks.idxOf_le (ranks : Ranks pos l) (ranks' : Ranks pos' l') (others : ∀ a, a ≠ n → pos a = pos' a)
    (gains : pos n ⊆ pos' n) (listed : n ∈ l) : n ∈ l' ∧ l'.idxOf n ≤ l.idxOf n := by
  have listed' : n ∈ l' := (ranks'.mem n).mpr (((ranks.mem n).mp listed).mono gains)
  refine ⟨listed', ?_⟩
  have same := ranks.filter_eq ranks' others
  obtain ⟨front, back, rfl, fresh⟩ := List.eq_append_cons_of_mem listed
  obtain ⟨front', back', rfl, fresh'⟩ := List.eq_append_cons_of_mem listed'
  have others_of {front back : List N} (nodup : (front ++ n :: back).Nodup) (fresh : n ∉ front) :
      (front ++ n :: back).filter (· ≠ n) = front ++ back := by
    have behind : n ∉ back := (List.nodup_cons.mp (List.nodup_append.mp nodup).2.1).1
    have all {l : List N} (absent : n ∉ l) : l.filter (· ≠ n) = l :=
      List.filter_eq_self.mpr fun a member => by simpa using fun eq : a = n => absent (eq ▸ member)
    rw [List.filter_append, List.filter_cons_of_neg (by simp), all fresh, all behind]
  rw [others_of ranks.nodup fresh, others_of ranks'.nodup fresh'] at same
  rw [List.idxOf_append_of_notMem fresh, List.idxOf_append_of_notMem fresh', List.idxOf_cons_self, List.idxOf_cons_self]
  by_contra later
  have shorter : front.length < front'.length := by omega
  -- the node that follows `n` before stands in front of it now
  obtain ⟨a, behind, ahead⟩ : ∃ a, a ∈ back ∧ a ∈ front' := by
    have inFront : (front ++ back)[front.length]? = some front'[front.length] := by
      rw [same, List.getElem?_append_left shorter, List.getElem?_eq_getElem shorter]
    rw [List.getElem?_append_right le_rfl] at inFront
    exact ⟨_, List.mem_of_getElem? inFront, List.getElem_mem shorter⟩
  have after : Before pos n a :=
    (List.pairwise_cons.mp (List.pairwise_append.mp ranks.ordered).2.1).1 a behind
  have before : Before pos' a n := (List.pairwise_append.mp ranks'.ordered).2.2 a ahead n List.mem_cons_self
  have other : a ≠ n := fun eq => fresh' (eq ▸ ahead)
  exact before.asymm (after.mono gains (others a other).ge)

/-- The first `t` of two rankings that differ in one node, which has more positions in the second. -/
structure MovesUp (n : N) (l l' : List N) : Prop where
  forward : n ∈ l → n ∈ l' ∧ l'.idxOf n ≤ l.idxOf n
  same : n ∉ l' → l' = l

theorem Ranks.movesUp (ranks : Ranks pos l) (ranks' : Ranks pos' l') (others : ∀ a, a ≠ n → pos a = pos' a)
    (gains : pos n ⊆ pos' n) (t : Nat) : MovesUp n (l.take t) (l'.take t) := by
  have idx_take {l : List N} (member : n ∈ l.take t) : (l.take t).idxOf n = l.idxOf n := by
    have whole : (l.take t ++ l.drop t).idxOf n = (l.take t).idxOf n := List.idxOf_append_of_mem member
    rw [← whole, List.take_append_drop]
  have forward (member : n ∈ l.take t) : n ∈ l'.take t ∧ (l'.take t).idxOf n ≤ (l.take t).idxOf n := by
    obtain ⟨listed, up⟩ := ranks.idxOf_le ranks' others gains (List.mem_of_mem_take member)
    have within : l'.idxOf n < t := by
      have bound := List.idxOf_lt_length_of_mem member
      rw [idx_take member, List.length_take] at bound
      omega
    have member' : n ∈ l'.take t := by
      rw [List.mem_take_iff_getElem]
      have bound := List.idxOf_lt_length_of_mem listed
      exact ⟨l'.idxOf n, by omega, List.getElem_idxOf bound⟩
    rw [idx_take member, idx_take member']
    exact ⟨member', up⟩
  refine ⟨forward, fun absent => ?_⟩
  rw [take_of_notMem absent, take_of_notMem fun member => absent (forward member).1, ranks.filter_eq ranks' others]

end Ranks

/-! ## The circle -/

/-- The way from `k` clockwise to `h`. -/
def way (k h : UInt64) : Nat := (h - k).toNat

theorem way_injective (k : UInt64) : Function.Injective (way k) := by
  intro a b same
  have bounds := And.intro a.toNat_lt (And.intro b.toNat_lt k.toNat_lt)
  simp only [way, ← UInt64.toNat_inj, UInt64.toNat_sub] at same ⊢
  omega

/-- The way grows up to the end of the circle and on from its start. -/
theorem way_le {k a b : UInt64} (order : k ≤ a ∧ a ≤ b ∨ a ≤ b ∧ b < k ∨ k ≤ a ∧ b < k) : way k a ≤ way k b := by
  have bounds := And.intro a.toNat_lt (And.intro b.toNat_lt k.toNat_lt)
  simp only [way, UInt64.le_iff_toNat_le, UInt64.lt_iff_toNat_lt, UInt64.toNat_sub] at order ⊢
  omega

omit [DecidableEq N] in
/-- Points sorted on the circle, started at the first one not below `k`, are sorted by
the way from `k`. -/
theorem pairwise_rotate {l : List (UInt64 × N)} (sorted : l.Pairwise fun p q => p.1 ≤ q.1) (k : UInt64) :
    (l.rotate (l.findIdx fun p => k ≤ p.1)).Pairwise fun p q => way k p.1 ≤ way k q.1 := by
  have upper : ∀ p ∈ l.drop (l.findIdx fun p => k ≤ p.1), k ≤ p.1 := by
    intro p member
    obtain ⟨j, bound, rfl⟩ := List.mem_drop_iff_getElem.mp member
    have here : (l.findIdx fun p => k ≤ p.1) < l.length := by omega
    have first : k ≤ l[l.findIdx fun p => k ≤ p.1].1 := by simpa using List.findIdx_getElem (w := here)
    cases j with
    | zero => exact first
    | succ j => exact UInt64.le_trans first (List.pairwise_iff_getElem.mp sorted _ _ here (by omega) (by omega))
  have lower : ∀ p ∈ l.take (l.findIdx fun p => k ≤ p.1), p.1 < k := by
    intro p member
    obtain ⟨j, bound, rfl⟩ := List.mem_take_iff_getElem.mp member
    simpa using List.not_of_lt_findIdx (lt_of_lt_of_le bound (Nat.min_le_left _ _))
  rw [List.rotate_eq_drop_append_take List.findIdx_le_length, List.pairwise_append]
  refine ⟨(sorted.sublist (List.drop_sublist ..)).imp_of_mem fun first _ le => ?_,
    (sorted.sublist (List.take_sublist ..)).imp_of_mem fun _ second le => ?_, fun p first q second => ?_⟩
  · exact way_le (Or.inl ⟨upper _ first, le⟩)
  · exact way_le (Or.inr (Or.inl ⟨le, lower _ second⟩))
  · exact way_le (Or.inr (Or.inr ⟨upper p first, lower q second⟩))

/-- **The clockwise walk** from `k` over a sorted circle ranks the nodes by the way to
their nearest point. -/
theorem ranks_rotate {l : List (UInt64 × N)} (sorted : l.Pairwise fun p q => p.1 ≤ q.1) (apart : Apart (positions l))
    (k : UInt64) :
    Ranks (fun a => Set.image (way k) (positions l a))
      (firsts ((l.rotate (l.findIdx fun p => k ≤ p.1)).map Prod.snd)) := by
  let walked := (l.rotate (l.findIdx fun p => k ≤ p.1)).map fun p => (way k p.1, p.2)
  have places : positions walked = fun a => Set.image (way k) (positions l a) := by
    funext a
    ext d
    simp [positions, walked, and_comm]
  have ranks := ranks_firsts (l := walked) (List.pairwise_map.mpr (pairwise_rotate sorted k)) ?_
  · rwa [places, List.map_map] at ranks
  · rw [places]
    exact fun a b other => (Set.disjoint_image_iff (way_injective k)).mpr (apart a b other)

end Oryx.Library
