import Mathlib.Algebra.Group.Nat.Even
import Mathlib.Data.LawfulXor.Basic
import Mathlib.Data.List.Nodup
import Mathlib.Data.List.FinRange

/-!
# Exclusive-or sums

The sum of a list under `^^^`. It does not depend on the order of the list, and
exchanging the summand of one index is two further `^^^`: this is what a rolling
digest does when it removes an old hash and adds a new one. A summand that occurs
an even number of times cancels.
-/

namespace Oryx.Library
set_option autoImplicit false

section Sum

variable {α ι : Type*} [XorOp α] [Zero α]

/-- The `^^^` of all members. -/
def xorSum (l : List α) : α := l.foldr (· ^^^ ·) 0

@[simp] theorem xorSum_nil : xorSum ([] : List α) = 0 := rfl

@[simp] theorem xorSum_cons (a : α) (l : List α) : xorSum (a :: l) = a ^^^ xorSum l := rfl

theorem xorSum_congr {l : List ι} {f g : ι → α} (same : ∀ i ∈ l, f i = g i) :
    xorSum (l.map f) = xorSum (l.map g) := by
  rw [List.map_congr_left same]

variable [LawfulXor α]

theorem xorSum_perm {l l' : List α} (perm : l.Perm l') : xorSum l = xorSum l' := by
  induction perm with
  | nil => rfl
  | cons a _ ih => simp only [xorSum_cons, ih]
  | swap a b l => rw [xorSum_cons, xorSum_cons, xorSum_cons, xorSum_cons, ← xor_assoc,
      LawfulXor.xor_comm b a, xor_assoc]
  | trans _ _ ih ih' => exact ih.trans ih'

theorem xorSum_append (l l' : List α) : xorSum (l ++ l') = xorSum l ^^^ xorSum l' := by
  induction l with
  | nil => rw [List.nil_append, xorSum_nil, zero_xor]
  | cons a rest ih => rw [List.cons_append, xorSum_cons, ih, xorSum_cons, xor_assoc]

/-- The sum of a concatenation is the sum of the sums of its parts. -/
theorem xorSum_flatMap (l : List ι) (f : ι → List α) :
    xorSum (l.flatMap f) = xorSum (l.map fun i => xorSum (f i)) := by
  induction l with
  | nil => rfl
  | cons i rest ih => rw [List.flatMap_cons, xorSum_append, ih, List.map_cons, xorSum_cons]

/-- Exchange the summand of one index: remove the old one, add the new one. -/
theorem xorSum_map_update [DecidableEq ι] {l : List ι} {i : ι} (nodup : l.Nodup) (member : i ∈ l)
    (f : ι → α) (x : α) :
    xorSum (l.map (Function.update f i x)) = xorSum (l.map f) ^^^ f i ^^^ x := by
  induction l with
  | nil => cases member
  | cons j rest ih =>
    obtain ⟨fresh, nodupRest⟩ := List.nodup_cons.mp nodup
    simp only [List.map_cons, xorSum_cons]
    by_cases same : j = i
    · subst same
      have unchanged : xorSum (rest.map (Function.update f j x)) = xorSum (rest.map f) :=
        xorSum_congr fun k hk => Function.update_of_ne (fun e : k = j => fresh (e ▸ hk)) x f
      rw [Function.update_self, unchanged, LawfulXor.xor_comm (f j), xor_cancel_right,
        LawfulXor.xor_comm]
    · have inRest : i ∈ rest := by
        rcases List.mem_cons.mp member with e | h
        · exact absurd e.symm same
        · exact h
      rw [Function.update_of_ne same, ih nodupRest inRest, xor_assoc, xor_assoc, xor_assoc]

/-- A running `^^^` is the sum. -/
theorem foldl_xor (l : List ι) (f : ι → α) (x : α) :
    l.foldl (fun sum i => sum ^^^ f i) x = x ^^^ xorSum (l.map f) := by
  induction l generalizing x with
  | nil => rw [List.foldl_nil, List.map_nil, xorSum_nil, xor_zero]
  | cons i rest ih => rw [List.foldl_cons, ih, List.map_cons, xorSum_cons, xor_assoc]

theorem xorSum_map_xor (l : List ι) (f g : ι → α) :
    xorSum (l.map fun i => f i ^^^ g i) = xorSum (l.map f) ^^^ xorSum (l.map g) := by
  induction l with
  | nil => rw [List.map_nil, xorSum_nil, List.map_nil, List.map_nil, xorSum_nil, zero_xor]
  | cons i rest ih =>
    rw [List.map_cons, List.map_cons, List.map_cons, xorSum_cons, xorSum_cons, xorSum_cons, ih, xor_assoc, xor_assoc,
      ← xor_assoc (g i), LawfulXor.xor_comm (g i), xor_assoc]

/-! ## Cancellation -/

/-- Summands that occur an even number of times cancel. -/
theorem xorSum_map_of_even [BEq ι] [LawfulBEq ι] {l : List ι} {f : ι → α}
    (even : ∀ i ∈ l, f i ≠ 0 → Even (l.count i)) : xorSum (l.map f) = 0 := by
  induction hn : l.length using Nat.strongRecOn generalizing l with
  | ind n ih =>
    cases l with
    | nil => rfl
    | cons i rest =>
      by_cases zero : f i = 0
      · have later : ∀ j ∈ rest, f j ≠ 0 → Even (rest.count j) := fun j member nonzero => by
          have other : i ≠ j := fun same => nonzero (same ▸ zero)
          have count := even j (List.mem_cons_of_mem i member) nonzero
          rwa [List.count_cons_of_ne other] at count
        rw [List.map_cons, xorSum_cons, zero, zero_xor]
        exact ih rest.length (by rw [← hn, List.length_cons]; exact Nat.lt_succ_self _) later rfl
      · have pair := even i List.mem_cons_self zero
        rw [List.count_cons_self, Nat.even_add_one] at pair
        -- the partner of `i` further on
        have member : i ∈ rest := by
          by_contra absent
          exact pair (by rw [List.count_eq_zero.mpr absent]; exact Even.zero)
        have perm := List.perm_cons_erase member
        have later : ∀ j ∈ rest.erase i, f j ≠ 0 → Even ((rest.erase i).count j) := fun j inErase nonzero => by
          have count := even j (List.mem_cons_of_mem i (List.mem_of_mem_erase inErase)) nonzero
          by_cases same : i = j
          · subst same
            rw [List.count_cons_self, perm.count_eq, List.count_cons_self, Nat.even_add_one, Nat.even_add_one,
              not_not] at count
            exact count
          · rwa [List.count_cons_of_ne same, perm.count_eq, List.count_cons_of_ne same] at count
        have shorter : (rest.erase i).length < n := by
          have length := perm.length_eq
          simp only [List.length_cons] at hn length
          omega
        rw [List.map_cons, xorSum_cons, xorSum_perm (perm.map f), List.map_cons, xorSum_cons,
          xor_cancel_left]
        exact ih _ shorter later rfl

/-- The sum of one summand over its occurrences. -/
theorem xorSum_map_indicator [DecidableEq ι] [BEq ι] [LawfulBEq ι] (l : List ι) (i : ι) (x : α) :
    xorSum (l.map fun j => if j = i then x else 0) = if Even (l.count i) then 0 else x := by
  induction l with
  | nil => simp
  | cons j rest ih =>
    rw [List.map_cons, xorSum_cons, ih]
    by_cases here : j = i
    · subst here
      rw [if_pos rfl, List.count_cons_self]
      by_cases even : Even (rest.count j)
      · rw [if_pos even, if_neg (fun odd => Nat.even_add_one.mp odd even), xor_zero]
      · rw [if_neg even, if_pos (Nat.even_add_one.mpr even), LawfulXor.xor_self]
    · rw [if_neg here, zero_xor, List.count_cons_of_ne here]

end Sum

end Oryx.Library
