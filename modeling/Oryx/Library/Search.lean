import Mathlib.Data.List.Basic

/-!
# Binary search

`sort.Search` of Go's library: the smallest index from which on a predicate holds, found by
halving an interval. The predicate is evaluated at an index, which can fail.
-/

namespace Oryx.Library
set_option autoImplicit false

/-- The loop over `i` and `j`. -/
def sortSearch (f : Nat → Option Bool) (i j : Nat) : Option Nat :=
  if i < j then
    match f ((i + j) / 2) with
    | none => none
    | some false => sortSearch f ((i + j) / 2 + 1) j
    | some true => sortSearch f i ((i + j) / 2)
  else some i
termination_by j - i

/-- `k` is where a predicate on the indices below `n` turns true. -/
structure Turns (p : Nat → Bool) (n k : Nat) : Prop where
  inside : k ≤ n
  below : ∀ h, h < k → p h = false
  above : ∀ h, k ≤ h → h < n → p h = true

/-- The search finds the turn, and evaluates the predicate at indices below `n` only. -/
theorem sortSearch_eq {f : Nat → Option Bool} {p : Nat → Bool} {n k i j : Nat} (turns : Turns p n k)
    (defined : ∀ h, h < n → f h = some (p h)) (low : i ≤ k) (high : k ≤ j) (bound : j ≤ n) :
    sortSearch f i j = some k := by
  -- the interval between `i` and `j` shrinks around the turn
  induction size : j - i using Nat.strongRecOn generalizing i j with
  | ind size ih =>
    rw [sortSearch]
    split
    · rename_i less
      have half : (i + j) / 2 < n := by omega
      rw [defined _ half]
      by_cases before : (i + j) / 2 < k
      · rw [turns.below _ before]
        exact ih _ (by omega) before high bound rfl
      · rw [turns.above _ (Nat.le_of_not_lt before) half]
        exact ih _ (by omega) low (Nat.le_of_not_lt before) (Nat.le_of_lt half) rfl
    · rw [show i = k by omega]

/-- On a list that a predicate splits, the turn is the first place where it holds. -/
theorem turns_findIdx {α : Type*} {q : α → Bool} {l : List α} (split : l.Pairwise fun a b => q a = true → q b = true) :
    Turns (fun h => (l[h]?).any q) l.length (l.findIdx q) where
  inside := List.findIdx_le_length
  below h before := by
    rw [List.getElem?_eq_getElem (Nat.lt_of_lt_of_le before List.findIdx_le_length), Option.any_some]
    simpa using List.not_of_lt_findIdx before
  above h after within := by
    rw [List.getElem?_eq_getElem within, Option.any_some]
    have found : l.findIdx q < l.length := Nat.lt_of_le_of_lt after within
    have here : q l[l.findIdx q] = true := List.findIdx_getElem
    rcases Nat.lt_or_eq_of_le after with later | same
    · exact List.pairwise_iff_getElem.mp split _ _ found within later here
    · simpa only [← same] using here

end Oryx.Library
