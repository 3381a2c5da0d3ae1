import Mathlib.Data.List.FinRange
import Mathlib.Logic.Function.Basic

/-!
# Assignment loops

Loops that assign to the entries of a map or of a slice, one index after another,
and what the map or slice holds when they are done.
-/

namespace Oryx.Library
set_option autoImplicit false

section Map

variable {ι κ γ : Type*} [DecidableEq κ] {f : ι → κ} (g : ι → Option γ → Option γ)

/-- A key the loop does not visit keeps its entry. -/
theorem foldl_update_of_ne {l : List ι} {key : κ} (other : ∀ i ∈ l, f i ≠ key) (m : κ → Option γ) :
    l.foldl (fun m i => Function.update m (f i) (g i (m (f i)))) m key = m key := by
  induction l generalizing m with
  | nil => rfl
  | cons i rest ih =>
    obtain ⟨here, later⟩ := List.forall_mem_cons.mp other
    rw [List.foldl_cons, ih later, Function.update_of_ne (Ne.symm here)]

/-- A key the loop visits once is assigned from the entry it had. -/
theorem foldl_update_of_mem {l : List ι} (distinct : (l.map f).Nodup) {i : ι} (member : i ∈ l) (m : κ → Option γ) :
    l.foldl (fun m i => Function.update m (f i) (g i (m (f i)))) m (f i) = g i (m (f i)) := by
  induction l generalizing m with
  | nil => cases member
  | cons j rest ih =>
    obtain ⟨fresh, distinct⟩ := List.nodup_cons.mp distinct
    rw [List.foldl_cons]
    rcases List.mem_cons.mp member with rfl | later
    · have other : ∀ j ∈ rest, f j ≠ f i := fun j later same => fresh (same ▸ List.mem_map_of_mem later)
      rw [foldl_update_of_ne g other, Function.update_self]
    · have apart : f i ≠ f j := fun same => fresh (same ▸ List.mem_map_of_mem later)
      rw [ih distinct later, Function.update_of_ne apart]

/-- The order in which distinct keys are assigned does not matter. -/
theorem foldl_update_perm {l l' : List ι} (perm : l.Perm l') (distinct : (l.map f).Nodup) (m : κ → Option γ) :
    l.foldl (fun m i => Function.update m (f i) (g i (m (f i)))) m =
      l'.foldl (fun m i => Function.update m (f i) (g i (m (f i)))) m := by
  have distinct' : (l'.map f).Nodup := (perm.map f).nodup_iff.mp distinct
  funext key
  by_cases visited : ∃ i ∈ l, f i = key
  · obtain ⟨i, member, rfl⟩ := visited
    rw [foldl_update_of_mem g distinct member, foldl_update_of_mem g distinct' (perm.mem_iff.mp member)]
  · have other : ∀ i ∈ l, f i ≠ key := fun i member same => visited ⟨i, member, same⟩
    rw [foldl_update_of_ne g other, foldl_update_of_ne g fun i member => other i (perm.mem_iff.mpr member)]

end Map

section Slice

variable {γ : Type*} {n : Nat} (g : Fin n → γ)

theorem length_foldl_set (l : List (Fin n)) (buf : List γ) :
    (l.foldl (fun buf b => buf.set b.val (g b)) buf).length = buf.length := by
  induction l generalizing buf with
  | nil => rfl
  | cons i rest ih => rw [List.foldl_cons, ih, List.length_set]

theorem getElem?_foldl_set {l : List (Fin n)} {buf : List γ} (long : buf.length = n) (b : Fin n) :
    (l.foldl (fun buf b => buf.set b.val (g b)) buf)[b.val]? = if b ∈ l then some (g b) else buf[b.val]? := by
  induction l generalizing buf with
  | nil => simp
  | cons i rest ih =>
    have bound : b.val < buf.length := long ▸ b.isLt
    rw [List.foldl_cons, ih (by rw [List.length_set, long])]
    by_cases later : b ∈ rest
    · simp [later]
    · by_cases here : b = i
      · subst here
        simp [later, bound]
      · have apart : i.val ≠ b.val := fun same => here (Fin.ext same.symm)
        simp [later, here, List.getElem?_set_ne apart]

/-- A loop over all indexes fills the slice. -/
theorem foldl_set_finRange {buf : List γ} (long : buf.length = n) :
    (List.finRange n).foldl (fun buf b => buf.set b.val (g b)) buf = (List.finRange n).map g := by
  refine List.ext_getElem? fun j => ?_
  by_cases bound : j < n
  · have slot := getElem?_foldl_set g (l := List.finRange n) long ⟨j, bound⟩
    rw [if_pos (List.mem_finRange _)] at slot
    rw [slot]
    simp [bound]
  · rw [List.getElem?_eq_none (by rw [length_foldl_set]; omega), List.getElem?_eq_none (by simp; omega)]

end Slice

end Oryx.Library
