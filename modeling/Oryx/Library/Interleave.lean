import Mathlib.Data.List.Basic

/-!
# Interleavings

Several lists merged into one by a schedule: each entry of the schedule names the
list whose next member comes next, and what the schedule leaves over follows in
order. Every merge that keeps the order of each list is the merge by some
schedule.
-/

namespace Oryx.Library
set_option autoImplicit false

variable {α : Type*}

/-- The merge of `ls` by a schedule. An entry that names no list, or one that is
used up, is skipped. -/
def interleave : List Nat → List (List α) → List α
  | [], ls => ls.flatten
  | i :: sched, ls =>
    match ls[i]? with
    | some (a :: rest) => a :: interleave sched (ls.set i rest)
    | _ => interleave sched ls

/-- The merged list is a permutation of the concatenation. -/
theorem interleave_perm (sched : List Nat) (ls : List (List α)) : (interleave sched ls).Perm ls.flatten := by
  induction sched generalizing ls with
  | nil => exact List.Perm.refl _
  | cons i sched ih =>
    rw [interleave]
    split
    · rename_i a rest found
      obtain ⟨bound, here⟩ := List.getElem?_eq_some_iff.mp found
      have split : ls = ls.take i ++ (a :: rest) :: ls.drop (i + 1) := by
        rw [← here, List.getElem_cons_drop, List.take_append_drop]
      have after : ls.set i rest = ls.take i ++ rest :: ls.drop (i + 1) := by
        rw [List.set_eq_take_append_cons_drop, if_pos bound]
      refine ((ih (ls.set i rest)).cons a).trans ?_
      rw [after]
      nth_rewrite 3 [split]
      simp only [List.flatten_append, List.flatten_cons, List.cons_append]
      exact List.perm_middle.symm
    · exact ih ls

theorem mem_interleave {sched : List Nat} {ls : List (List α)} {a : α} :
    a ∈ interleave sched ls ↔ ∃ l ∈ ls, a ∈ l := by
  rw [(interleave_perm sched ls).mem_iff, List.mem_flatten]

theorem filterMap_flatten_of_forall {β : Type*} {f : α → Option β} {ls : List (List α)}
    (nothing : ∀ l ∈ ls, ∀ a ∈ l, f a = none) : ls.flatten.filterMap f = [] := by
  rw [List.filterMap_eq_nil_iff]
  intro a member
  obtain ⟨l, listed, inside⟩ := List.mem_flatten.mp member
  exact nothing l listed a inside

/-- What `f` selects, when it selects from one list only, is what it selects from that list. -/
theorem filterMap_flatten_of_one {β : Type*} {f : α → Option β} {ls : List (List α)} {i : Nat} {l : List α}
    (here : ls[i]? = some l) (elsewhere : ∀ j l', ls[j]? = some l' → j ≠ i → ∀ a ∈ l', f a = none) :
    ls.flatten.filterMap f = l.filterMap f := by
  obtain ⟨bound, rfl⟩ := List.getElem?_eq_some_iff.mp here
  have front : ∀ l' ∈ ls.take i, ∀ a ∈ l', f a = none := by
    intro l' member
    obtain ⟨j, jb, rfl⟩ := List.mem_take_iff_getElem.mp member
    exact elsewhere j _ (List.getElem?_eq_getElem (by omega)) (by omega)
  have back : ∀ l' ∈ ls.drop (i + 1), ∀ a ∈ l', f a = none := by
    intro l' member
    obtain ⟨j, jb, rfl⟩ := List.mem_drop_iff_getElem.mp member
    exact elsewhere (i + 1 + j) _ (List.getElem?_eq_getElem (by omega)) (by omega)
  have split : ls = ls.take i ++ ls[i] :: ls.drop (i + 1) := by
    rw [List.getElem_cons_drop, List.take_append_drop]
  nth_rewrite 1 [split]
  rw [List.flatten_append, List.flatten_cons, List.filterMap_append, List.filterMap_append,
    filterMap_flatten_of_forall front, filterMap_flatten_of_forall back, List.nil_append, List.append_nil]

/-- What `f` selects, when it selects from one list only, keeps that list's order in the merge. -/
theorem filterMap_interleave {β : Type*} {f : α → Option β} (sched : List Nat) {ls : List (List α)} {i : Nat}
    {l : List α} (here : ls[i]? = some l)
    (elsewhere : ∀ j l', ls[j]? = some l' → j ≠ i → ∀ a ∈ l', f a = none) :
    (interleave sched ls).filterMap f = l.filterMap f := by
  induction sched generalizing ls l with
  | nil => exact filterMap_flatten_of_one here elsewhere
  | cons j sched ih =>
    rw [interleave]
    split
    · rename_i a rest found
      obtain ⟨bound, -⟩ := List.getElem?_eq_some_iff.mp found
      by_cases same : j = i
      · subst same
        obtain rfl : l = a :: rest := Option.some.inj (here.symm.trans found)
        have at_ : (ls.set j rest)[j]? = some rest := by simp [bound]
        have next := ih at_ fun j' l' at' distinct =>
          elsewhere j' l' (by rwa [List.getElem?_set_ne (Ne.symm distinct)] at at') distinct
        rw [List.filterMap_cons, List.filterMap_cons, next]
      · rw [List.filterMap_cons_none (elsewhere j _ found same a List.mem_cons_self)]
        refine ih (by rwa [List.getElem?_set_ne same]) fun j' l' at' distinct b member => ?_
        by_cases again : j' = j
        · subst again
          rw [List.getElem?_set_self bound] at at'
          obtain rfl := Option.some.inj at'
          exact elsewhere j' _ found distinct b (List.mem_cons_of_mem a member)
        · exact elsewhere j' l' (by rwa [List.getElem?_set_ne (Ne.symm again)] at at') distinct b member
    · exact ih here elsewhere

/-- A list split by the values of `f` and put together again, part by part. -/
theorem flatMap_filter_perm {ι : Type*} [DecidableEq ι] (f : α → ι) {parts : List ι} (nodup : parts.Nodup) {l : List α}
    (covered : ∀ a ∈ l, f a ∈ parts) : (parts.flatMap fun i => l.filter fun a => f a = i).Perm l := by
  induction parts generalizing l with
  | nil =>
    obtain rfl : l = [] := List.eq_nil_iff_forall_not_mem.mpr fun a member => by simpa using covered a member
    rfl
  | cons i rest ih =>
    obtain ⟨fresh, nodup⟩ := List.nodup_cons.mp nodup
    -- the members that belong to `i` are in no later part
    have later : (rest.flatMap fun j => l.filter fun a => f a = j) =
        rest.flatMap fun j => (l.filter fun a => f a ≠ i).filter fun a => f a = j := by
      refine List.flatMap_congr fun j member => ?_
      have other : j ≠ i := fun same => fresh (same ▸ member)
      rw [List.filter_filter]
      refine List.filter_congr fun a _ => ?_
      by_cases here : f a = j <;> simp [here, other]
    rw [List.flatMap_cons, later]
    refine ((ih nodup fun a member => ?_).append_left _).trans ?_
    · obtain ⟨inList, other⟩ := List.mem_filter.mp member
      exact (List.mem_cons.mp (covered a inList)).resolve_left (by simpa using other)
    · simpa using List.filter_append_perm (fun a => decide (f a = i)) l

end Oryx.Library
