import Mathlib.Data.List.Perm.Basic
import Mathlib.Tactic.Linarith

/-!
# Enumerations of ordered maps

How `toList` of a tree map changes under an insertion of a new key and under a
removal. The enumeration has distinct keys, so it is determined up to order by
its members.
-/

namespace Oryx.Library
set_option autoImplicit false

variable {K V : Type*} [Ord K] [Std.TransOrd K] [Std.LawfulEqOrd K]

theorem nodup_toList (t : Std.TreeMap K V) : t.toList.Nodup :=
  t.distinct_keys_toList.imp fun {a b} apart same =>
    apart (by rw [same]; exact Std.ReflCmp.compare_self)

theorem nodup_keys_toList (t : Std.TreeMap K V) : (t.toList.map Prod.fst).Nodup :=
  List.pairwise_map.mpr (t.distinct_keys_toList.imp fun {a b} apart same =>
    apart (by rw [same]; exact Std.ReflCmp.compare_self))

variable [DecidableEq K]

/-- Lookup after an insertion, with equality for the order. -/
theorem getElem?_insert_eq (t : Std.TreeMap K V) (k a : K) (v : V) :
    (t.insert k v)[a]? = if a = k then some v else t[a]? := by
  rw [Std.TreeMap.getElem?_insert]
  simp only [Std.LawfulEqCmp.compare_eq_iff_eq, eq_comm (a := k)]

/-- Lookup after a removal, with equality for the order. -/
theorem getElem?_erase_eq (t : Std.TreeMap K V) (k a : K) :
    (t.erase k)[a]? = if a = k then none else t[a]? := by
  rw [Std.TreeMap.getElem?_erase]
  simp only [Std.LawfulEqCmp.compare_eq_iff_eq, eq_comm (a := k)]

/-- A new key adds exactly its pair. -/
theorem toList_insert_new {t : Std.TreeMap K V} {k : K} (absent : t[k]? = none) (v : V) :
    (t.insert k v).toList.Perm ((k, v) :: t.toList) := by
  have fresh : (k, v) ∉ t.toList := by
    rw [Std.TreeMap.mem_toList_iff_getElem?_eq_some, absent]
    nofun
  rw [List.perm_ext_iff_of_nodup (nodup_toList _) (List.nodup_cons.mpr ⟨fresh, nodup_toList t⟩)]
  rintro ⟨a, w⟩
  rw [List.mem_cons, Std.TreeMap.mem_toList_iff_getElem?_eq_some,
    Std.TreeMap.mem_toList_iff_getElem?_eq_some, getElem?_insert_eq]
  by_cases same : a = k
  · subst same
    simp [absent, eq_comm]
  · simp [same]

/-- Removing a key removes exactly its pair. -/
theorem toList_erase_present {t : Std.TreeMap K V} {k : K} {v : V} (present : t[k]? = some v) :
    t.toList.Perm ((k, v) :: (t.erase k).toList) := by
  have gone : (k, v) ∉ (t.erase k).toList := by
    rw [Std.TreeMap.mem_toList_iff_getElem?_eq_some, getElem?_erase_eq]
    simp
  rw [List.perm_ext_iff_of_nodup (nodup_toList t) (List.nodup_cons.mpr ⟨gone, nodup_toList _⟩)]
  rintro ⟨a, w⟩
  rw [List.mem_cons, Std.TreeMap.mem_toList_iff_getElem?_eq_some,
    Std.TreeMap.mem_toList_iff_getElem?_eq_some, getElem?_erase_eq]
  by_cases same : a = k
  · subst same
    simp [present, eq_comm]
  · simp [same]

theorem size_insert_new {t : Std.TreeMap K V} {k : K} (absent : t[k]? = none) (v : V) :
    (t.insert k v).size = t.size + 1 := by
  rw [← Std.TreeMap.length_toList, ← Std.TreeMap.length_toList, (toList_insert_new absent v).length_eq,
    List.length_cons]

theorem size_erase_present {t : Std.TreeMap K V} {k : K} {v : V} (present : t[k]? = some v) :
    t.size = (t.erase k).size + 1 := by
  rw [← Std.TreeMap.length_toList, ← Std.TreeMap.length_toList, (toList_erase_present present).length_eq,
    List.length_cons]

end Oryx.Library
