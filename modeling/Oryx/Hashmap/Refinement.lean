import Oryx.Library.LastWriter
import Oryx.Hashmap.Invariant

/-!
# The sharded map as a plain map

Under the representation invariant a sharded map is the function `cell` from keys
to records, and the operations are updates of it: `store` always writes,
`storeLWW` writes when the key is absent or the new record outranks the old one,
`delete` forgets the key. Readers (`load`, `range`, `rangeShard`) report it. The
conflict rule `lwwWins` is the strict part of a linear order (`rank`), so that
repeated `storeLWW` under one key is a last-writer register.
-/

namespace Oryx.Hashmap
set_option autoImplicit false
open Oryx.Library

/-- The key of the conflict rule. -/
def rank (v : Value) : Int64 ×ₗ Bytes ×ₗ UInt64 := toLex (v.timestamp, toLex (v.nodeID, v.itemHash))

theorem lwwWins_iff {existing incoming : Value} :
    lwwWins existing incoming = true ↔ rank existing < rank incoming := by
  simp only [lwwWins, rank, Prod.Lex.toLex_lt_toLex]
  by_cases time : existing.timestamp = incoming.timestamp
  · by_cases node : existing.nodeID = incoming.nodeID
    · simp [time, node]
    · simp [time, node]
  · simp [time]

theorem lwwWins_self (v : Value) : lwwWins v v = false :=
  Bool.eq_false_iff.mpr fun wins => lt_irrefl _ (lwwWins_iff.mp wins)

/-- Two records that differ only in their item hash are ranked by it. -/
theorem rank_eq_iff {v w : Value} :
    rank v = rank w ↔ v.timestamp = w.timestamp ∧ v.nodeID = w.nodeID ∧ v.itemHash = w.itemHash := by
  simp [rank]

theorem rank_lt_of_timestamp_lt {v w : Value} (less : v.timestamp < w.timestamp) : rank v < rank w := by
  rw [rank, rank, Prod.Lex.toLex_lt_toLex]
  exact Or.inl less

theorem timestamp_le_of_rank_le {v w : Value} (le : rank v ≤ rank w) : v.timestamp ≤ w.timestamp :=
  Prod.Lex.monotone_fst _ _ le

namespace ShardedMap

variable [Security] {h : Key → HashKey} {sm : ShardedMap}

/-- Whether `StoreLWW` accepts `val` over what the map holds. -/
def accepts (held : Option Value) (val : Value) : Bool :=
  match held with
  | none => true
  | some existing => lwwWins existing val

/-- Write a hashed value: exchange the cell of a known key, insert a new one. -/
def put (sm : ShardedMap) (k : Key) (hash : HashKey) (val : Value) : ShardedMap :=
  match ((sm.shards (shardIndex hash)).buckets (subIndex hash))[k]? with
  | some wrapper => sm.swap (shardIndex hash) (subIndex hash) wrapper val
  | none => sm.insert (shardIndex hash) (subIndex hash) k val

omit [Security] in
theorem put_of_dir {k : Key} {r : Nat} (found : sm.dir h k = some r) (val : Value) :
    sm.put k (h k) val = sm.swap (shardIndex (h k)) (subIndex (h k)) r val := by
  simp only [dir] at found
  simp only [put, found]

omit [Security] in
theorem put_of_absent {k : Key} (absent : sm.dir h k = none) (val : Value) :
    sm.put k (h k) val = sm.insert (shardIndex (h k)) (subIndex (h k)) k val := by
  simp only [dir] at absent
  simp only [put, absent]

omit [Security] in
/-- A key that is in a tree keeps its cell. -/
theorem dir_put_of_dir {k k' : Key} {r : Nat} (found : sm.dir h k' = some r) (val : Value) :
    (sm.put k (h k) val).dir h k' = some r := by
  cases here : sm.dir h k with
  | none =>
    have other : k' ≠ k := by
      rintro rfl
      rw [here] at found
      cases found
    rw [put_of_absent here, dir_insert, if_neg other, found]
  | some r' => rw [put_of_dir here, dir_swap, found]

theorem Inv.put (inv : sm.Inv h) {k : Key} {val : Value} (hash : val.itemHash = getItemHash (h k) val) :
    (sm.put k (h k) val).Inv h := by
  cases found : sm.dir h k with
  | none => rw [put_of_absent found]; exact inv.insert found hash
  | some r => rw [put_of_dir found]; exact inv.swap found hash

theorem Inv.cell_put (inv : sm.Inv h) (k : Key) (val : Value) :
    (sm.put k (h k) val).cell h = Function.update (sm.cell h) k (some val) := by
  cases found : sm.dir h k with
  | none => rw [put_of_absent found]; exact inv.cell_insert k val
  | some r => rw [put_of_dir found]; exact inv.cell_swap found _ _ val

theorem itemHash_withItemHash (hash : HashKey) (val : Value) :
    (withItemHash hash val).itemHash = getItemHash hash (withItemHash hash val) := rfl

/-- `StoreLWW` is a write when the record is accepted and nothing otherwise. -/
theorem Inv.storeLWW_eq (inv : sm.Inv h) (k : Key) (val : Value) :
    sm.storeLWW k (h k) val =
      if accepts (sm.cell h k) (withItemHash (h k) val) then (sm.put k (h k) (withItemHash (h k) val), true)
      else (sm, false) := by
  cases found : sm.dir h k with
  | none =>
    have absent := (cell_eq_none inv).mpr found
    rw [absent, put_of_absent found]
    simp only [dir] at found
    simp [storeLWW, found, accepts]
  | some r =>
    obtain ⟨v, cellAt, held⟩ := inv.cell_of_dir found
    rw [held, put_of_dir found]
    simp only [dir] at found
    simp only [storeLWW, found, cellAt]
    rfl

theorem Inv.store (inv : sm.Inv h) (k : Key) (val : Value) : (sm.store k (h k) val).Inv h :=
  inv.put (itemHash_withItemHash (h k) val)

theorem Inv.cell_store (inv : sm.Inv h) (k : Key) (val : Value) :
    (sm.store k (h k) val).cell h = Function.update (sm.cell h) k (some (withItemHash (h k) val)) :=
  inv.cell_put k _

theorem Inv.storeLWW (inv : sm.Inv h) (k : Key) (val : Value) : (sm.storeLWW k (h k) val).1.Inv h := by
  rw [inv.storeLWW_eq]
  split
  · exact inv.put (itemHash_withItemHash (h k) val)
  · exact inv

theorem Inv.dir_storeLWW (inv : sm.Inv h) {k k' : Key} {r : Nat} (found : sm.dir h k' = some r) (val : Value) :
    (sm.storeLWW k (h k) val).1.dir h k' = some r := by
  rw [inv.storeLWW_eq]
  split
  · exact dir_put_of_dir found _
  · exact found

/-- Under one key `StoreLWW` is an offer to a last-writer register. -/
theorem Inv.cell_storeLWW (inv : sm.Inv h) (k : Key) (val : Value) :
    (sm.storeLWW k (h k) val).1.cell h =
      Function.update (sm.cell h) k (LastWriter.adopt rank (sm.cell h k) (withItemHash (h k) val)) := by
  rw [inv.storeLWW_eq]
  cases held : sm.cell h k with
  | none => simp [accepts, LastWriter.adopt, inv.cell_put]
  | some existing =>
    by_cases wins : lwwWins existing (withItemHash (h k) val) = true
    · simp [accepts, wins, LastWriter.adopt, lwwWins_iff.mp wins, inv.cell_put]
    · have stale : ¬ rank existing < rank (withItemHash (h k) val) := fun less => wins (lwwWins_iff.mpr less)
      simp only [accepts, wins, LastWriter.adopt, stale, if_false]
      funext k'
      by_cases same : k' = k
      · subst same; simp [held]
      · simp [same]

/-- A loop whose turns each write one key is an assignment loop on the records. -/
theorem foldl_writes {A : Type} {step : ShardedMap → A → ShardedMap} (key : A → Key)
    (write : A → Option Value → Option Value)
    (writes : ∀ sm a, sm.Inv h → (step sm a).Inv h ∧
      (step sm a).cell h = Function.update (sm.cell h) (key a) (write a (sm.cell h (key a))))
    (inv : sm.Inv h) (l : List A) :
    (l.foldl step sm).Inv h ∧ (l.foldl step sm).cell h =
      l.foldl (fun cells a => Function.update cells (key a) (write a (cells (key a)))) (sm.cell h) := by
  induction l generalizing sm with
  | nil => exact ⟨inv, rfl⟩
  | cons a rest ih =>
    obtain ⟨inv', cells⟩ := writes sm a inv
    obtain ⟨last, run⟩ := ih inv'
    refine ⟨last, ?_⟩
    rw [List.foldl_cons, List.foldl_cons, run, cells]

/-! ## Readers -/

theorem Inv.loadCell_eq (inv : sm.Inv h) (k : Key) : sm.loadCell k (h k) = sm.cell h k := by
  simp only [loadCell, (inv.agrees _).read, cell, dir]

theorem Inv.load_eq (inv : sm.Inv h) (k : Key) : sm.load k (h k) = (sm.cell h k).map Value.blank := by
  rw [load, inv.loadCell_eq]

/-- Two maps that `load` the same hold the same records: the item hash is determined. -/
theorem Inv.cell_of_load {sm' : ShardedMap} (inv : sm.Inv h) (inv' : sm'.Inv h) {k : Key}
    (same : sm.load k (h k) = sm'.load k (h k)) : sm.cell h k = sm'.cell h k := by
  rw [inv.load_eq, inv'.load_eq] at same
  cases held : sm.cell h k with
  | none =>
    rw [held] at same
    cases held' : sm'.cell h k with
    | none => rfl
    | some w => rw [held'] at same; cases same
  | some v =>
    rw [held] at same
    cases held' : sm'.cell h k with
    | none => rw [held'] at same; cases same
    | some w =>
      rw [held'] at same
      have blank : v.blank = w.blank := Option.some.inj same
      have hash : v.itemHash = w.itemHash := by
        rw [inv.itemHash held, inv'.itemHash held']
        simp only [Value.blank, Value.mk.injEq] at blank
        simp [getItemHash, blank]
      rw [Value.blank_inj blank hash]

/-- The pairs of the tree at `(i, b)` are the keys placed there with their records. -/
theorem Inv.mem_entriesOf (inv : sm.Inv h) {i : Fin shardCount} {b : Fin subBucketCount} {k : Key} {v : Value} :
    (k, v) ∈ sm.entriesOf ((sm.shards i).buckets b) ↔
      sm.cell h k = some v ∧ shardIndex (h k) = i ∧ subIndex (h k) = b := by
  simp only [entriesOf, List.mem_filterMap, Prod.exists, Std.TreeMap.mem_toList_iff_getElem?_eq_some,
    Option.map_eq_some_iff, Prod.mk.injEq]
  constructor
  · rintro ⟨k', r, found, v', held, rfl, rfl⟩
    exact ⟨by simp [cell, inv.dir_of_tree found, held], inv.placed found⟩
  · rintro ⟨held, rfl, rfl⟩
    obtain ⟨r, found, at_⟩ := Option.bind_eq_some_iff.mp held
    exact ⟨k, r, found, v, at_, rfl, rfl⟩

omit [Security] in
theorem nodup_entriesOf (sm : ShardedMap) (tree : RadixTree) : ((sm.entriesOf tree).map Prod.fst).Nodup := by
  refine (nodup_keys_toList tree).sublist ?_
  rw [entriesOf]
  induction tree.toList with
  | nil => exact List.Sublist.slnil
  | cons p rest ih =>
    cases held : sm.wrappers[p.2]? with
    | none => simpa [held] using ih.cons p.1
    | some v => simpa [held] using ih

theorem Inv.mem_range (inv : sm.Inv h) {k : Key} {v : Value} :
    (k, v) ∈ sm.range ↔ sm.cell h k = some v := by
  simp only [range, List.mem_flatMap, List.mem_finRange, true_and, inv.mem_entriesOf]
  constructor
  · rintro ⟨_, _, held, _, _⟩
    exact held
  · intro held
    exact ⟨_, _, held, rfl, rfl⟩

/-- No key is reported twice. -/
theorem Inv.nodup_range (inv : sm.Inv h) : (sm.range.map Prod.fst).Nodup := by
  have inBucket {i : Fin shardCount} {b : Fin subBucketCount} {k : Key}
      (member : k ∈ (sm.entriesOf ((sm.shards i).buckets b)).map Prod.fst) :
      shardIndex (h k) = i ∧ subIndex (h k) = b := by
    obtain ⟨⟨k, v⟩, pair, rfl⟩ := List.mem_map.mp member
    exact (inv.mem_entriesOf.mp pair).2
  simp only [range, List.map_flatMap]
  refine List.nodup_flatMap.mpr ⟨fun i _ => List.nodup_flatMap.mpr ⟨fun b _ => nodup_entriesOf sm _, ?_⟩, ?_⟩
  · refine (List.nodup_finRange _).imp fun {b c} different k hb hc => different ?_
    exact (inBucket hb).2.symm.trans (inBucket hc).2
  · refine (List.nodup_finRange _).imp fun {i j} different k hi hj => different ?_
    obtain ⟨b, -, hb⟩ := List.mem_flatMap.mp hi
    obtain ⟨c, -, hc⟩ := List.mem_flatMap.mp hj
    exact (inBucket hb).1.symm.trans (inBucket hc).1

end ShardedMap

end Oryx.Hashmap
