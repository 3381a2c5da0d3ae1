import Oryx.Hashmap.Readers
import Oryx.Library.Runs

/-!
# The sharded map is a map

The sharded map against a plain one, a function from keys to records, for any hash of the keys:
a run of writes leaves the same records in both, and every reader of the sharded map reports
those of the plain one. Nothing is asked of the hash but that a key always comes with the same;
keys whose hashes are equal share a tree and stay apart.
-/

namespace Oryx.Hashmap
set_option autoImplicit false
open Oryx.Library

section Writes

variable [Security] {h : Key → HashKey}

/-- **The plain map**: a write puts its record under its key, with the item hash that belongs to
it. `StoreLWW` is accepted when the key is absent or the record beats the one that is there. -/
def Op.onPlain (h : Key → HashKey) (m : Key → Option Value) : Op → Key → Option Value
  | .store key _ val => Function.update m key (some (withItemHash (h key) val))
  | .storeLWW key _ val =>
    if ShardedMap.accepts (m key) (withItemHash (h key) val) then
      Function.update m key (some (withItemHash (h key) val))
    else m
  | .delete key _ => Function.update m key none

theorem Op.onPlain_of_ne (m : Key → Option Value) {op : Op} {k : Key} (other : k ≠ op.key) :
    op.onPlain h m k = m k := by
  cases op with
  | store key hash val => exact Function.update_of_ne other ..
  | storeLWW key hash val =>
    rw [Op.onPlain]
    split
    · exact Function.update_of_ne other ..
    · rfl
  | delete key hash => exact Function.update_of_ne other ..

/-- The plain map after a run of writes. -/
def plainRun (h : Key → HashKey) (ops : List Op) : Key → Option Value :=
  ops.foldl (Op.onPlain h) fun _ => none

namespace ShardedMap

variable {sm : ShardedMap}

/-- `Range` with its callback, which says whether to go on. -/
def rangeWith {σ : Type} (sm : ShardedMap) (callback : σ → Key × Value → Bool × σ) (s : σ) : σ :=
  (loop (fun s i =>
    loop (fun s b => loop callback s (sm.entriesOf ((sm.shards i).buckets b))) s (List.finRange subBucketCount))
    s (List.finRange shardCount)).2

/-! ## Writers -/

/-- **One write.** -/
theorem Inv.cell_apply (inv : sm.Inv h) {op : Op} (consistent : op.hash = h op.key) :
    (sm.apply op).cell h = op.onPlain h (sm.cell h) := by
  cases op with
  | store key hash val =>
    obtain rfl : hash = h key := consistent
    exact inv.cell_store key val
  | storeLWW key hash val =>
    obtain rfl : hash = h key := consistent
    rw [ShardedMap.apply, inv.storeLWW_eq, Op.onPlain]
    split
    · exact inv.cell_put key _
    · rfl
  | delete key hash =>
    obtain rfl : hash = h key := consistent
    exact inv.cell_delete key

/-- **A run of writes.** -/
theorem cell_run {ops : List Op} (consistent : ∀ op ∈ ops, op.hash = h op.key) :
    (run ops).cell h = plainRun h ops := by
  have from_any (sm : ShardedMap) (inv : sm.Inv h) :
      (ops.foldl ShardedMap.apply sm).cell h = ops.foldl (Op.onPlain h) (sm.cell h) := by
    induction ops generalizing sm with
    | nil => rfl
    | cons op rest ih =>
      obtain ⟨here, later⟩ := List.forall_mem_cons.mp consistent
      rw [List.foldl_cons, List.foldl_cons, ih later _ (inv.apply here), inv.cell_apply here]
  have empty : newShardedMap.cell h = fun _ => none := funext (cell_new h)
  rw [run, from_any newShardedMap (inv_new h), empty, plainRun]

theorem Inv.snd_storeLWW (inv : sm.Inv h) (k : Key) (val : Value) :
    (sm.storeLWW k (h k) val).2 = accepts (sm.cell h k) (withItemHash (h k) val) := by
  rw [inv.storeLWW_eq]
  split
  · rename_i accepted
    exact accepted.symm
  · rename_i refused
    exact (Bool.eq_false_iff.mpr refused).symm

/-! ## Readers -/

omit [Security] in
theorem loadData_eq (sm : ShardedMap) (k : Key) (hash : HashKey) :
    sm.loadData k hash = (sm.load k hash).bind fun v => if v.tombstone then none else some v.data := by
  rw [loadData, load]
  cases sm.loadCell k hash <;> rfl

omit [Security] in
theorem rangeWith_eq {σ : Type} (sm : ShardedMap) (callback : σ → Key × Value → Bool × σ) (s : σ) :
    sm.rangeWith callback s = (visited callback s sm.range).foldl (fun s p => (callback s p).2) s := by
  simp only [rangeWith, loop_flatMap]
  exact loop_eq_foldl s sm.range

theorem Inv.mem_rangeShard_iff (inv : sm.Inv h) {id : ShardID} {mask : UInt64} {k : Key} {v : Value} :
    (k, v) ∈ sm.rangeShard id mask ↔
      sm.cell h k = some v ∧ shardID (shardIndex (h k)) = id ∧
        mask &&& ((1 : UInt64) <<< UInt64.ofNat (subIndex (h k)).val) ≠ 0 := by
  by_cases known : ∃ i, shardID i = id
  · obtain ⟨i, rfl⟩ := known
    simp only [mem_rangeShard, bucketPairs, inv.mem_entriesOf, shardID_injective.eq_iff]
    constructor
    · rintro ⟨b, bit, held, shard, rfl⟩
      exact ⟨held, shard, bit⟩
    · rintro ⟨held, shard, bit⟩
      exact ⟨_, bit, held, shard, rfl⟩
  · have nothing : sm.rangeShard id mask = [] := by
      rw [rangeShard]
      split
      · rfl
      · split
        · rfl
        · rename_i i found
          exact absurd ⟨i, by simpa using List.find?_some found⟩ known
    rw [nothing]
    refine ⟨fun member => absurd member List.not_mem_nil, ?_⟩
    rintro ⟨_, shard, _⟩
    exact absurd ⟨_, shard⟩ known

theorem Inv.nodup_rangeShard (inv : sm.Inv h) (id : ShardID) (mask : UInt64) :
    ((sm.rangeShard id mask).map Prod.fst).Nodup := by
  by_cases known : ∃ i, shardID i = id
  · obtain ⟨i, rfl⟩ := known
    have all := inv.nodup_range
    rw [range, List.map_flatMap] at all
    refine (List.nodup_flatMap.mp all).1 i (List.mem_finRange i) |>.sublist ?_
    exact (sm.rangeShard_sublist i mask).map _
  · have nothing : sm.rangeShard id mask = [] := by
      refine List.eq_nil_iff_forall_not_mem.mpr fun p member => known ?_
      exact ⟨_, (inv.mem_rangeShard_iff.mp member).2.1⟩
    rw [nothing]
    exact List.nodup_nil

/-- **The sharded map refines the plain map.** After any run of writes `Load` returns the plain
map's record with its item hash blanked, `LoadData` the data of what `Load` finds unless that is
a tombstone, and `StoreLWW` whether the plain map accepts; `Range` visits every record of the
plain map once, or a prefix of that when the callback stops it, and `RangeShard` visits once those
of the shard whose bit is set. A write touches no other key, also none with the same hash. -/
theorem refines_plain_map (ops : List Op) (consistent : ∀ op ∈ ops, op.hash = h op.key) :
    let sm := run ops
    let m := plainRun h ops
    (∀ k, sm.load k (h k) = (m k).map Value.blank) ∧
    (∀ k, sm.loadData k (h k) = (sm.load k (h k)).bind fun v => if v.tombstone then none else some v.data) ∧
    (∀ k val, (sm.storeLWW k (h k) val).2 = accepts (m k) (withItemHash (h k) val)) ∧
    ((sm.range.map Prod.fst).Nodup ∧ ∀ k v, (k, v) ∈ sm.range ↔ m k = some v) ∧
    (∀ (σ : Type) (callback : σ → Key × Value → Bool × σ) (s : σ),
      sm.rangeWith callback s = (visited callback s sm.range).foldl (fun s p => (callback s p).2) s ∧
        visited callback s sm.range <+: sm.range ∧
        ((∀ s p, (callback s p).1 = true) → visited callback s sm.range = sm.range)) ∧
    (∀ id mask, ((sm.rangeShard id mask).map Prod.fst).Nodup ∧ ∀ k v, (k, v) ∈ sm.rangeShard id mask ↔
      m k = some v ∧ shardID (shardIndex (h k)) = id ∧
        mask &&& ((1 : UInt64) <<< UInt64.ofNat (subIndex (h k)).val) ≠ 0) ∧
    (∀ op : Op, op.hash = h op.key → ∀ k, k ≠ op.key → (sm.apply op).load k (h k) = sm.load k (h k)) := by
  intro sm m
  have inv : sm.Inv h := inv_run consistent
  have holds : sm.cell h = m := cell_run consistent
  refine ⟨fun k => ?_, fun k => loadData_eq sm k (h k), fun k val => ?_, ⟨inv.nodup_range, fun k v => ?_⟩,
    fun σ callback s => ⟨rangeWith_eq sm callback s, visited_prefix s _, fun goesOn => visited_eq goesOn s _⟩,
    fun id mask => ⟨inv.nodup_rangeShard id mask, fun k v => ?_⟩, fun op same k other => ?_⟩
  · rw [inv.load_eq, holds]
  · rw [inv.snd_storeLWW, holds]
  · rw [inv.mem_range, holds]
  · rw [inv.mem_rangeShard_iff, holds]
  · rw [(inv.apply same).load_eq, inv.load_eq, inv.cell_apply same, Op.onPlain_of_ne _ other]

end ShardedMap

end Writes

open Reference

/-- Two keys of one shard and sub-bucket, a write that is too old, and a deletion. -/
def sameHashWrites : List Op :=
  [.store [1] 5 ⟨[97], [10], 7, false, 0⟩, .storeLWW [2] 5 ⟨[97], [20], 3, false, 0⟩,
    .storeLWW [1] 5 ⟨[98], [11], 6, false, 0⟩, .delete [2] 5]

theorem refines_plain_map_sameHash :
    (ShardedMap.run sameHashWrites).load [1] 5 = some ⟨[97], [10], 7, false, 0⟩ ∧
      (ShardedMap.run sameHashWrites).load [2] 5 = none := by
  have refines := ShardedMap.refines_plain_map (h := fun _ => 5) sameHashWrites (by decide)
  exact ⟨(refines.1 [1]).trans (by decide +kernel), (refines.1 [2]).trans (by decide +kernel)⟩

end Oryx.Hashmap
