import Oryx.Library.Assign
import Oryx.Hashmap.Digests

/-!
# What the root digest can tell apart

The root digest is the exclusive-or of all item hashes and of the mixed shard
counts. Two states over one key set have the same counts and the same key hashes,
so the difference of their root digests is the exclusive-or of the timestamp, node,
data and tombstone parts of all their records. Parts that occur an even number of
times cancel whatever the hash functions are.
-/

namespace Oryx.Hashmap
set_option autoImplicit false
open Oryx.Library

/-! ## The item hash -/

theorem toBitVec_rotateLeft64 (x : UInt64) :
    (rotateLeft64 x 17).toBitVec = x.toBitVec <<< 17 ||| x.toBitVec >>> 47 := rfl

/-- The bits of a rotated word. -/
theorem getLsbD_rotateLeft64 (x : UInt64) {i : Nat} (bound : i < 64) :
    (rotateLeft64 x 17).toBitVec.getLsbD i = x.toBitVec.getLsbD (if i < 17 then i + 47 else i - 17) := by
  rw [toBitVec_rotateLeft64, BitVec.getLsbD_or, BitVec.getLsbD_shiftLeft, BitVec.getLsbD_ushiftRight]
  by_cases low : i < 17
  · simp [low, Nat.add_comm]
  · have high : x.toBitVec.getLsbD (47 + i) = false := BitVec.getLsbD_of_ge _ _ (by omega)
    simp [low, high, bound]

theorem rotateLeft64_xor (x y : UInt64) :
    rotateLeft64 (x ^^^ y) 17 = rotateLeft64 x 17 ^^^ rotateLeft64 y 17 := by
  rw [← UInt64.toBitVec_inj, UInt64.toBitVec_xor]
  refine BitVec.eq_of_getLsbD_eq fun i bound => ?_
  rw [BitVec.getLsbD_xor, getLsbD_rotateLeft64 _ bound, getLsbD_rotateLeft64 _ bound, getLsbD_rotateLeft64 _ bound,
    UInt64.toBitVec_xor, BitVec.getLsbD_xor]

theorem rotateLeft64_eq_zero {x : UInt64} : rotateLeft64 x 17 = 0 ↔ x = 0 := by
  constructor
  · intro zero
    rw [← UInt64.toBitVec_inj]
    refine BitVec.eq_of_getLsbD_eq fun i bound => ?_
    have bits (j : Nat) (small : j < 64) : x.toBitVec.getLsbD (if j < 17 then j + 47 else j - 17) = false := by
      rw [← getLsbD_rotateLeft64 x small, zero]
      exact BitVec.getLsbD_zero
    by_cases high : i < 47
    · simpa using bits (i + 17) (by omega)
    · have bit := bits (i - 47) (by omega)
      rw [if_pos (by omega), Nat.sub_add_cancel (by omega)] at bit
      rw [bit]
      exact BitVec.getLsbD_zero.symm
  · rintro rfl
    decide

theorem xorSum_rotateLeft64 {ι : Type} (l : List ι) (f : ι → UInt64) :
    xorSum (l.map fun i => rotateLeft64 (f i) 17) = rotateLeft64 (xorSum (l.map f)) 17 := by
  induction l with
  | nil => exact (by decide : (0 : UInt64) = rotateLeft64 0 17)
  | cons i rest ih => rw [List.map_cons, List.map_cons, xorSum_cons, xorSum_cons, rotateLeft64_xor, ih]

section Parts

variable [Security]

/-- What the node id adds to an item hash. -/
def nodePart (node : NodeID) : UInt64 := if node ≠ [] then rotateLeft64 (hashFunc node) 31 else 0

/-- What the data add to an item hash. -/
def dataPart (data : Bytes) : UInt64 := if data.length > 0 then rotateLeft64 (hashBytes data) 47 else 0

/-- What the tombstone mark adds to an item hash. -/
def tombstonePart (tombstone : Bool) : UInt64 := if tombstone = true then 0x5555555555555555 else 0

theorem getItemHash_eq (hash : HashKey) (v : Value) :
    getItemHash hash v = hash ^^^ rotateLeft64 v.timestamp.toUInt64 17 ^^^ nodePart v.nodeID ^^^ dataPart v.data ^^^
      tombstonePart v.tombstone := by
  simp only [getItemHash, nodePart, dataPart, tombstonePart]
  split <;> split <;> split <;> simp only [UInt64.xor_zero]

/-- The key's hash is one summand of the item hash. -/
theorem getItemHash_key (hash : HashKey) (v : Value) : getItemHash hash v = hash ^^^ getItemHash 0 v := by
  rw [getItemHash_eq, getItemHash_eq 0, UInt64.zero_xor]
  simp only [UInt64.xor_assoc]

/-- The item hashes of a list of records, without their keys' hashes, add up part by part. -/
theorem xorSum_itemHash (vs : List Value) :
    xorSum (vs.map fun v => getItemHash 0 v) =
      rotateLeft64 (xorSum (vs.map fun v => v.timestamp.toUInt64)) 17 ^^^
        xorSum ((vs.map Value.nodeID).map nodePart) ^^^ xorSum ((vs.map Value.data).map dataPart) ^^^
          xorSum ((vs.map Value.tombstone).map tombstonePart) := by
  rw [xorSum_congr fun v _ => getItemHash_eq 0 v, xorSum_map_xor, xorSum_map_xor, xorSum_map_xor,
    xorSum_congr fun v _ => UInt64.zero_xor, xorSum_rotateLeft64, List.map_map, List.map_map, List.map_map]
  rfl

end Parts

/-! ## Cancellation over all hash functions -/

/-- Records whose parts cancel: every non-empty node id and every non-empty datum
occurs an even number of times, and the timestamps add up to nothing (to the word
that the rotation turns into the tombstone mark, if the tombstones are odd in number). -/
structure Cancels (vs : List Value) : Prop where
  nodes : ∀ node ∈ vs.map Value.nodeID, node ≠ [] → Even ((vs.map Value.nodeID).count node)
  data : ∀ data ∈ vs.map Value.data, data ≠ [] → Even ((vs.map Value.data).count data)
  timestamps : xorSum (vs.map fun v => v.timestamp.toUInt64) =
    if Even ((vs.map Value.tombstone).count true) then 0 else 0xaaaaaaaaaaaaaaaa

/-- Hash functions that are zero except on one string and on one byte slice. -/
@[reducible] def spike (node data : Bytes) : Security where
  hashFunc x := if x = node ∧ x ≠ [] then 1 else 0
  hashBytes x := if x = data ∧ x ≠ [] then 1 else 0
  hashFuncSecure _ := 0

theorem nodePart_spike (node data x : Bytes) :
    @nodePart (spike node data) x = if x = node then (if node = [] then 0 else rotateLeft64 1 31) else 0 := by
  have zero : rotateLeft64 0 31 = 0 := by decide
  show (if x ≠ [] then rotateLeft64 (if x = node ∧ x ≠ [] then 1 else 0) 31 else 0) = _
  by_cases same : x = node
  · subst same
    by_cases empty : x = [] <;> simp [empty]
  · simp [same, zero]

theorem dataPart_spike (node data x : Bytes) :
    @dataPart (spike node data) x = if x = data then (if data = [] then 0 else rotateLeft64 1 47) else 0 := by
  have zero : rotateLeft64 0 47 = 0 := by decide
  show (if x.length > 0 then rotateLeft64 (if x = data ∧ x ≠ [] then 1 else 0) 47 else 0) = _
  by_cases same : x = data
  · subst same
    by_cases empty : x = [] <;> simp [empty, List.length_pos_iff]
  · simp [same, zero]

theorem xorSum_tombstonePart (marks : List Bool) :
    xorSum (marks.map tombstonePart) = if Even (marks.count true) then 0 else 0x5555555555555555 :=
  xorSum_map_indicator marks true 0x5555555555555555

/-- Under a spike only its two strings count. -/
theorem xorSum_itemHash_spike (vs : List Value) (node data : Bytes) :
    xorSum (vs.map fun v => @getItemHash (spike node data) 0 v) =
      rotateLeft64 (xorSum (vs.map fun v => v.timestamp.toUInt64)) 17 ^^^
        (if Even ((vs.map Value.nodeID).count node) then 0 else if node = [] then 0 else rotateLeft64 1 31) ^^^
          (if Even ((vs.map Value.data).count data) then 0 else if data = [] then 0 else rotateLeft64 1 47) ^^^
            xorSum ((vs.map Value.tombstone).map tombstonePart) := by
  rw [@xorSum_itemHash (spike node data), xorSum_congr fun x _ => nodePart_spike node data x, xorSum_map_indicator,
    xorSum_congr fun x _ => dataPart_spike node data x, xorSum_map_indicator]

/-- The timestamps and tombstones of the records cancel. -/
theorem timestamps_cancel_iff (vs : List Value) :
    (rotateLeft64 (xorSum (vs.map fun v => v.timestamp.toUInt64)) 17 ^^^
      xorSum ((vs.map Value.tombstone).map tombstonePart) = 0) ↔
      xorSum (vs.map fun v => v.timestamp.toUInt64) =
        if Even ((vs.map Value.tombstone).count true) then 0 else 0xaaaaaaaaaaaaaaaa := by
  have mark : (0x5555555555555555 : UInt64) = rotateLeft64 0xaaaaaaaaaaaaaaaa 17 := by decide
  rw [xorSum_tombstonePart]
  split
  · rw [UInt64.xor_zero, rotateLeft64_eq_zero]
  · rw [mark, ← rotateLeft64_xor, rotateLeft64_eq_zero, UInt64.xor_eq_zero_iff]

/-- **Cancellation**: some hash functions keep the parts of the records from
cancelling exactly when they do not cancel by themselves. -/
theorem exists_xorSum_ne_zero_iff (vs : List Value) :
    (∃ security : Security, xorSum (vs.map fun v => @getItemHash security 0 v) ≠ 0) ↔ ¬Cancels vs := by
  constructor
  · rintro ⟨security, nonzero⟩ cancels
    refine nonzero ?_
    have nodes : xorSum ((vs.map Value.nodeID).map nodePart) = 0 := by
      refine xorSum_map_of_even fun node member part => cancels.nodes node member fun empty => part ?_
      simp [nodePart, empty]
    have data : xorSum ((vs.map Value.data).map dataPart) = 0 := by
      refine xorSum_map_of_even fun data member part => cancels.data data member fun empty => part ?_
      simp [dataPart, empty]
    rw [xorSum_itemHash, nodes, data, UInt64.xor_zero, UInt64.xor_zero]
    exact (timestamps_cancel_iff vs).mpr cancels.timestamps
  · intro live
    by_contra all
    have cancel (node data : Bytes) : xorSum (vs.map fun v => @getItemHash (spike node data) 0 v) = 0 := by
      by_contra nonzero
      exact all ⟨spike node data, nonzero⟩
    have base := cancel [] []
    rw [xorSum_itemHash_spike, if_pos rfl, if_pos rfl, ite_self, ite_self, UInt64.xor_zero, UInt64.xor_zero] at base
    refine live ⟨fun node member nonempty => ?_, fun data member nonempty => ?_, (timestamps_cancel_iff vs).mp base⟩
    · by_contra odd
      have spiked := cancel node []
      rw [xorSum_itemHash_spike, if_neg odd, if_neg nonempty,
        if_pos rfl, ite_self, UInt64.xor_zero, UInt64.xor_assoc, UInt64.xor_comm (rotateLeft64 1 31),
        ← UInt64.xor_assoc, base] at spiked
      exact absurd spiked (by decide)
    · by_contra odd
      have spiked := cancel [] data
      rw [xorSum_itemHash_spike, if_neg odd, if_neg nonempty,
        if_pos rfl, ite_self, UInt64.xor_zero, UInt64.xor_assoc, UInt64.xor_comm (rotateLeft64 1 47),
        ← UInt64.xor_assoc, base] at spiked
      exact absurd spiked (by decide)

/-! ## Root digests over one key set -/

namespace ShardedMap

variable [Security] {h : Key → HashKey} {sm sm' : ShardedMap}

theorem Inv.mem_shardPairs (inv : sm.Inv h) {i : Fin shardCount} {k : Key} {v : Value} :
    (k, v) ∈ sm.shardPairs i ↔ sm.cell h k = some v ∧ shardIndex (h k) = i := by
  simp only [shardPairs, bucketPairs, List.mem_flatMap, List.mem_finRange, true_and, inv.mem_entriesOf]
  constructor
  · rintro ⟨_, held, place, _⟩
    exact ⟨held, place⟩
  · rintro ⟨held, place⟩
    exact ⟨_, held, place, rfl⟩

theorem Inv.nodup_shardPairs (inv : sm.Inv h) (i : Fin shardCount) : ((sm.shardPairs i).map Prod.fst).Nodup := by
  have whole := inv.nodup_range
  rw [range, List.map_flatMap] at whole
  exact (List.nodup_flatMap.mp whole).1 i (List.mem_finRange i)

/-- Maps over one key set put the same keys into every shard. -/
theorem Inv.keys_perm (inv : sm.Inv h) (inv' : sm'.Inv h)
    (keys : ∀ k, (sm.cell h k).isSome = (sm'.cell h k).isSome) (i : Fin shardCount) :
    ((sm.shardPairs i).map Prod.fst).Perm ((sm'.shardPairs i).map Prod.fst) := by
  have member {t : ShardedMap} (inv : t.Inv h) (k : Key) :
      k ∈ (t.shardPairs i).map Prod.fst ↔ (t.cell h k).isSome = true ∧ shardIndex (h k) = i := by
    rw [List.mem_map, Option.isSome_iff_exists]
    constructor
    · rintro ⟨⟨k, v⟩, pair, rfl⟩
      obtain ⟨held, place⟩ := inv.mem_shardPairs.mp pair
      exact ⟨⟨v, held⟩, place⟩
    · rintro ⟨⟨v, held⟩, place⟩
      exact ⟨(k, v), inv.mem_shardPairs.mpr ⟨held, place⟩, rfl⟩
  rw [List.perm_ext_iff_of_nodup (inv.nodup_shardPairs i) (inv'.nodup_shardPairs i)]
  intro k
  rw [member inv, member inv', keys]

/-- The root digest in terms of the stored pairs. -/
theorem Inv.rootDigest_eq (inv : sm.Inv h) :
    sm.rootDigest = xorSum ((List.finRange shardCount).map fun i =>
      xorSum ((sm.shardPairs i).map fun p => h p.1) ^^^ mixCount (UInt32.ofNat (sm.shardPairs i).length)) ^^^
        xorSum (sm.range.map fun p => getItemHash 0 p.2) := by
  have shard (i : Fin shardCount) : sm.digestOf i =
      (xorSum ((sm.shardPairs i).map fun p => h p.1) ^^^ mixCount (UInt32.ofNat (sm.shardPairs i).length)) ^^^
        xorSum ((sm.shardPairs i).map fun p => getItemHash 0 p.2) := by
    have parts : ∀ p ∈ sm.shardPairs i, p.2.itemHash = h p.1 ^^^ getItemHash 0 p.2 := fun p member => by
      rw [← getItemHash_key]
      exact inv.itemHash (inv.mem_shardPairs.mp member).1
    rw [digestOf, inv.shardDigest_eq, (inv.agrees i).shardCount, ← inv.length_shardPairs, xorSum_congr parts,
      xorSum_map_xor, UInt64.xor_assoc, UInt64.xor_assoc, UInt64.xor_comm (mixCount _)]
  have whole : sm.range = (List.finRange shardCount).flatMap sm.shardPairs := rfl
  rw [rootDigest, foldl_xor, zero_xor, xorSum_congr fun i _ => shard i, xorSum_map_xor, whole, List.map_flatMap,
    xorSum_flatMap]

/-- **The difference of two root digests** over one key set: the counts and the key
hashes drop out. -/
theorem Inv.xor_rootDigest (inv : sm.Inv h) (inv' : sm'.Inv h)
    (keys : ∀ k, (sm.cell h k).isSome = (sm'.cell h k).isSome) :
    sm.rootDigest ^^^ sm'.rootDigest = xorSum (((sm.range ++ sm'.range).map Prod.snd).map fun v => getItemHash 0 v) := by
  have same (i : Fin shardCount) :
      xorSum ((sm.shardPairs i).map fun p => h p.1) ^^^ mixCount (UInt32.ofNat (sm.shardPairs i).length) =
        xorSum ((sm'.shardPairs i).map fun p => h p.1) ^^^ mixCount (UInt32.ofNat (sm'.shardPairs i).length) := by
    have perm := inv.keys_perm inv' keys i
    have length := perm.length_eq
    have hashes := xorSum_perm (perm.map h)
    rw [List.length_map, List.length_map] at length
    rw [List.map_map, List.map_map] at hashes
    rw [length]
    exact congrArg (· ^^^ _) hashes
  rw [inv.rootDigest_eq, inv'.rootDigest_eq, xorSum_congr fun i _ => same i, List.map_map, List.map_append,
    xorSum_append, UInt64.xor_comm _ (xorSum (sm.range.map _)), UInt64.xor_assoc, xor_cancel_left]
  rfl

end ShardedMap

/-! ## States and choices of hash functions -/

section States

variable [Security]

/-- The map after `StoreLWW` calls on a new one, each key passed with its hash. -/
def lwwRun (writes : List (Key × Value)) : ShardedMap :=
  writes.foldl (fun sm p => (sm.storeLWW p.1 (hashFunc p.1) p.2).1) newShardedMap

/-- What a map holds under every key: timestamp, node id, data and tombstone mark. -/
def contents (sm : ShardedMap) (k : Key) : Option Value := sm.load k (hashFunc k)

theorem lwwRun_spec (writes : List (Key × Value)) :
    (lwwRun writes).Inv hashFunc ∧ (lwwRun writes).cell hashFunc =
      writes.foldl (fun (cells : Key → Option Value) p => Function.update cells p.1
        (LastWriter.adopt rank (cells p.1) (withItemHash (hashFunc p.1) p.2))) (newShardedMap.cell hashFunc) :=
  ShardedMap.foldl_writes Prod.fst (fun p old => LastWriter.adopt rank old (withItemHash (hashFunc p.1) p.2))
    (fun _ p inv => ⟨inv.storeLWW p.1 p.2, inv.cell_storeLWW p.1 p.2⟩) (ShardedMap.inv_new hashFunc) writes

/-- Writes under distinct keys are all stored. -/
theorem contents_lwwRun_of_nodup {writes : List (Key × Value)} (distinct : (writes.map Prod.fst).Nodup) {k : Key}
    {v : Value} : contents (lwwRun writes) k = some v ↔ ∃ w, (k, w) ∈ writes ∧ w.blank = v := by
  obtain ⟨inv, cells⟩ := lwwRun_spec writes
  rw [contents, inv.load_eq, cells]
  by_cases found : ∃ w, (k, w) ∈ writes
  · obtain ⟨w, member⟩ := found
    have stored := foldl_update_of_mem (fun (p : Key × Value) old =>
      LastWriter.adopt rank old (withItemHash (hashFunc p.1) p.2)) distinct member (newShardedMap.cell hashFunc)
    rw [ShardedMap.cell_new] at stored
    rw [stored]
    constructor
    · intro held
      exact ⟨w, member, Option.some.inj held⟩
    · rintro ⟨w', member', rfl⟩
      have only : (k, w') = (k, w) := List.inj_on_of_nodup_map distinct member' member rfl
      obtain rfl := (Prod.mk.inj only).2
      rfl
  · have absent : ∀ p ∈ writes, p.1 ≠ k := by
      rintro ⟨k', w⟩ member rfl
      exact found ⟨w, member⟩
    rw [foldl_update_of_ne (fun (p : Key × Value) old =>
      LastWriter.adopt rank old (withItemHash (hashFunc p.1) p.2)) absent, ShardedMap.cell_new]
    constructor
    · intro held
      cases held
    · rintro ⟨w, member, -⟩
      exact absurd ⟨w, member⟩ found

/-- The entries list the state `c`, every key once. -/
structure Lists (c : Key → Option Value) (entries : List (Key × Value)) : Prop where
  distinct : (entries.map Prod.fst).Nodup
  member : ∀ k v, (k, v) ∈ entries ↔ c k = some v
  blank : ∀ k v, c k = some v → v.blank = v

/-- The records of a map, keys included, without their item hashes. -/
def records (sm : ShardedMap) : List (Key × Value) := sm.range.map fun p => (p.1, p.2.blank)

theorem lists_records {sm : ShardedMap} (inv : sm.Inv hashFunc) : Lists (contents sm) (records sm) where
  distinct := by
    rw [records, List.map_map]
    exact inv.nodup_range
  member k v := by
    simp only [records, List.mem_map, Prod.exists, inv.mem_range, Prod.mk.injEq, contents, inv.load_eq,
      Option.map_eq_some_iff]
    constructor
    · rintro ⟨k', w, held, rfl, rfl⟩
      exact ⟨w, held, rfl⟩
    · rintro ⟨w, held, rfl⟩
      exact ⟨k, w, held, rfl, rfl⟩
  blank k v held := by
    rw [contents, inv.load_eq, Option.map_eq_some_iff] at held
    obtain ⟨w, -, rfl⟩ := held
    rfl

/-- Every listed state can be written. -/
theorem Lists.contents_lwwRun {c : Key → Option Value} {entries : List (Key × Value)} (lists : Lists c entries) :
    contents (lwwRun entries) = c := by
  funext k
  refine Option.ext fun v => ?_
  rw [contents_lwwRun_of_nodup lists.distinct]
  constructor
  · rintro ⟨w, member, rfl⟩
    have held := (lists.member k w).mp member
    rwa [lists.blank k w held]
  · intro held
    exact ⟨v, (lists.member k v).mpr held, lists.blank k v held⟩

omit [Security] in
theorem Lists.perm {c : Key → Option Value} {entries entries' : List (Key × Value)} (lists : Lists c entries)
    (lists' : Lists c entries') : entries.Perm entries' := by
  rw [List.perm_ext_iff_of_nodup lists.distinct.of_map lists'.distinct.of_map]
  rintro ⟨k, v⟩
  rw [lists.member, lists'.member]

omit [Security] in
theorem Lists.isSome_iff {c : Key → Option Value} {entries : List (Key × Value)} (lists : Lists c entries) (k : Key) :
    (c k).isSome = true ↔ k ∈ entries.map Prod.fst := by
  rw [Option.isSome_iff_exists, List.mem_map]
  constructor
  · rintro ⟨v, held⟩
    exact ⟨(k, v), (lists.member k v).mpr held, rfl⟩
  · rintro ⟨⟨k, v⟩, member, rfl⟩
    exact ⟨v, (lists.member k v).mp member⟩

/-- Writes under distinct keys list the state they lead to. -/
theorem lists_lwwRun {writes : List (Key × Value)} (distinct : (writes.map Prod.fst).Nodup)
    (blank : ∀ p ∈ writes, p.2.blank = p.2) : Lists (contents (lwwRun writes)) writes where
  distinct := distinct
  member k v := by
    rw [contents_lwwRun_of_nodup distinct]
    constructor
    · exact fun member => ⟨v, member, blank (k, v) member⟩
    · rintro ⟨w, member, rfl⟩
      rwa [blank (k, w) member]
  blank k v held := by
    obtain ⟨w, member, rfl⟩ := (contents_lwwRun_of_nodup distinct).mp held
    rfl

/-- `StoreLWW` runs end with these contents and with different root digests. -/
def Separates (c c' : Key → Option Value) : Prop :=
  ∃ writes writes' : List (Key × Value), contents (lwwRun writes) = c ∧ contents (lwwRun writes') = c' ∧
    (lwwRun writes).rootDigest ≠ (lwwRun writes').rootDigest

/-- The difference of the root digests of two runs, from the states they end with. -/
theorem xor_rootDigest_lwwRun {writes writes' entries entries' : List (Key × Value)}
    (lists : Lists (contents (lwwRun writes)) entries) (lists' : Lists (contents (lwwRun writes')) entries')
    (keys : ∀ k, (contents (lwwRun writes) k).isSome = (contents (lwwRun writes') k).isSome) :
    (lwwRun writes).rootDigest ^^^ (lwwRun writes').rootDigest =
      xorSum (((entries ++ entries').map Prod.snd).map fun v => getItemHash 0 v) := by
  have inv := (lwwRun_spec writes).1
  have inv' := (lwwRun_spec writes').1
  have shared (k : Key) : ((lwwRun writes).cell hashFunc k).isSome = ((lwwRun writes').cell hashFunc k).isSome := by
    have same := keys k
    rwa [contents, contents, inv.load_eq, inv'.load_eq, Option.isSome_map, Option.isSome_map] at same
  have perm := ((lists_records inv).perm lists).append ((lists_records inv').perm lists')
  rw [inv.xor_rootDigest inv' shared, ← xorSum_perm ((perm.map Prod.snd).map _), records, records, ← List.map_append,
    List.map_map, List.map_map, List.map_map]
  rfl

theorem separates_iff {c c' : Key → Option Value} {entries entries' : List (Key × Value)} (lists : Lists c entries)
    (lists' : Lists c' entries') (keys : ∀ k, (c k).isSome = (c' k).isSome) :
    Separates c c' ↔ xorSum (((entries ++ entries').map Prod.snd).map fun v => getItemHash 0 v) ≠ 0 := by
  constructor
  · rintro ⟨writes, writes', rfl, rfl, differ⟩ zero
    rw [← xor_rootDigest_lwwRun lists lists' keys, UInt64.xor_eq_zero_iff] at zero
    exact differ zero
  · intro nonzero
    have first := lists.contents_lwwRun
    have second := lists'.contents_lwwRun
    refine ⟨entries, entries', first, second, fun same => nonzero ?_⟩
    rw [← xor_rootDigest_lwwRun (first ▸ lists) (second ▸ lists') (first ▸ second ▸ keys), same, UInt64.xor_self]

/-- Some choice of the hash functions separates the states. -/
def Separable (c c' : Key → Option Value) : Prop := ∃ security : Security, @Separates security c c'

omit [Security] in
theorem separable_of_lists {c c' : Key → Option Value} {entries entries' : List (Key × Value)}
    (lists : Lists c entries) (lists' : Lists c' entries') (keys : ∀ k, (c k).isSome = (c' k).isSome) :
    Separable c c' ↔ ¬Cancels ((entries ++ entries').map Prod.snd) := by
  rw [← exists_xorSum_ne_zero_iff]
  exact exists_congr fun security => @separates_iff security _ _ _ _ lists lists' keys

/-- **What the root digest can tell apart**: of two states over one key set that
`StoreLWW` runs reach, some choice of the hash functions gives different root digests
exactly when the parts of their records, taken together, do not cancel. -/
theorem separable_iff (writes writes' : List (Key × Value))
    (keys : ∀ k, (contents (lwwRun writes) k).isSome = (contents (lwwRun writes') k).isSome) :
    Separable (contents (lwwRun writes)) (contents (lwwRun writes')) ↔
      ¬Cancels ((records (lwwRun writes) ++ records (lwwRun writes')).map Prod.snd) :=
  separable_of_lists (lists_records (lwwRun_spec writes).1) (lists_records (lwwRun_spec writes').1) keys

end States

open Reference

/-- One key with two timestamps. -/
theorem separable_iff_timestamp :
    Separable (contents (lwwRun [([97], ⟨[110], [1], 5, false, 0⟩)]))
      (contents (lwwRun [([97], ⟨[110], [1], 6, false, 0⟩)])) := by
  have lists (t : Int64) : Lists (contents (lwwRun [([97], ⟨[110], [1], t, false, 0⟩)]))
      [([97], ⟨[110], [1], t, false, 0⟩)] := lists_lwwRun (List.nodup_singleton _) (by simp [Value.blank])
  have listed (t : Int64) : records (lwwRun [([97], ⟨[110], [1], t, false, 0⟩)]) = [([97], ⟨[110], [1], t, false, 0⟩)] :=
    List.perm_singleton.mp ((lists_records (lwwRun_spec _).1).perm (lists t))
  refine (separable_iff _ _ fun k => ?_).mpr ?_
  · rw [Bool.eq_iff_iff, (lists 5).isSome_iff, (lists 6).isSome_iff]
    rfl
  · rw [listed, listed]
    exact fun cancels => absurd cancels.timestamps (by decide)

/-- **A blind spot**: two keys that exchange their timestamps. The states differ, and
their root digests are equal whatever the hash functions are. -/
theorem swapped_timestamps_inseparable :
    let before : List (Key × Value) := [([97], ⟨[110], [1], 5, false, 0⟩), ([98], ⟨[110], [2], 6, false, 0⟩)]
    let after : List (Key × Value) := [([97], ⟨[110], [1], 6, false, 0⟩), ([98], ⟨[110], [2], 5, false, 0⟩)]
    (∀ k, (contents (lwwRun before) k).isSome = (contents (lwwRun after) k).isSome) ∧
      contents (lwwRun before) [97] ≠ contents (lwwRun after) [97] ∧
      ¬Separable (contents (lwwRun before)) (contents (lwwRun after)) := by
  intro before after
  have lists : Lists (contents (lwwRun before)) before := lists_lwwRun (by decide) (by decide)
  have lists' : Lists (contents (lwwRun after)) after := lists_lwwRun (by decide) (by decide)
  have keys (k : Key) : (contents (lwwRun before) k).isSome = (contents (lwwRun after) k).isSome := by
    rw [Bool.eq_iff_iff, lists.isSome_iff, lists'.isSome_iff]
    rfl
  refine ⟨keys, fun same => ?_, ?_⟩
  · rw [(lists.member [97] ⟨[110], [1], 5, false, 0⟩).mp (by decide),
      (lists'.member [97] ⟨[110], [1], 6, false, 0⟩).mp (by decide)] at same
    exact absurd same (by decide)
  · rw [separable_of_lists lists lists' keys, not_not]
    exact ⟨by decide, by decide, by decide⟩

end Oryx.Hashmap
