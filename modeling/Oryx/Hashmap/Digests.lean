import Oryx.Security.Reference
import Oryx.Hashmap.Refinement

/-!
# Digests over whole runs

Any sequence of `Store`, `StoreLWW` and `Delete` calls from an empty map, each key
always passed with the same hash, keeps the rolling state of every shard equal to
what its contents determine. The digests a replica publishes are therefore a
function of its key-to-value contents alone, whatever run led to them.
-/

namespace Oryx.Hashmap
set_option autoImplicit false
open Oryx.Library

/-- One mutating call. The caller passes the hash of the key. -/
inductive Op where
  | store (key : Key) (hash : HashKey) (val : Value)
  | storeLWW (key : Key) (hash : HashKey) (val : Value)
  | delete (key : Key) (hash : HashKey)

def Op.key : Op → Key
  | .store key _ _ => key
  | .storeLWW key _ _ => key
  | .delete key _ => key

def Op.hash : Op → HashKey
  | .store _ hash _ => hash
  | .storeLWW _ hash _ => hash
  | .delete _ hash => hash

namespace ShardedMap

variable [Security] {h : Key → HashKey} {sm sm' : ShardedMap}

def apply (sm : ShardedMap) : Op → ShardedMap
  | .store key hash val => sm.store key hash val
  | .storeLWW key hash val => (sm.storeLWW key hash val).1
  | .delete key hash => sm.delete key hash

/-- The map after a sequence of calls on a new one. -/
def run (ops : List Op) : ShardedMap := ops.foldl apply newShardedMap

theorem Inv.apply (inv : sm.Inv h) {op : Op} (consistent : op.hash = h op.key) : (sm.apply op).Inv h := by
  cases op with
  | store key hash val =>
    obtain rfl : hash = h key := consistent
    exact inv.store key val
  | storeLWW key hash val =>
    obtain rfl : hash = h key := consistent
    exact inv.storeLWW key val
  | delete key hash =>
    obtain rfl : hash = h key := consistent
    exact inv.delete key

theorem Inv.foldl {ops : List Op} (consistent : ∀ op ∈ ops, op.hash = h op.key) (inv : sm.Inv h) :
    (ops.foldl ShardedMap.apply sm).Inv h := by
  induction ops generalizing sm with
  | nil => exact inv
  | cons op rest ih =>
    exact ih (fun o ho => consistent o (List.mem_cons_of_mem op ho))
      (inv.apply (consistent op List.mem_cons_self))

theorem inv_run {ops : List Op} (consistent : ∀ op ∈ ops, op.hash = h op.key) : (run ops).Inv h :=
  Inv.foldl consistent (inv_new h)

/-! ## The rolling state in terms of the stored pairs -/

/-- The pairs stored in one sub-bucket. -/
def bucketPairs (sm : ShardedMap) (i : Fin shardCount) (b : Fin subBucketCount) : List (Key × Value) :=
  sm.entriesOf ((sm.shards i).buckets b)

/-- The pairs stored in one shard. -/
def shardPairs (sm : ShardedMap) (i : Fin shardCount) : List (Key × Value) :=
  (List.finRange subBucketCount).flatMap fun b => sm.bucketPairs i b

omit [Security] in
theorem entriesOf_hashes {tree : RadixTree} (bound : ∀ r ∈ refs tree, r < sm.wrappers.length) :
    (sm.entriesOf tree).map (fun p => p.2.itemHash) = (refs tree).map (cellHash sm.wrappers) := by
  simp only [refs, entriesOf] at bound ⊢
  generalize tree.toList = l at bound
  induction l with
  | nil => rfl
  | cons p rest ih =>
    obtain ⟨here, later⟩ := List.forall_mem_cons.mp bound
    simp [List.getElem?_eq_getElem here, cellHash, ih later]

theorem Inv.length_bucketPairs (inv : sm.Inv h) (i : Fin shardCount) (b : Fin subBucketCount) :
    (sm.bucketPairs i b).length = ((sm.shards i).buckets b).size := by
  have bound : ∀ r ∈ refs ((sm.shards i).buckets b), r < sm.wrappers.length := fun r => inv.refs_bound
  have hashes := congrArg List.length (entriesOf_hashes bound)
  simpa [refs, bucketPairs] using hashes

theorem Inv.subDigest_eq (inv : sm.Inv h) (i : Fin shardCount) (b : Fin subBucketCount) :
    (sm.shards i).subDigests b = xorSum ((sm.bucketPairs i b).map fun p => p.2.itemHash) := by
  rw [(inv.agrees i).subDigest b, bucketPairs, entriesOf_hashes fun r => inv.refs_bound]

theorem Inv.shardDigest_eq (inv : sm.Inv h) (i : Fin shardCount) :
    (sm.shards i).shardDigest = xorSum ((sm.shardPairs i).map fun p => p.2.itemHash) := by
  rw [(inv.agrees i).shardDigest, shardPairs, List.map_flatMap, xorSum_flatMap]
  exact xorSum_congr fun b _ => inv.subDigest_eq i b

theorem Inv.length_shardPairs (inv : sm.Inv h) (i : Fin shardCount) :
    (sm.shardPairs i).length = ∑ b, ((sm.shards i).buckets b).size := by
  rw [shardPairs, List.length_flatMap, Fin.sum_univ_def]
  simp only [inv.length_bucketPairs]

/-- The keys stored in one sub-bucket with their item hashes. -/
def bucketHashes (sm : ShardedMap) (i : Fin shardCount) (b : Fin subBucketCount) : List (Key × Digest) :=
  (sm.bucketPairs i b).map fun p => (p.1, p.2.itemHash)

/-- Two maps whose records have the same item hashes store the same hashes in every sub-bucket. -/
theorem Inv.bucketHashes_perm (inv : sm.Inv h) (inv' : sm'.Inv h)
    (same : ∀ k, (sm.cell h k).map Value.itemHash = (sm'.cell h k).map Value.itemHash)
    (i : Fin shardCount) (b : Fin subBucketCount) : (sm.bucketHashes i b).Perm (sm'.bucketHashes i b) := by
  have nodup : ∀ s : ShardedMap, (s.bucketHashes i b).Nodup := fun s => by
    refine List.Nodup.of_map Prod.fst ?_
    rw [bucketHashes, List.map_map]
    exact nodup_entriesOf s ((s.shards i).buckets b)
  have member : ∀ {s : ShardedMap}, s.Inv h → ∀ k x, (k, x) ∈ s.bucketHashes i b ↔
      (s.cell h k).map Value.itemHash = some x ∧ shardIndex (h k) = i ∧ subIndex (h k) = b := by
    intro s inv k x
    simp only [bucketHashes, bucketPairs, List.mem_map, Prod.exists, inv.mem_entriesOf, Prod.mk.injEq,
      Option.map_eq_some_iff]
    constructor
    · rintro ⟨k', v, ⟨held, place⟩, rfl, rfl⟩
      exact ⟨⟨v, held, rfl⟩, place⟩
    · rintro ⟨⟨v, held, rfl⟩, place⟩
      exact ⟨k, v, ⟨held, place⟩, rfl, rfl⟩
  rw [List.perm_ext_iff_of_nodup (nodup sm) (nodup sm')]
  rintro ⟨k, x⟩
  rw [member inv, member inv', same]

theorem Inv.subDigestOf_eq (inv : sm.Inv h) (inv' : sm'.Inv h)
    (same : ∀ k, (sm.cell h k).map Value.itemHash = (sm'.cell h k).map Value.itemHash)
    (i : Fin shardCount) (b : Fin subBucketCount) : sm.subDigestOf i b = sm'.subDigestOf i b := by
  have perm := inv.bucketHashes_perm inv' same i b
  have length := perm.length_eq
  have hashes := perm.map Prod.snd
  simp only [bucketHashes, List.length_map, List.map_map, Function.comp_def] at length hashes
  rw [subDigestOf, subDigestOf, inv.subDigest_eq, inv'.subDigest_eq, (inv.agrees i).subCount,
    (inv'.agrees i).subCount, ← inv.length_bucketPairs, ← inv'.length_bucketPairs, length,
    xorSum_perm hashes]

theorem Inv.digestOf_eq (inv : sm.Inv h) (inv' : sm'.Inv h)
    (same : ∀ k, (sm.cell h k).map Value.itemHash = (sm'.cell h k).map Value.itemHash)
    (i : Fin shardCount) : sm.digestOf i = sm'.digestOf i := by
  have perm : ((List.finRange subBucketCount).flatMap fun b => sm.bucketHashes i b).Perm
      ((List.finRange subBucketCount).flatMap fun b => sm'.bucketHashes i b) :=
    List.Perm.flatMap_left _ fun b _ => inv.bucketHashes_perm inv' same i b
  simp only [bucketHashes, ← List.map_flatMap] at perm
  have length := perm.length_eq
  have hashes := perm.map Prod.snd
  simp only [List.length_map, List.map_map, Function.comp_def] at length hashes
  rw [← shardPairs, ← shardPairs] at length hashes
  rw [digestOf, digestOf, inv.shardDigest_eq, inv'.shardDigest_eq, (inv.agrees i).shardCount,
    (inv'.agrees i).shardCount, ← inv.length_shardPairs, ← inv'.length_shardPairs, length,
    xorSum_perm hashes]

/-- All three digest readers give the same answers on two maps. -/
structure SameDigests (sm sm' : ShardedMap) : Prop where
  fillDigests : ∀ dst, sm.fillDigests dst = sm'.fillDigests dst
  fillShardDigests : ∀ dst, sm.fillShardDigests dst = sm'.fillShardDigests dst
  rootDigest : sm.rootDigest = sm'.rootDigest

omit [Security] in
/-- The readers see a map only through its published digests. -/
theorem SameDigests.of_published (shards : ∀ i, sm.digestOf i = sm'.digestOf i)
    (buckets : ∀ i b, sm.subDigestOf i b = sm'.subDigestOf i b) : SameDigests sm sm' := by
  constructor
  · intro dst
    have bufs : ∀ i buf, sm.fillBuf i buf = sm'.fillBuf i buf := fun i buf => by
      simp only [ShardedMap.fillBuf, buckets]
    simp only [ShardedMap.fillDigests, bufs]
  · intro dst
    simp only [ShardedMap.fillShardDigests, shards]
  · simp only [ShardedMap.rootDigest, shards]

/-- **History independence**: equal records, equal digests. -/
theorem Inv.sameDigests (inv : sm.Inv h) (inv' : sm'.Inv h) (same : sm.cell h = sm'.cell h) :
    SameDigests sm sm' :=
  have hashes : ∀ k, (sm.cell h k).map Value.itemHash = (sm'.cell h k).map Value.itemHash := fun k => by rw [same]
  .of_published (inv.digestOf_eq inv' hashes) (inv.subDigestOf_eq inv' hashes)

/-- Two maps with the same records store the same pairs in every sub-bucket. -/
theorem Inv.bucketPairs_perm (inv : sm.Inv h) (inv' : sm'.Inv h) (same : sm.cell h = sm'.cell h)
    (i : Fin shardCount) (b : Fin subBucketCount) : (sm.bucketPairs i b).Perm (sm'.bucketPairs i b) := by
  have nodup : ∀ s : ShardedMap, (s.bucketPairs i b).Nodup := fun s =>
    (nodup_entriesOf s ((s.shards i).buckets b)).of_map
  rw [List.perm_ext_iff_of_nodup (nodup sm) (nodup sm')]
  rintro ⟨k, v⟩
  simp only [bucketPairs, inv.mem_entriesOf, inv'.mem_entriesOf, same]

/-- What the rolling state of a map says about the pairs it stores, with keys
hashed by `h`. -/
structure Digested (h : Key → HashKey) (sm : ShardedMap) : Prop where
  place : ∀ i b, ∀ p ∈ sm.bucketPairs i b, i = shardIndex (h p.1) ∧ b = subIndex (h p.1)
  keys : ∀ i b k, k ∈ (sm.shards i).buckets b ↔ k ∈ (sm.bucketPairs i b).map Prod.fst
  once : ∀ i b, ((sm.bucketPairs i b).map Prod.fst).Nodup
  itemHash : ∀ i b, ∀ p ∈ sm.bucketPairs i b, p.2.itemHash = getItemHash (h p.1) p.2
  subDigest : ∀ i b, (sm.shards i).subDigests b = xorSum ((sm.bucketPairs i b).map fun p => p.2.itemHash)
  shardDigest : ∀ i, (sm.shards i).shardDigest = xorSum ((sm.shardPairs i).map fun p => p.2.itemHash)
  subCount : ∀ i b, (sm.shards i).subCounts b = UInt32.ofNat (sm.bucketPairs i b).length
  shardCount : ∀ i, (sm.shards i).shardCount = UInt32.ofNat (sm.shardPairs i).length
  read : ∀ i b, (sm.shards i).readBuckets b = some ((sm.shards i).buckets b)

/-- `Delete` of `k` takes one from the counts exactly where there is one key less. -/
structure CountsDown (h : Key → HashKey) (sm : ShardedMap) (k : Key) : Prop where
  absent : k ∉ (sm.shards (shardIndex (h k))).buckets (subIndex (h k)) → sm.delete k (h k) = sm
  subCount : k ∈ (sm.shards (shardIndex (h k))).buckets (subIndex (h k)) →
    ((sm.delete k (h k)).bucketPairs (shardIndex (h k)) (subIndex (h k))).length + 1 =
      (sm.bucketPairs (shardIndex (h k)) (subIndex (h k))).length
  shardCount : k ∈ (sm.shards (shardIndex (h k))).buckets (subIndex (h k)) →
    ((sm.delete k (h k)).shardPairs (shardIndex (h k))).length + 1 =
      (sm.shardPairs (shardIndex (h k))).length

theorem Inv.countsDown (inv : sm.Inv h) (k : Key) : sm.CountsDown h k := by
  cases found : sm.dir h k with
  | none =>
    have out : k ∉ (sm.shards (shardIndex (h k))).buckets (subIndex (h k)) := by
      rw [Std.TreeMap.mem_iff_isSome_getElem?]
      simp only [dir] at found
      simp [found]
    refine ⟨fun _ => ?_, fun member => absurd member out, fun member => absurd member out⟩
    simp only [dir] at found
    simp only [ShardedMap.delete, found]
  | some r =>
    have member : k ∈ (sm.shards (shardIndex (h k))).buckets (subIndex (h k)) := by
      rw [Std.TreeMap.mem_iff_isSome_getElem?]
      simp only [dir] at found
      simp [found]
    have tree : ((sm.delete k (h k)).shards (shardIndex (h k))).buckets =
        Function.update (sm.shards (shardIndex (h k))).buckets (subIndex (h k))
          (((sm.shards (shardIndex (h k))).buckets (subIndex (h k))).erase k) := by
      funext c
      rw [buckets_delete found, Function.update_apply]
      simp
    have size := size_erase_present found
    refine ⟨fun out => absurd member out, fun _ => ?_, fun _ => ?_⟩
    · rw [(inv.delete k).length_bucketPairs, inv.length_bucketPairs, tree, Function.update_self]
      exact size.symm
    · have sum := Shard.sum_size_update (sm.shards (shardIndex (h k))).buckets (subIndex (h k))
        (((sm.shards (shardIndex (h k))).buckets (subIndex (h k))).erase k)
      rw [(inv.delete k).length_shardPairs, inv.length_shardPairs, tree]
      omega

theorem Inv.digested (inv : sm.Inv h) : sm.Digested h where
  place i b p member := by
    obtain ⟨-, rfl, rfl⟩ := inv.mem_entriesOf.mp member
    exact ⟨rfl, rfl⟩
  keys i b k := by
    rw [Std.TreeMap.mem_iff_isSome_getElem?, Option.isSome_iff_exists, List.mem_map]
    constructor
    · rintro ⟨r, found⟩
      obtain ⟨v, -, held⟩ := inv.cell_of_dir (inv.dir_of_tree found)
      exact ⟨(k, v), inv.mem_entriesOf.mpr ⟨held, inv.placed found⟩, rfl⟩
    · rintro ⟨⟨k', v⟩, member, rfl⟩
      obtain ⟨held, rfl, rfl⟩ := inv.mem_entriesOf.mp member
      obtain ⟨r, found, -⟩ := Option.bind_eq_some_iff.mp held
      exact ⟨r, found⟩
  once i b := nodup_entriesOf sm _
  itemHash i b p member := inv.itemHash (inv.mem_entriesOf.mp member).1
  subDigest := inv.subDigest_eq
  shardDigest := inv.shardDigest_eq
  subCount i b := by rw [(inv.agrees i).subCount, inv.length_bucketPairs]
  shardCount i := by rw [(inv.agrees i).shardCount, inv.length_shardPairs]
  read i b := (inv.agrees i).read b

/-- **Representation and history independence**: after every run the rolling state
is what the contents determine, no `Delete` takes a count below zero, and every
other run that ends with the same contents publishes the same digests. -/
theorem digests_of_contents (h : Key → HashKey) {ops : List Op} (consistent : ∀ op ∈ ops, op.hash = h op.key) :
    (run ops).Digested h ∧ (∀ k, (run ops).CountsDown h k) ∧
      ∀ ops' : List Op, (∀ op ∈ ops', op.hash = h op.key) →
        (∀ k, (run ops).load k (h k) = (run ops').load k (h k)) → SameDigests (run ops) (run ops') := by
  have inv := inv_run consistent
  refine ⟨inv.digested, inv.countsDown, fun ops' consistent' same => ?_⟩
  have inv' := inv_run consistent'
  exact inv.sameDigests inv' (funext fun k => inv.cell_of_load inv' (same k))

end ShardedMap

open Reference ShardedMap in
/-- Overwriting a record, against writing the second one only. -/
theorem ShardedMap.digests_of_contents_overwrite :
    SameDigests
      (run [.store [97] (hashFunc [97]) ⟨[110], [1], 5, false, 0⟩, .store [97] (hashFunc [97]) ⟨[], [2], 3, false, 0⟩])
      (run [.store [97] (hashFunc [97]) ⟨[], [2], 3, false, 0⟩]) := by
  have once (v : Value) : ∀ op ∈ [Op.store [97] (hashFunc [97]) v], op.hash = hashFunc op.key := by
    simp [Op.hash, Op.key]
  have twice (v w : Value) :
      ∀ op ∈ [Op.store [97] (hashFunc [97]) v, Op.store [97] (hashFunc [97]) w], op.hash = hashFunc op.key := by
    simp [Op.hash, Op.key]
  refine (digests_of_contents hashFunc (twice _ _)).2.2 _ (once _) fun k => ?_
  rw [(inv_run (twice _ _)).load_eq, (inv_run (once _)).load_eq]
  have first := (inv_new hashFunc).cell_store [97] ⟨[110], [1], 5, false, 0⟩
  have second := ((inv_new hashFunc).store [97] ⟨[110], [1], 5, false, 0⟩).cell_store [97] ⟨[], [2], 3, false, 0⟩
  have only := (inv_new hashFunc).cell_store [97] ⟨[], [2], 3, false, 0⟩
  simp only [run, List.foldl_cons, List.foldl_nil, apply]
  rw [second, first, only, Function.update_idem]

end Oryx.Hashmap
