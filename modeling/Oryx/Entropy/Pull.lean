import Oryx.Entropy.Round
import Oryx.Mesh.Owners

/-!
# The answer to an arbitrary request

A pull request comes from outside: shards may be missing from it, slices may be missing or of
any length, ids may belong to no shard. Whatever it holds, `Pull` answers with the records of
the sub-buckets that it leaves in doubt (`Asked`) and that belong to the requester, each once,
and every index it uses on the way is inside its slice. For the second part the functions are
given again with checked indices, where `none` is Go's index panic.
-/

namespace Oryx.Entropy
set_option autoImplicit false

open Oryx.Library Oryx.Hashmap Oryx.Mesh Oryx.Writer
open Oryx.Hashmap.ShardedMap (shardID)

/-! ## The records of the answer -/

namespace Syncer

variable [Security] {W C : Type} {s : Syncer W C}

/-- The record under `key` belongs in the answer. -/
structure Answers (s : Syncer W C) (config : PullConfig) (h : Key → HashKey) (key : Key) (val : Value) : Prop where
  held : s.hm.cell h key = some val
  asked : Asked config s.hm (shardIndex (h key)) (subIndex (h key))
  owned : s.singleNode = true ∨ config.requesterID ∈ s.ring.getOwners key s.replicationFactor

section Answer

variable {h : Key → HashKey} {config : PullConfig} {lease : Lease}

/-- A node alone answers for every key, one of several for those that its ring gives the requester. -/
theorem isRequesterResponsible_iff {key : Key} {requesterID : NodeID} :
    s.isRequesterResponsible key requesterID = true ↔
      s.singleNode = true ∨ requesterID ∈ s.ring.getOwners key s.replicationFactor := by
  simp [isRequesterResponsible]

/-- The walk over all shards selects exactly the records that belong in the answer. -/
theorem mem_flatMap_selected (inv : s.hm.Inv h) {key : Key} {val : Value} :
    (key, val) ∈ (List.finRange shardCount).flatMap (s.selected config) ↔ s.Answers config h key val := by
  simp only [List.mem_flatMap, List.mem_finRange, true_and, mem_selected, isRequesterResponsible_iff,
    ShardedMap.bucketPairs, inv.mem_entriesOf]
  constructor
  · rintro ⟨i, b, asked, ⟨held, rfl, rfl⟩, owned⟩
    exact ⟨held, asked, owned⟩
  · rintro ⟨held, asked, owned⟩
    exact ⟨_, _, asked, ⟨held, rfl, rfl⟩, owned⟩

/-- The answer is made of the records that belong in it. -/
theorem mem_requests_pull (inv : s.hm.Inv h) (differ : config.root ≠ s.hm.rootDigest) {r : Request} :
    r ∈ (s.pull lease config).requests ↔ ∃ key val, s.Answers config h key val ∧ r = requestOf (key, val) := by
  rw [(requests_pull lease differ).mem_iff, List.mem_map]
  simp only [Prod.exists, mem_flatMap_selected inv, @eq_comm _ r]

/-- No key is sent twice: the records are some of those that `Range` reports. -/
theorem nodup_requests_pull (inv : s.hm.Inv h) (differ : config.root ≠ s.hm.rootDigest) :
    ((s.pull lease config).requests.map Request.key).Nodup := by
  have keys : ((s.pull lease config).requests.map Request.key).Perm
      (((List.finRange shardCount).flatMap (s.selected config)).map Prod.fst) := by
    have same : Request.key ∘ requestOf = Prod.fst := funext key_requestOf
    rw [← same, ← List.map_map]
    exact (requests_pull lease differ).map _
  have some_pairs : ((List.finRange shardCount).flatMap (s.selected config)).Sublist s.hm.range :=
    List.Sublist.flatMap_right _ fun i _ => selected_sublist s config i
  rw [keys.nodup_iff]
  exact inv.nodup_range.sublist (some_pairs.map _)

/-- The live ones are sent as sets. -/
theorem mem_entries_pull (inv : s.hm.Inv h) (differ : config.root ≠ s.hm.rootDigest) {e : SetRequest} :
    e ∈ (s.pull lease config).entries ↔
      ∃ key val, s.Answers config h key val ∧ val.tombstone = false ∧
        e = ⟨key, val.data, val.timestamp, val.nodeID⟩ := by
  have sent : e ∈ (s.pull lease config).entries ↔ .set e ∈ (s.pull lease config).requests := by
    simp [PullResponse.requests]
  rw [sent, mem_requests_pull inv differ]
  refine exists_congr fun key => exists_congr fun val => and_congr_right fun _ => ?_
  cases dead : val.tombstone <;> simp [requestOf, dead, buildSetRequest]

/-- The tombstones are sent as deletes. -/
theorem mem_deletions_pull (inv : s.hm.Inv h) (differ : config.root ≠ s.hm.rootDigest) {d : DeleteRequest} :
    d ∈ (s.pull lease config).deletions ↔
      ∃ key val, s.Answers config h key val ∧ val.tombstone = true ∧ d = ⟨key, val.timestamp, val.nodeID⟩ := by
  have sent : d ∈ (s.pull lease config).deletions ↔ .delete d ∈ (s.pull lease config).requests := by
    simp [PullResponse.requests]
  rw [sent, mem_requests_pull inv differ]
  refine exists_congr fun key => exists_congr fun val => and_congr_right fun _ => ?_
  cases dead : val.tombstone <;> simp [requestOf, dead, buildDeleteRequest]

end Answer

end Syncer

/-! ## Checked indices -/

/-- The slice of `FillDigests` is long enough for every sub-bucket. -/
def fillBufChecked (hm : ShardedMap) (i : Fin shardCount) (buf : List Digest) : Option (List Digest) :=
  let buf := if buf.length < subBucketCount then List.replicate subBucketCount 0 else buf
  (List.finRange subBucketCount).foldlM (fun buf b =>
    if b.val < buf.length then some (buf.set b.val (hm.subDigestOf i b)) else none) buf

/-- Both slices are indexed by the sub-buckets, whatever their lengths are, as long as these agree. -/
def calculateMismatchMaskChecked (remoteBucketHashes : Option (List Digest)) (localBucketHashes : List Digest) :
    Option UInt64 :=
  match remoteBucketHashes with
  | none => some (~~~0)
  | some remote =>
    if remote.length ≠ localBucketHashes.length then some (~~~0)
    else (List.finRange subBucketCount).foldlM (fun mask i => do
      let here ← localBucketHashes[i.val]?
      let there ← remote[i.val]?
      some (if here ≠ there then mask ||| ((1 : UInt64) <<< UInt64.ofNat i.val) else mask)) 0

/-- An id that belongs to no shard is turned away before it is used as an index. -/
def rangeShardChecked (hm : ShardedMap) (id : ShardID) (mismatchMask : UInt64) : Option (List (Key × Value)) :=
  if id < 0 ∨ 128 ≤ id then some []
  else do
    let i ← (List.finRange shardCount).find? fun i => shardID i = id
    some ((List.finRange subBucketCount).flatMap fun b =>
      if mismatchMask &&& ((1 : UInt64) <<< UInt64.ofNat b.val) ≠ 0 then hm.entriesOf ((hm.shards i).buckets b)
      else [])

namespace Syncer

variable [Security] {W C : Type}

def isRequesterResponsibleChecked (s : Syncer W C) (key : Key) (requesterID : NodeID) : Option Bool :=
  if s.singleNode then some true
  else do
    let owners ← s.ring.getOwnersChecked key s.replicationFactor
    some (owners.contains requesterID)

def collectShardMismatchesChecked (s : Syncer W C) (shardID : ShardID) (mismatchMask : UInt64)
    (requesterID : NodeID) (resp : PullResponse) : Option PullResponse := do
  let pairs ← rangeShardChecked s.hm shardID mismatchMask
  pairs.foldlM (fun resp p => do
    let isResponsible ← s.isRequesterResponsibleChecked p.1 requesterID
    some (if isResponsible then resp.add p else resp)) resp

def pullShardChecked (s : Syncer W C) (localBuckets : BucketMap) (config : PullConfig) (resp : PullResponse)
    (shard : ShardID × Digest) : Option PullResponse :=
  if config.shards shard.1 = some shard.2 then some resp
  else do
    let mismatchMask ←
      calculateMismatchMaskChecked (config.buckets shard.1) ((localBuckets.get shard.1).getD [])
    if mismatchMask > 0 then s.collectShardMismatchesChecked shard.1 mismatchMask config.requesterID resp
    else some resp

/-- `Pull` with every index checked. -/
def pullChecked (s : Syncer W C) (lease : Lease) (config : PullConfig) : Option PullResponse :=
  if config.root = s.hm.rootDigest then some ⟨[], []⟩
  else
    (walk lease.shardOrder (lease.shards.fill s.hm).get).foldlM
      (s.pullShardChecked (lease.buckets.fill s.hm) config) ⟨[], []⟩

end Syncer

/-- A slice that is too short is replaced before it is written to. -/
theorem fillBufChecked_eq (hm : ShardedMap) (i : Fin shardCount) (buf : List Digest) :
    fillBufChecked hm i buf = some (hm.fillBuf i buf) := by
  have written (l : List (Fin subBucketCount)) {buf : List Digest} (long : subBucketCount ≤ buf.length) :
      l.foldlM (fun buf b => if b.val < buf.length then some (buf.set b.val (hm.subDigestOf i b)) else none) buf =
        some (l.foldl (fun buf b => buf.set b.val (hm.subDigestOf i b)) buf) := by
    induction l generalizing buf with
    | nil => rfl
    | cons b rest ih =>
      have inside : b.val < buf.length := by omega
      rw [List.foldlM_cons, if_pos inside, List.foldl_cons]
      exact ih (by rw [List.length_set]; exact long)
  refine written _ ?_
  split
  · simp
  · omega

/-- The local slice has an entry for every sub-bucket, so a remote one of the same length has too. -/
theorem calculateMismatchMaskChecked_eq (remote : Option (List Digest)) {held : List Digest}
    (full : held.length = subBucketCount) :
    calculateMismatchMaskChecked remote held = some (calculateMismatchMask remote held) := by
  unfold calculateMismatchMaskChecked calculateMismatchMask
  cases remote with
  | none => rfl
  | some slice =>
    simp only
    split
    · rfl
    · rename_i same
      have turn (mask : UInt64) (b : Fin subBucketCount) :
          (do let here ← held[b.val]?
              let there ← slice[b.val]?
              some (if here ≠ there then mask ||| ((1 : UInt64) <<< UInt64.ofNat b.val) else mask)) =
            some (if held[b.val]? ≠ slice[b.val]? then mask ||| ((1 : UInt64) <<< UInt64.ofNat b.val)
              else mask) := by
        have here : b.val < held.length := by omega
        have there : b.val < slice.length := by omega
        simp [List.getElem?_eq_getElem here, List.getElem?_eq_getElem there]
      simp only [turn]
      exact List.foldlM_pure

theorem rangeShardChecked_eq (hm : ShardedMap) (i : Fin shardCount) (mask : UInt64) :
    rangeShardChecked hm (shardID i) mask = some (hm.rangeShard (shardID i) mask) := by
  rw [rangeShardChecked, ShardedMap.rangeShard, if_neg (ShardedMap.shardID_inside i),
    if_neg (ShardedMap.shardID_inside i), ShardedMap.find_shardID]
  rfl

namespace Syncer

variable [Security] {W C : Type} {s : Syncer W C}

/-- In a ring that is in order the walk to the owners does not panic. -/
theorem isRequesterResponsibleChecked_eq (valid : s.ring.Valid) (key : Key) (requesterID : NodeID) :
    s.isRequesterResponsibleChecked key requesterID = some (s.isRequesterResponsible key requesterID) := by
  unfold isRequesterResponsibleChecked isRequesterResponsible
  rw [valid.getOwnersChecked_eq]
  cases s.singleNode <;> rfl

/-- **No index is out of range**, whatever the request holds. -/
theorem pullChecked_eq (valid : s.ring.Valid) (lease : Lease) (config : PullConfig) :
    s.pullChecked lease config = some (s.pull lease config) := by
  have collected (i : Fin shardCount) (mask : UInt64) (resp : PullResponse) :
      s.collectShardMismatchesChecked (shardID i) mask config.requesterID resp =
        some (s.collectShardMismatches (shardID i) mask config.requesterID resp) := by
    rw [collectShardMismatchesChecked, rangeShardChecked_eq]
    simp only [isRequesterResponsibleChecked_eq valid]
    exact List.foldlM_pure
  have shard (resp : PullResponse) (i : Fin shardCount) :
      s.pullShardChecked (lease.buckets.fill s.hm) config resp (shardID i, s.hm.digestOf i) =
        some (s.pullShard (lease.buckets.fill s.hm) config resp (shardID i, s.hm.digestOf i)) := by
    simp only [pullShardChecked, pullShard, get_fill_buckets, Option.getD_some,
      calculateMismatchMaskChecked_eq _ (length_subDigestsOf s.hm i), collected]
    split
    · rfl
    · simp only [Option.bind_eq_bind, Option.bind_some]
      split <;> rfl
  rw [pullChecked, pull]
  split
  · rfl
  · rw [walk_fill_shards, List.foldlM_map, List.foldl_map]
    simp only [shard]
    exact List.foldlM_pure

/-- **The answer to any request**, at a node whose map and ring have any history: no index is
out of range; a request with the node's own root gets nothing; any other gets, each key once,
the records that it leaves in doubt and that the requester owns, a tombstone as a delete and
any other record as a set, each with its own timestamp and node. -/
theorem pull_answers_mismatch [VnodeSort] (s : Syncer W C) (lease : Lease) (config : PullConfig) (h : Key → HashKey)
    (writes : List Hashmap.Op) (consistent : ∀ op ∈ writes, op.hash = h op.key)
    (written : s.hm = ShardedMap.run writes)
    (changes : List RingOp) (changed : s.ring = HashRing.after changes) :
    let resp := s.pull lease config
    (s.pullChecked lease config = some resp ∧
      ∀ i buf, fillBufChecked s.hm i buf = some (s.hm.fillBuf i buf)) ∧
    (config.root = s.hm.rootDigest → resp = ⟨[], []⟩) ∧
    (config.root ≠ s.hm.rootDigest →
      (∀ e, e ∈ resp.entries ↔ ∃ key val, s.Answers config h key val ∧ val.tombstone = false ∧
        e = ⟨key, val.data, val.timestamp, val.nodeID⟩) ∧
      (∀ d, d ∈ resp.deletions ↔ ∃ key val, s.Answers config h key val ∧ val.tombstone = true ∧
        d = ⟨key, val.timestamp, val.nodeID⟩) ∧
      (resp.entries.map SetRequest.key ++ resp.deletions.map DeleteRequest.key).Nodup) := by
  have inv : s.hm.Inv h := by
    rw [written]
    exact ShardedMap.inv_run consistent
  have valid : s.ring.Valid := by
    rw [changed]
    exact HashRing.valid_after changes
  refine ⟨⟨pullChecked_eq valid lease config, fillBufChecked_eq s.hm⟩, fun same => if_pos same, ?_⟩
  intro differ
  refine ⟨fun e => mem_entries_pull inv differ, fun d => mem_deletions_pull inv differ, ?_⟩
  have keys : ((s.pull lease config).requests.map Request.key).Nodup := nodup_requests_pull inv differ
  rwa [PullResponse.requests, List.map_append, List.map_map, List.map_map] at keys

end Syncer

open Reference

/-- One deleted key. -/
def tombstoneWritten : List Hashmap.Op := [.storeLWW [1] (hashFunc [1]) ⟨[98], [], 7, true, 0⟩]

/-- A node of two that holds it. -/
def responder : Syncer NopWal MockStorageClock where
  writer := newStorageWriter (ShardedMap.run tombstoneWritten) NopWal.mk (MockStorageClock.mk 0)
  ring := HashRing.after joined
  replicationFactor := 2
  singleNode := false
  nodeID := [98]

/-- A request without any digest. -/
def bareRequest : PullConfig := ⟨fun _ => none, fun _ => none, [97], 0⟩

/-- A requester that sends no digests gets the tombstone. -/
theorem pull_answers_bareRequest : ⟨[1], 7, [98]⟩ ∈ (responder.pull freshLease bareRequest).deletions := by
  have answers := Syncer.pull_answers_mismatch responder freshLease bareRequest hashFunc tombstoneWritten
    (by decide) rfl joined rfl
  have differ : bareRequest.root ≠ responder.hm.rootDigest := by decide +kernel
  refine ((answers.2.2 differ).2.1 _).mpr
    ⟨[1], withItemHash (hashFunc [1]) ⟨[98], [], 7, true, 0⟩, ⟨by decide +kernel, ⟨nofun, nofun⟩, ?_⟩, rfl, rfl⟩
  exact Or.inr (by decide +kernel)

end Oryx.Entropy
