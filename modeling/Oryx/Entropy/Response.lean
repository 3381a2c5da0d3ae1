import Oryx.Entropy.Sync

/-!
# Pull requests and responses

What a request tells the peer, what the peer makes of it, and which records it
sends back: those of the sub-buckets that the request leaves in doubt (`Asked`), as far
as the requester is responsible for them (`requests_pull`). For the request of a node
these are the sub-buckets whose digests differ on all three levels
(`mem_requests_serverPull`).
-/

namespace Oryx.Entropy
set_option autoImplicit false

open Oryx.Library Oryx.Hashmap Oryx.Mesh Oryx.Writer
open Oryx.Hashmap.ShardedMap (shardID)

/-- The digests tell the sub-bucket apart on every level. -/
structure Differs (hm hm' : ShardedMap) (i : Fin shardCount) (b : Fin subBucketCount) : Prop where
  root : hm.rootDigest ≠ hm'.rootDigest
  shard : hm.digestOf i ≠ hm'.digestOf i
  bucket : hm.subDigestOf i b ≠ hm'.subDigestOf i b

/-- The request leaves the sub-bucket in doubt: it has another digest for the shard or none,
and it does not show the sub-bucket's digest in a slice of full length. -/
def Asked (config : PullConfig) (hm : ShardedMap) (i : Fin shardCount) (b : Fin subBucketCount) : Prop :=
  config.shards (shardID i) ≠ some (hm.digestOf i) ∧
    ∀ remote ∈ config.buckets (shardID i),
      remote.length = subBucketCount → remote[b.val]? ≠ some (hm.subDigestOf i b)

/-! ## What the request carries -/

theorem walk_eq_map {γ : Type} (order : ShardOrder) {m : ShardID → Option γ} {g : Fin shardCount → γ}
    (full : ∀ i, m (shardID i) = some (g i)) : walk order m = order.ids.map fun i => (shardID i, g i) := by
  simp [walk, full]

theorem walk_fill_shards (order : ShardOrder) (shards : ShardMap) (hm : ShardedMap) :
    walk order (shards.fill hm).get = order.ids.map fun i => (shardID i, hm.digestOf i) :=
  walk_eq_map order (hm.fillShardDigests_shardID shards.get)

theorem get_fill_buckets (buckets : BucketMap) (hm : ShardedMap) (i : Fin shardCount) :
    (buckets.fill hm).get (shardID i) = some (hm.subDigestsOf i) := by
  have fits := le_of_eq (buckets.length i)
  have filled : (buckets.fill hm).get = hm.filledDigests buckets.get := rfl
  rw [filled, hm.filledDigests_shardID fits]

section Request

variable {W C : Type} (s : Syncer W C) (lease : Lease) (buckets : BucketMap) (i : Fin shardCount)

/-- The server reads back the shard digests of the requester: the signed ids survive the
unsigned keys of the request. -/
theorem shards_pullConfig :
    (pullConfig buckets (s.preparePullRequest lease)).shards (shardID i) = some (s.hm.digestOf i) := by
  simp only [pullConfig, fillConfig, Syncer.preparePullRequest, walk_fill_shards, List.map_map, List.foldl_map,
    Function.comp_apply, Int32.toInt32_toUInt32]
  exact foldl_update_of_mem (fun i _ => some (s.hm.digestOf i))
    (ShardedMap.nodup_map_shardID lease.shardOrder.nodup) (lease.shardOrder.mem i) _

/-- The server's slices are overwritten in full. -/
theorem buckets_pullConfig :
    (pullConfig buckets (s.preparePullRequest lease)).buckets (shardID i) = some (s.hm.subDigestsOf i) := by
  simp only [pullConfig, fillConfig, Syncer.preparePullRequest,
    walk_eq_map _ (get_fill_buckets lease.buckets s.hm), List.map_map, List.foldl_map,
    Function.comp_apply, Int32.toInt32_toUInt32]
  refine (foldl_update_of_mem (fun i dst => dst.map fun dst => copyInto dst (s.hm.subDigestsOf i))
    (ShardedMap.nodup_map_shardID lease.bucketOrder.nodup) (lease.bucketOrder.mem i) _).trans ?_
  have long := buckets.length i
  cases slice : buckets.get (shardID i) with
  | none => simp [slice, subBucketCount] at long
  | some dst =>
    rw [slice, Option.getD_some] at long
    have full : (s.hm.subDigestsOf i).length = dst.length := by simp [ShardedMap.subDigestsOf, long]
    rw [Option.map_some, copyInto, ← full, List.take_length, full, List.drop_length, List.append_nil]

end Request

/-! ## The mismatch mask -/

theorem or_and_distrib (x y z : UInt64) : (x ||| y) &&& z = (x &&& z) ||| (y &&& z) := by
  refine UInt64.toBitVec_inj.mp ?_
  ext
  simp [Bool.and_or_distrib_right]

theorem shift_and_shift_ne_zero :
    ∀ i b : Fin subBucketCount,
      ((1 : UInt64) <<< UInt64.ofNat i.val) &&& ((1 : UInt64) <<< UInt64.ofNat b.val) ≠ 0 ↔ i = b := by
  decide +kernel

theorem foldl_mask {p : Fin subBucketCount → Prop} [DecidablePred p] (b : Fin subBucketCount)
    (l : List (Fin subBucketCount)) (mask : UInt64) :
    (l.foldl (fun mask i => if p i then mask ||| ((1 : UInt64) <<< UInt64.ofNat i.val) else mask) mask) &&&
        ((1 : UInt64) <<< UInt64.ofNat b.val) ≠ 0 ↔
      mask &&& ((1 : UInt64) <<< UInt64.ofNat b.val) ≠ 0 ∨ b ∈ l ∧ p b := by
  induction l generalizing mask with
  | nil => simp
  | cons i rest ih =>
    rw [List.foldl_cons, ih]
    by_cases differs : p i
    · have step : (mask ||| ((1 : UInt64) <<< UInt64.ofNat i.val)) &&& ((1 : UInt64) <<< UInt64.ofNat b.val) ≠ 0 ↔
          mask &&& ((1 : UInt64) <<< UInt64.ofNat b.val) ≠ 0 ∨ i = b := by
        rw [or_and_distrib, Ne, UInt64.or_eq_zero_iff, not_and_or, ← Ne, ← Ne, shift_and_shift_ne_zero]
      rw [if_pos differs, step, List.mem_cons]
      grind
    · rw [if_neg differs, List.mem_cons]
      grind

theorem full_mask_bit :
    ∀ b : Fin subBucketCount, (~~~0 : UInt64) &&& ((1 : UInt64) <<< UInt64.ofNat b.val) ≠ 0 := by
  decide +kernel

theorem length_subDigestsOf (hm : ShardedMap) (i : Fin shardCount) :
    (hm.subDigestsOf i).length = subBucketCount := by
  simp [ShardedMap.subDigestsOf]

theorem getElem_subDigestsOf (hm : ShardedMap) (i : Fin shardCount) (b : Fin subBucketCount) :
    (hm.subDigestsOf i)[b.val]? = some (hm.subDigestOf i b) := by
  simp [ShardedMap.subDigestsOf]

/-- The mask of a missing slice and of one of another length has every bit. -/
theorem mask_bit (remote : Option (List Digest)) (hm : ShardedMap) (i : Fin shardCount) (b : Fin subBucketCount) :
    calculateMismatchMask remote (hm.subDigestsOf i) &&& ((1 : UInt64) <<< UInt64.ofNat b.val) ≠ 0 ↔
      ∀ slice ∈ remote, slice.length = subBucketCount → slice[b.val]? ≠ some (hm.subDigestOf i b) := by
  have full := length_subDigestsOf hm i
  cases remote with
  | none =>
    refine ⟨?_, fun _ => full_mask_bit b⟩
    intro _ slice missing
    cases missing
  | some slice =>
    simp only [calculateMismatchMask, Option.mem_some_iff, forall_eq']
    by_cases long : slice.length = subBucketCount
    · rw [if_neg (not_not.mpr (long.trans full.symm)), foldl_mask, getElem_subDigestsOf]
      simp [long, eq_comm]
    · rw [if_pos (fun same => long (same.trans full))]
      refine ⟨?_, fun _ => full_mask_bit b⟩
      intro _ same
      exact absurd same long

/-! ## What the response carries -/

/-- The request a record is sent as. -/
def requestOf (p : Key × Value) : Request :=
  if p.2.tombstone then .delete (buildDeleteRequest p.1 p.2) else .set (buildSetRequest p.1 p.2)

@[simp] theorem key_requestOf (p : Key × Value) : (requestOf p).key = p.1 := by
  rw [requestOf]
  split <;> rfl

/-- A response grows by the request of the record; where it goes is a matter of its list. -/
theorem requests_add (resp : PullResponse) (p : Key × Value) :
    (resp.add p).requests.Perm (resp.requests ++ [requestOf p]) := by
  unfold PullResponse.add PullResponse.requests requestOf
  split
  · simp
  · simp only [List.map_append, List.map_cons, List.map_nil, List.append_assoc]
    exact List.perm_append_comm.append_left _

section Response

variable [Security] {W C W' C' : Type} {a : Syncer W C} {s : Syncer W' C'}

/-- `r` carries a record of the sub-bucket that `a` is responsible for. -/
def Carries (a : Syncer W C) (s : Syncer W' C') (i : Fin shardCount) (b : Fin subBucketCount) (r : Request) : Prop :=
  ∃ p ∈ s.hm.bucketPairs i b, s.isRequesterResponsible p.1 a.nodeID = true ∧ r = requestOf p

/-- **The closure of `collectShardMismatches`** appends the requester's records and nothing else. -/
theorem requests_collect (id : ShardID) (mask : UInt64) (requesterID : NodeID) (resp : PullResponse) :
    (s.collectShardMismatches id mask requesterID resp).requests.Perm
      (resp.requests ++
        ((s.hm.rangeShard id mask).filter fun p => s.isRequesterResponsible p.1 requesterID).map requestOf) := by
  unfold Syncer.collectShardMismatches
  induction s.hm.rangeShard id mask generalizing resp with
  | nil => simp
  | cons p rest ih =>
    rw [List.foldl_cons]
    by_cases owned : s.isRequesterResponsible p.1 requesterID = true
    · rw [if_pos owned, List.filter_cons, if_pos owned, List.map_cons, ← List.singleton_append, ← List.append_assoc]
      exact (ih _).trans ((requests_add resp p).append_right _)
    · rw [if_neg owned, List.filter_cons, if_neg owned]
      exact ih resp

namespace Syncer

/-- The records of one shard that go into the answer. -/
def selected (s : Syncer W' C') (config : PullConfig) (i : Fin shardCount) : List (Key × Value) :=
  if config.shards (shardID i) = some (s.hm.digestOf i) then []
  else
    (s.hm.rangeShard (shardID i) (calculateMismatchMask (config.buckets (shardID i)) (s.hm.subDigestsOf i))).filter
      fun p => s.isRequesterResponsible p.1 config.requesterID

theorem mem_selected {config : PullConfig} {i : Fin shardCount} {p : Key × Value} :
    p ∈ s.selected config i ↔
      ∃ b, Asked config s.hm i b ∧ p ∈ s.hm.bucketPairs i b ∧
        s.isRequesterResponsible p.1 config.requesterID = true := by
  unfold selected Asked
  by_cases same : config.shards (shardID i) = some (s.hm.digestOf i)
  · rw [if_pos same]
    refine ⟨fun member => absurd member List.not_mem_nil, ?_⟩
    rintro ⟨b, ⟨differs, _⟩, _⟩
    exact absurd same differs
  · rw [if_neg same, List.mem_filter, ShardedMap.mem_rangeShard]
    simp only [mask_bit]
    constructor
    · rintro ⟨⟨b, bit, member⟩, owned⟩
      exact ⟨b, ⟨same, bit⟩, member, owned⟩
    · rintro ⟨b, ⟨_, bit⟩, member, owned⟩
      exact ⟨⟨b, bit, member⟩, owned⟩

theorem selected_sublist (s : Syncer W' C') (config : PullConfig) (i : Fin shardCount) :
    (s.selected config i).Sublist (s.hm.shardPairs i) := by
  unfold selected
  split
  · exact List.nil_sublist _
  · exact List.filter_sublist.trans (s.hm.rangeShard_sublist i _)

/-- One turn of the loop over the shards. The test of the mask before the walk changes nothing:
a mask without bits selects no record. -/
theorem requests_pullShard (buckets : BucketMap) (config : PullConfig) (resp : PullResponse) (i : Fin shardCount) :
    (s.pullShard (buckets.fill s.hm) config resp (shardID i, s.hm.digestOf i)).requests.Perm
      (resp.requests ++ (s.selected config i).map requestOf) := by
  simp only [pullShard, selected, get_fill_buckets, Option.getD_some]
  by_cases same : config.shards (shardID i) = some (s.hm.digestOf i)
  · simp [same]
  · rw [if_neg same, if_neg same]
    split
    · exact requests_collect _ _ _ _
    · rename_i empty
      have zero : calculateMismatchMask (config.buckets (shardID i)) (s.hm.subDigestsOf i) = 0 :=
        UInt64.le_zero_iff.mp (UInt64.not_lt.mp empty)
      have none : s.hm.rangeShard (shardID i) 0 = [] := by
        rw [ShardedMap.rangeShard_shardID]
        simp
      simp [zero, none]

theorem requests_foldl_pullShard (buckets : BucketMap) (config : PullConfig) (ids : List (Fin shardCount))
    (resp : PullResponse) :
    let turn := fun resp i => s.pullShard (buckets.fill s.hm) config resp (shardID i, s.hm.digestOf i)
    (ids.foldl turn resp).requests.Perm (resp.requests ++ (ids.flatMap (s.selected config)).map requestOf) := by
  intro turn
  induction ids generalizing resp with
  | nil => simp
  | cons i rest ih =>
    rw [List.foldl_cons, List.flatMap_cons, List.map_append, ← List.append_assoc]
    exact (ih _).trans ((requests_pullShard buckets config resp i).append_right _)

/-- **The whole answer**, whatever the order in which the map of the shards is walked. -/
theorem requests_pull (lease : Lease) {config : PullConfig} (differ : config.root ≠ s.hm.rootDigest) :
    (s.pull lease config).requests.Perm
      (((List.finRange shardCount).flatMap (s.selected config)).map requestOf) := by
  rw [pull, if_neg differ, walk_fill_shards, List.foldl_map]
  exact (requests_foldl_pullShard lease.buckets config lease.shardOrder.ids ⟨[], []⟩).trans
    ((lease.shardOrder.perm.flatMap_right _).map _)

end Syncer

/-- What one shard contributes, from the digests of the two nodes. -/
def shardDifference (a : Syncer W C) (s : Syncer W' C') (resp : PullResponse) (i : Fin shardCount) : PullResponse :=
  if a.hm.digestOf i = s.hm.digestOf i then resp
  else
    let mismatchMask := calculateMismatchMask (some (a.hm.subDigestsOf i)) (s.hm.subDigestsOf i)
    if mismatchMask > 0 then s.collectShardMismatches (shardID i) mismatchMask a.nodeID resp else resp

/-- What a node gets from a peer, without the maps that carry the digests between them. -/
def difference (a : Syncer W C) (s : Syncer W' C') (order : ShardOrder) : PullResponse :=
  if a.hm.rootDigest = s.hm.rootDigest then ⟨[], []⟩ else order.ids.foldl (shardDifference a s) ⟨[], []⟩

/-- The request carries the digests to the peer as they are. -/
theorem serverPull_eq (a : Syncer W C) (s : Syncer W' C') (lease peerLease : Lease) (buckets : BucketMap) :
    serverPull s buckets peerLease (a.preparePullRequest lease) = difference a s peerLease.shardOrder := by
  have root : (pullConfig buckets (a.preparePullRequest lease)).root = a.hm.rootDigest := rfl
  have requester : (pullConfig buckets (a.preparePullRequest lease)).requesterID = a.nodeID := rfl
  have shard (resp : PullResponse) (i : Fin shardCount) :
      s.pullShard (peerLease.buckets.fill s.hm) (pullConfig buckets (a.preparePullRequest lease)) resp
        (shardID i, s.hm.digestOf i) = shardDifference a s resp i := by
    simp only [Syncer.pullShard, shardDifference, shards_pullConfig, buckets_pullConfig, get_fill_buckets,
      Option.getD_some, Option.some.injEq, requester]
  rw [serverPull, Syncer.pull, difference, root, walk_fill_shards, List.foldl_map]
  simp only [shard]

omit [Security] in
/-- A node's own digests leave in doubt what they tell apart. -/
theorem asked_pullConfig (lease : Lease) (buckets : BucketMap) (hm : ShardedMap) (i : Fin shardCount)
    (b : Fin subBucketCount) :
    Asked (pullConfig buckets (a.preparePullRequest lease)) hm i b ↔
      a.hm.digestOf i ≠ hm.digestOf i ∧ a.hm.subDigestOf i b ≠ hm.subDigestOf i b := by
  simp only [Asked, shards_pullConfig, buckets_pullConfig, Option.mem_some_iff, forall_eq', length_subDigestsOf,
    getElem_subDigestsOf, ne_eq, Option.some.injEq, forall_const]

/-- **The response**: the requester's records of the sub-buckets that differ on all levels. -/
theorem mem_requests_serverPull {lease peerLease : Lease} {buckets : BucketMap} {r : Request} :
    r ∈ (serverPull s buckets peerLease (a.preparePullRequest lease)).requests ↔
      ∃ i b, Differs a.hm s.hm i b ∧ Carries a s i b r := by
  by_cases same : a.hm.rootDigest = s.hm.rootDigest
  · have nothing : serverPull s buckets peerLease (a.preparePullRequest lease) = ⟨[], []⟩ := if_pos same
    rw [nothing]
    refine ⟨fun sent => absurd sent (by simp [PullResponse.requests]), ?_⟩
    rintro ⟨i, b, differs, _⟩
    exact absurd same differs.root
  · rw [serverPull, (Syncer.requests_pull peerLease same).mem_iff, List.mem_map]
    simp only [List.mem_flatMap, List.mem_finRange, true_and, Syncer.mem_selected, asked_pullConfig]
    constructor
    · rintro ⟨p, ⟨i, b, ⟨shard, bucket⟩, member, owned⟩, rfl⟩
      exact ⟨i, b, ⟨same, shard, bucket⟩, p, member, owned, rfl⟩
    · rintro ⟨i, b, differs, p, member, owned, rfl⟩
      exact ⟨p, ⟨i, b, ⟨differs.shard, differs.bucket⟩, member, owned⟩, rfl⟩

end Response

end Oryx.Entropy
