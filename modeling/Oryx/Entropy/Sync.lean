import Oryx.Hashmap.Readers
import Oryx.Mesh.HashRing
import Oryx.Writer.StorageWriter

/-!
# Anti-entropy

`cluster/entropy/sync.go` with the gRPC handler in front of it (`server.Pull`): a
node sends its digests to a peer, the peer compares them level by level with its
own and answers with the records that differ, and the node applies the answer.

Pooled maps are whatever the pool hands out; the types `ShardMap` and `BucketMap`
say what every map in it has in common. The order in which a Go map is walked is an
argument (`ShardOrder`).
-/

namespace Oryx.Entropy
set_option autoImplicit false

open Oryx.Library Oryx.Hashmap Oryx.Mesh Oryx.Writer
open Oryx.Hashmap.ShardedMap (shardID)

/-- An order of walking a map keyed by shard ids. -/
structure ShardOrder where
  ids : List (Fin shardCount)
  perm : ids.Perm (List.finRange shardCount)

theorem ShardOrder.mem (order : ShardOrder) (i : Fin shardCount) : i ∈ order.ids :=
  order.perm.mem_iff.mpr (List.mem_finRange i)

theorem ShardOrder.nodup (order : ShardOrder) : order.ids.Nodup :=
  order.perm.nodup_iff.mpr (List.nodup_finRange _)

/-- The entries of a map keyed by shard ids, in the order they are walked. -/
def walk {γ : Type} (order : ShardOrder) (m : ShardID → Option γ) : List (ShardID × γ) :=
  order.ids.filterMap fun i => (m (shardID i)).map fun x => (shardID i, x)

/-- A map of the `shardMaps` pool: all its keys are shard ids. -/
structure ShardMap where
  get : ShardID → Option Digest
  keys : ∀ id, (∀ i, shardID i ≠ id) → get id = none

/-- A map of the `bucketMaps` pool: a slice of full length for every shard id. -/
structure BucketMap where
  get : ShardID → Option (List Digest)
  keys : ∀ id, (∀ i, shardID i ≠ id) → get id = none
  length : ∀ i, ((get (shardID i)).getD []).length = subBucketCount

def ShardMap.fill (m : ShardMap) (hm : ShardedMap) : ShardMap where
  get := hm.fillShardDigests m.get
  keys id other := by rw [hm.fillShardDigests_of_ne m.get other, m.keys id other]

def BucketMap.fill (m : BucketMap) (hm : ShardedMap) : BucketMap where
  get := hm.filledDigests m.get
  keys id other := by rw [hm.filledDigests_of_ne m.get other, m.keys id other]
  length i := by
    rw [hm.filledDigests_shardID (m.length i).le, Option.getD_some, ShardedMap.subDigestsOf, List.length_map,
      List.length_finRange]

/-- `pb.PullRequest`; a map field holds its entries in the order the receiver walks them. -/
structure PullRequest where
  nodeId : NodeID
  rootDigest : UInt64
  shardDigests : List (UInt32 × UInt64)
  subDigests : List (UInt32 × List UInt64)

/-- `pb.PullResponse`. -/
structure PullResponse where
  entries : List SetRequest
  deletions : List DeleteRequest

/-- The requests of a response in the order `Push` applies them. -/
def PullResponse.requests (resp : PullResponse) : List Request :=
  resp.entries.map .set ++ resp.deletions.map .delete

structure PullConfig where
  shards : ShardID → Option Digest
  buckets : ShardID → Option (List Digest)
  requesterID : NodeID
  root : Digest

/-- A node's syncer. Its map is the one its writer writes to. -/
structure Syncer (W C : Type) where
  writer : StorageWriter W C
  ring : HashRing
  replicationFactor : Int
  singleNode : Bool
  nodeID : NodeID

/-- What the pools hand out during one call, and how the maps are walked in it. -/
structure Lease where
  shards : ShardMap
  buckets : BucketMap
  shardOrder : ShardOrder
  bucketOrder : ShardOrder

/-- Go's `copy`. -/
def copyInto {γ : Type} (dst src : List γ) : List γ := src.take dst.length ++ dst.drop src.length

/-- The mask of the sub-buckets to send: all when the requester's slice is missing or of another length. -/
def calculateMismatchMask (remoteBucketHashes : Option (List Digest)) (localBucketHashes : List Digest) : UInt64 :=
  match remoteBucketHashes with
  | none => ~~~0
  | some remote =>
    if remote.length ≠ localBucketHashes.length then ~~~0
    else (List.finRange subBucketCount).foldl (fun mask i =>
      if localBucketHashes[i.val]? ≠ remote[i.val]? then mask ||| ((1 : UInt64) <<< UInt64.ofNat i.val) else mask) 0

def buildSetRequest (key : Key) (val : Value) : SetRequest := ⟨key, val.data, val.timestamp, val.nodeID⟩

def buildDeleteRequest (key : Key) (val : Value) : DeleteRequest := ⟨key, val.timestamp, val.nodeID⟩

/-- One record appended to a response. -/
def PullResponse.add (resp : PullResponse) (p : Key × Value) : PullResponse :=
  if p.2.tombstone then { resp with deletions := resp.deletions ++ [buildDeleteRequest p.1 p.2] }
  else { resp with entries := resp.entries ++ [buildSetRequest p.1 p.2] }

namespace Syncer

variable {W C : Type}

def hm (s : Syncer W C) : ShardedMap := s.writer.hm

section Hashing

variable [Security]

def isRequesterResponsible (s : Syncer W C) (key : Key) (requesterID : NodeID) : Bool :=
  s.singleNode || (s.ring.getOwners key s.replicationFactor).contains requesterID

def collectShardMismatches (s : Syncer W C) (shardID : ShardID) (mismatchMask : UInt64) (requesterID : NodeID)
    (resp : PullResponse) : PullResponse :=
  (s.hm.rangeShard shardID mismatchMask).foldl (fun resp p =>
    if s.isRequesterResponsible p.1 requesterID then resp.add p else resp) resp

/-- The comparison of one shard. -/
def pullShard (s : Syncer W C) (localBuckets : BucketMap) (config : PullConfig) (resp : PullResponse)
    (shard : ShardID × Digest) : PullResponse :=
  if config.shards shard.1 = some shard.2 then resp
  else
    let mismatchMask := calculateMismatchMask (config.buckets shard.1) ((localBuckets.get shard.1).getD [])
    if mismatchMask > 0 then s.collectShardMismatches shard.1 mismatchMask config.requesterID resp else resp

def pull (s : Syncer W C) (lease : Lease) (config : PullConfig) : PullResponse :=
  if config.root = s.hm.rootDigest then ⟨[], []⟩
  else
    (walk lease.shardOrder (lease.shards.fill s.hm).get).foldl
      (s.pullShard (lease.buckets.fill s.hm) config) ⟨[], []⟩

end Hashing

def preparePullRequest (s : Syncer W C) (lease : Lease) : PullRequest where
  nodeId := s.nodeID
  rootDigest := s.hm.rootDigest
  shardDigests := (walk lease.shardOrder (lease.shards.fill s.hm).get).map fun e => (e.1.toUInt32, e.2)
  subDigests := (walk lease.bucketOrder (lease.buckets.fill s.hm).get).map fun e => (e.1.toUInt32, e.2)

end Syncer

/-- The loops of `Push`, up to the first error. -/
def applyAll {W C : Type} [Security] [Waler W] [Clocker C] (sw : StorageWriter W C) :
    List Request → Option Error × StorageWriter W C
  | [] => (none, sw)
  | r :: rest =>
    match (sw.apply r).1 with
    | some err => (some err, (sw.apply r).2)
    | none => applyAll (sw.apply r).2 rest

/-! ## New maps

The `New` functions of the pools of `server.Pull` and of the syncer. -/

def newShards : ShardID → Option Digest := fun _ => none

/-- The loop of the `New` functions of both `buckets` pools. -/
def newBuckets : ShardID → Option (List Digest) :=
  (List.finRange shardCount).foldl
    (fun m i => Function.update m (shardID i) (some (List.replicate subBucketCount 0))) fun _ => none

theorem newBuckets_shardID (i : Fin shardCount) : newBuckets (shardID i) = some (List.replicate subBucketCount 0) :=
  foldl_update_of_mem (fun _ _ => some (List.replicate subBucketCount 0))
    (ShardedMap.nodup_map_shardID (List.nodup_finRange _)) (List.mem_finRange i) _

theorem newBuckets_of_ne {id : ShardID} (other : ∀ i, shardID i ≠ id) : newBuckets id = none :=
  foldl_update_of_ne (fun _ _ => some (List.replicate subBucketCount 0)) (fun i _ => other i) _

def newShardMap : ShardMap := ⟨newShards, fun _ _ => rfl⟩

def newBucketMap : BucketMap where
  get := newBuckets
  keys _ other := newBuckets_of_ne other
  length i := by rw [newBuckets_shardID, Option.getD_some, List.length_replicate]

/-! ## The handler and the rounds -/

/-- The maps of `req` copied into the given ones; an id that has no slice in `buckets` is dropped. -/
def fillConfig (shards : ShardID → Option Digest) (buckets : ShardID → Option (List Digest)) (req : PullRequest) :
    PullConfig where
  shards := req.shardDigests.foldl (fun m e => Function.update m e.1.toInt32 (some e.2)) shards
  buckets := req.subDigests.foldl
    (fun m e => Function.update m e.1.toInt32 ((m e.1.toInt32).map fun dst => copyInto dst e.2)) buckets
  requesterID := req.nodeId
  root := req.rootDigest

/-- The maps `server.Pull` reads out of a request. Its own pooled maps are an empty
one and `buckets`. -/
def pullConfig (buckets : BucketMap) (req : PullRequest) : PullConfig := fillConfig newShards buckets.get req

/-- `server.Pull` at a node with syncer `s`. -/
def serverPull {W C : Type} [Security] (s : Syncer W C) (buckets : BucketMap) (lease : Lease) (req : PullRequest) :
    PullResponse :=
  s.pull lease (pullConfig buckets req)

abbrev PeerAddress := Bytes

/-- What a round meets: the members and the node's own address as the mesh reports
them, the random choice, the connections, and what the pools of the node and of the
peer's server and syncer hand out. -/
structure Round where
  members : List PeerAddress
  self : PeerAddress
  choice : Nat
  client : PeerAddress → Except Error (PullRequest → Except Error PullResponse)
  lease : Lease
  peerBuckets : BucketMap
  peerLease : Lease

def excludeSelf (members : List PeerAddress) (self : PeerAddress) : List PeerAddress :=
  members.filter (· ≠ self)

namespace Syncer

variable {W C : Type} [Security] [Waler W] [Clocker C]

def push (s : Syncer W C) (resp : PullResponse) : Option Error × Syncer W C :=
  ((applyAll s.writer resp.requests).1, { s with writer := (applyAll s.writer resp.requests).2 })

/-- One round; every failure leaves the node as it was, or with what `Push` had applied. -/
def performSync (s : Syncer W C) (round : Round) : Syncer W C :=
  let peers := excludeSelf round.members round.self
  match peers[round.choice % peers.length]? with
  | none => s
  | some target =>
    match round.client target with
    | .error _ => s
    | .ok api =>
      match api (s.preparePullRequest round.lease) with
      | .error _ => s
      | .ok resp => if resp.entries.length > 0 ∨ resp.deletions.length > 0 then (s.push resp).2 else s

end Syncer

end Oryx.Entropy
