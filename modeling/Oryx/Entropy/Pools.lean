import Oryx.Entropy.Pull
import Oryx.Library.Runs

/-!
# The pools behind `Pull`

`server.Pull` takes two maps from the pools of the server, and the syncer takes two from its own.
The maps of the syncer are overwritten before they are read and go back as they are. Those of the
server are written in part, and the deferred function clears them, so that every map that lies in
a pool is like a new one. So the history of a server has no influence on what it answers.
-/

namespace Oryx.Entropy
set_option autoImplicit false

open Oryx.Library Oryx.Hashmap Oryx.Mesh Oryx.Writer
open Oryx.Hashmap.ShardedMap (shardID)

/-- `sync.Pool.Get` may return any value that was put into the pool, or a new one. A value that is
never chosen again is one that the garbage collector took. -/
def takeFrom {α : Type} (new : α) (pool : List α) (choice : Nat) : α × List α :=
  match pool[choice]? with
  | some m => (m, pool.eraseIdx choice)
  | none => (new, pool)

/-- The map has the shard ids as its keys and no others, and a slot for every sub-bucket. -/
structure Complete (m : ShardID → Option (List Digest)) : Prop where
  slots : ∀ i, ∃ slice, m (shardID i) = some slice ∧ slice.length = subBucketCount
  only : ∀ id, (∀ i, shardID i ≠ id) → m id = none

/-! ## The handler -/

/-- `serverPools`. -/
structure ServerPools where
  shards : List (ShardID → Option Digest)
  buckets : List (ShardID → Option (List Digest))

/-- The pools of a syncer that `Pull` takes maps from. -/
structure SyncerPools where
  shardMaps : List ShardMap
  bucketMaps : List BucketMap

/-- What the pools hand out during one request, and how the syncer walks its shards in it. -/
structure Draw where
  shards : Nat
  buckets : Nat
  shardMaps : Nat
  bucketMaps : Nat
  order : ShardOrder

/-- `oryx.Database`, as far as `SyncPull` goes: `singleNodeAdapter`, a `cluster.Node`, which may
have no syncer, or anything else that implements the interface. -/
inductive PullDatabase (W C : Type) where
  | single
  | node (syncer : Option (Syncer W C))
  | other (syncPull : PullConfig → Except Error PullResponse)

/-- Every key is deleted. -/
def clearShards (_ : ShardID → Option Digest) : ShardID → Option Digest := newShards

/-- The slices are zeroed, and no key is deleted. -/
def clearBuckets (m : ShardID → Option (List Digest)) : ShardID → Option (List Digest) :=
  fun id => (m id).map fun slice => List.replicate slice.length 0

/-- The state of a server: the database, the pools on both layers, and the maps that the syncer's own
round has taken and not yet put back. -/
structure PullServer (W C : Type) where
  eng : PullDatabase W C
  pools : ServerPools
  syncerPools : SyncerPools
  lent : Option (ShardMap × BucketMap)

/-- What happens to a server: a request, a change of the database, and the two ends of a round that the
syncer starts itself. -/
inductive PullEvent (W C : Type) where
  | pull (req : PullRequest) (draw : Draw)
  | change (eng : PullDatabase W C)
  | prepare (draw : Draw)
  | finish

variable {W C : Type}

/-- The maps that the syncer takes and fills, and what is left in its pools. -/
def SyncerPools.take (pools : SyncerPools) (draw : Draw) : (ShardMap × BucketMap) × SyncerPools :=
  let shards := takeFrom newShardMap pools.shardMaps draw.shardMaps
  let buckets := takeFrom newBucketMap pools.bucketMaps draw.bucketMaps
  ((shards.1, buckets.1), ⟨shards.2, buckets.2⟩)

def SyncerPools.put (pools : SyncerPools) (maps : ShardMap × BucketMap) : SyncerPools :=
  ⟨maps.1 :: pools.shardMaps, maps.2 :: pools.bucketMaps⟩

namespace PullServer

/-- A server that has just been started. -/
def new (eng : PullDatabase W C) : PullServer W C := ⟨eng, ⟨[], []⟩, ⟨[], []⟩, none⟩

section Hashing

variable [Security]

/-- `SyncPull`. The syncer takes no maps when the root digests agree. -/
def syncPull (eng : PullDatabase W C) (pools : SyncerPools) (draw : Draw) (config : PullConfig) :
    Except Error PullResponse × SyncerPools :=
  match eng with
  | .single => (.ok ⟨[], []⟩, pools)
  | .node none => (.ok ⟨[], []⟩, pools)
  | .node (some syncer) =>
    if config.root = syncer.hm.rootDigest then (.ok ⟨[], []⟩, pools)
    else
      let taken := pools.take draw
      (.ok (syncer.pull ⟨taken.1.1, taken.1.2, draw.order, draw.order⟩ config),
        taken.2.put (taken.1.1.fill syncer.hm, taken.1.2.fill syncer.hm))
  | .other syncPull => (syncPull config, pools)

/-- `server.Pull`. The maps are cleared and put back whether `SyncPull` fails or not. -/
def pull (s : PullServer W C) (req : PullRequest) (draw : Draw) : Except Error PullResponse × PullServer W C :=
  let shards := takeFrom newShards s.pools.shards draw.shards
  let buckets := takeFrom newBuckets s.pools.buckets draw.buckets
  let config := fillConfig shards.1 buckets.1 req
  let answer := syncPull s.eng s.syncerPools draw config
  (answer.1,
    { s with
      pools := ⟨clearShards config.shards :: shards.2, clearBuckets config.buckets :: buckets.2⟩
      syncerPools := answer.2 })

/-- `preparePullRequest` of the syncer's own round. There is one such goroutine. -/
def prepare (s : PullServer W C) (draw : Draw) : PullServer W C :=
  match s.eng, s.lent with
  | .node (some syncer), none =>
    let taken := s.syncerPools.take draw
    { s with syncerPools := taken.2, lent := some (taken.1.1.fill syncer.hm, taken.1.2.fill syncer.hm) }
  | _, _ => s

/-- The deferred function of `performSync`. -/
def finish (s : PullServer W C) : PullServer W C :=
  match s.lent with
  | some maps => { s with syncerPools := s.syncerPools.put maps, lent := none }
  | none => s

def step (s : PullServer W C) : PullEvent W C → PullServer W C
  | .pull req draw => (s.pull req draw).2
  | .change eng => { s with eng := eng }
  | .prepare draw => s.prepare draw
  | .finish => s.finish

end Hashing

end PullServer

/-- The same request; the maps in it are walked in another order. -/
structure PullRequest.Reordered (req req' : PullRequest) : Prop where
  nodeId : req.nodeId = req'.nodeId
  rootDigest : req.rootDigest = req'.rootDigest
  shardDigests : req.shardDigests.Perm req'.shardDigests
  subDigests : req.subDigests.Perm req'.subDigests
  shardKeys : (req.shardDigests.map Prod.fst).Nodup
  subKeys : (req.subDigests.map Prod.fst).Nodup

/-- Two answers with the same entries and the same deletions, or with the same error. -/
inductive SameAnswer : Except Error PullResponse → Except Error PullResponse → Prop where
  | ok (r r' : PullResponse) (entries : r.entries.Perm r'.entries) (deletions : r.deletions.Perm r'.deletions) :
      SameAnswer (.ok r) (.ok r')
  | error (err : Error) : SameAnswer (.error err) (.error err)

theorem SameAnswer.refl (answer : Except Error PullResponse) : SameAnswer answer answer := by
  cases answer with
  | ok r => exact .ok r r (List.Perm.refl _) (List.Perm.refl _)
  | error err => exact .error err

/-! ## The maps of the server -/

theorem length_copyInto {γ : Type} (dst src : List γ) : (copyInto dst src).length = dst.length := by
  rw [copyInto, List.length_append, List.length_take, List.length_drop]
  omega

theorem nodup_map_toInt32 {γ : Type} {entries : List (UInt32 × γ)} (nodup : (entries.map Prod.fst).Nodup) :
    (entries.map fun e => e.1.toInt32).Nodup := by
  have nodup' := nodup.map (Function.LeftInverse.injective UInt32.toUInt32_toInt32)
  rwa [List.map_map] at nodup'

/-- The ids of a request stay distinct when they are converted, so the order of its entries is of no account. -/
theorem fillConfig_reordered {req req' : PullRequest} (same : req.Reordered req')
    (shards : ShardID → Option Digest) (buckets : ShardID → Option (List Digest)) :
    fillConfig shards buckets req = fillConfig shards buckets req' := by
  have filled := foldl_update_perm (fun e _ => some e.2) same.shardDigests (nodup_map_toInt32 same.shardKeys) shards
  have copied := foldl_update_perm (fun e dst => dst.map fun dst => copyInto dst e.2) same.subDigests
    (nodup_map_toInt32 same.subKeys) buckets
  simp only [fillConfig, filled, copied, same.nodeId, same.rootDigest]

/-- Copying a request into the slices of a map changes neither its keys nor a length. -/
theorem length_fillConfig (shards : ShardID → Option Digest) (buckets : ShardID → Option (List Digest))
    (req : PullRequest) (id : ShardID) :
    ((fillConfig shards buckets req).buckets id).map List.length = (buckets id).map List.length := by
  unfold fillConfig
  induction req.subDigests generalizing buckets with
  | nil => rfl
  | cons e rest ih =>
    rw [List.foldl_cons, ih]
    by_cases self : id = e.1.toInt32
    · subst self
      rw [Function.update_self, Option.map_map]
      exact congrArg (fun f => Option.map f _) (funext fun dst => length_copyInto dst e.2)
    · rw [Function.update_of_ne self]

theorem clearBuckets_eq (m : ShardID → Option (List Digest)) :
    clearBuckets m = fun id => ((m id).map List.length).map fun n => List.replicate n 0 := by
  funext id
  rw [clearBuckets, Option.map_map]
  rfl

/-- **What the deferred function puts back** is like a new map. -/
theorem clearBuckets_fillConfig (shards : ShardID → Option Digest) (req : PullRequest) :
    clearBuckets (fillConfig shards newBuckets req).buckets = newBuckets := by
  rw [clearBuckets_eq]
  funext id
  rw [length_fillConfig]
  by_cases other : ∀ i, shardID i ≠ id
  · rw [newBuckets_of_ne other]
    rfl
  · obtain ⟨i, same⟩ := not_forall.mp other
    rw [← not_not.mp same, newBuckets_shardID, Option.map_some, Option.map_some, List.length_replicate]

theorem complete_bucketMap (m : BucketMap) : Complete m.get where
  slots i := by
    have long := m.length i
    cases slice : m.get (shardID i) with
    | none => simp [slice, subBucketCount] at long
    | some slice' => exact ⟨slice', rfl, by rwa [slice, Option.getD_some] at long⟩
  only := m.keys

theorem takeFrom_spec {α : Type} {P : α → Prop} {new : α} {pool : List α} (clean : P new) (pooled : ∀ m ∈ pool, P m)
    (choice : Nat) : P (takeFrom new pool choice).1 ∧ ∀ m ∈ (takeFrom new pool choice).2, P m := by
  unfold takeFrom
  cases found : pool[choice]? with
  | none => exact ⟨clean, pooled⟩
  | some m => exact ⟨pooled m (List.mem_of_getElem? found), fun m' left => pooled m' (List.mem_of_mem_eraseIdx left)⟩

/-! ## The answers -/

/-- Requests that are the same up to order are so in each of the two lists. -/
theorem PullResponse.perm_of_requests {r r' : PullResponse} (perm : r.requests.Perm r'.requests) :
    r.entries.Perm r'.entries ∧ r.deletions.Perm r'.deletions := by
  -- a set and a delete are told apart by the tombstone of the value that they write
  have entries (r : PullResponse) : r.requests.filter (fun req => !req.toValue.tombstone) = r.entries.map .set := by
    simp [PullResponse.requests, List.filter_map, Function.comp_def, Request.toValue]
  have deletions (r : PullResponse) :
      r.requests.filter (fun req => req.toValue.tombstone) = r.deletions.map .delete := by
    simp [PullResponse.requests, List.filter_map, Function.comp_def, Request.toValue]
  constructor
  · have sets := perm.filter fun req => !req.toValue.tombstone
    rw [entries, entries] at sets
    exact (List.map_perm_map_iff fun _ _ => Request.set.inj).mp sets
  · have deletes := perm.filter fun req => req.toValue.tombstone
    rw [deletions, deletions] at deletes
    exact (List.map_perm_map_iff fun _ _ => Request.delete.inj).mp deletes

section Hashing

variable [Security]

/-- The maps that the syncer takes from its pools have no influence on its answer. -/
theorem sameAnswer_syncPull (eng : PullDatabase W C) (pools pools' : SyncerPools) (draw draw' : Draw)
    (config : PullConfig) :
    SameAnswer (PullServer.syncPull eng pools draw config).1 (PullServer.syncPull eng pools' draw' config).1 := by
  cases eng with
  | single => exact .refl _
  | other syncPull => exact .refl _
  | node syncer =>
    cases syncer with
    | none => exact .refl _
    | some syncer =>
      by_cases same : config.root = syncer.hm.rootDigest
      · simp only [PullServer.syncPull, if_pos same]
        exact .refl _
      · simp only [PullServer.syncPull, if_neg same]
        have first := Syncer.requests_pull (s := syncer)
          ⟨(pools.take draw).1.1, (pools.take draw).1.2, draw.order, draw.order⟩ same
        have second := Syncer.requests_pull (s := syncer)
          ⟨(pools'.take draw').1.1, (pools'.take draw').1.2, draw'.order, draw'.order⟩ same
        obtain ⟨entries, deletions⟩ := PullResponse.perm_of_requests (first.trans second.symm)
        exact .ok _ _ entries deletions

namespace PullServer

/-- Every map in the pools of the server is like a new one. -/
structure Clean (s : PullServer W C) : Prop where
  shards : ∀ m ∈ s.pools.shards, m = newShards
  buckets : ∀ m ∈ s.pools.buckets, m = newBuckets

theorem Clean.pull {s : PullServer W C} (clean : s.Clean) (req : PullRequest) (draw : Draw) :
    (s.pull req draw).1 =
        (syncPull s.eng s.syncerPools draw (fillConfig newShards newBuckets req)).1 ∧
      (s.pull req draw).2.Clean := by
  obtain ⟨shards, moreShards⟩ := takeFrom_spec (P := (· = newShards)) rfl clean.shards draw.shards
  obtain ⟨buckets, moreBuckets⟩ := takeFrom_spec (P := (· = newBuckets)) rfl clean.buckets draw.buckets
  simp only [PullServer.pull, shards, buckets, true_and]
  constructor
  · exact List.forall_mem_cons.mpr ⟨rfl, moreShards⟩
  · exact List.forall_mem_cons.mpr ⟨clearBuckets_fillConfig newShards req, moreBuckets⟩

/-- **One event** leaves the pools clean. -/
theorem Clean.step {s : PullServer W C} (clean : s.Clean) (event : PullEvent W C) : (s.step event).Clean := by
  cases event with
  | pull req draw => exact (clean.pull req draw).2
  | change eng => exact ⟨clean.shards, clean.buckets⟩
  | prepare draw =>
    rw [PullServer.step, prepare]
    split
    · exact ⟨clean.shards, clean.buckets⟩
    · exact clean
  | finish =>
    rw [PullServer.step, finish]
    split
    · exact ⟨clean.shards, clean.buckets⟩
    · exact clean

omit [Security] in
theorem clean_new (eng : PullDatabase W C) : (new eng).Clean := ⟨nofun, nofun⟩

/-- A new server answers as `serverPull` does with new maps. -/
theorem pull_new (syncer : Syncer W C) (req : PullRequest) (draw : Draw) :
    ((new (.node (some syncer))).pull req draw).1 =
      .ok (serverPull syncer newBucketMap ⟨newShardMap, newBucketMap, draw.order, draw.order⟩ req) := by
  rw [((clean_new _).pull req draw).1]
  simp only [new, syncPull]
  by_cases same : (fillConfig newShards newBuckets req).root = syncer.hm.rootDigest
  · rw [if_pos same]
    exact congrArg Except.ok (if_pos same).symm
  · rw [if_neg same]
    rfl

end PullServer

/-- **Nothing leaks between requests**: after any history, any request is answered as a server would
answer it that was just started with the same database, whatever maps the pools hand out and in
whatever order the maps are walked; and every bucket map in a pool is complete. -/
theorem pull_as_new (eng : PullDatabase W C) (history : List (PullEvent W C)) :
    let s := runFrom PullServer.step (PullServer.new eng) history
    (∀ req req' draw draw', req.Reordered req' →
        SameAnswer (s.pull req draw).1 ((PullServer.new s.eng).pull req' draw').1) ∧
      (∀ m ∈ s.pools.buckets, Complete m) ∧ ∀ m ∈ s.syncerPools.bucketMaps, Complete m.get := by
  intro s
  have clean : s.Clean := runFrom_invariant (I := fun _ s => PullServer.Clean s) (PullServer.clean_new eng)
    (fun _ _ event clean => clean.step event) history
  refine ⟨fun req req' draw draw' same => ?_, fun m pooled => ?_, fun m _ => complete_bucketMap m⟩
  · rw [(clean.pull req draw).1, ((PullServer.clean_new s.eng).pull req' draw').1, fillConfig_reordered same]
    exact sameAnswer_syncPull ..
  · rw [clean.buckets m pooled]
    exact complete_bucketMap newBucketMap

end Hashing

open Reference

/-- A request with a short slice and with ids that belong to no shard. -/
def crowdedRequest : PullRequest := ⟨[97], 5, [(3, 1), (200, 2)], [(3, [7, 8]), (4294967295, [9])]⟩

def crowdedReordered : PullRequest := ⟨[97], 5, [(200, 2), (3, 1)], [(4294967295, [9]), (3, [7, 8])]⟩

def firstDraw : Draw := ⟨0, 0, 0, 0, freshLease.shardOrder⟩

/-- Requests that are answered and one that fails, and a round of the syncer that is still going on. -/
def busyHistory : List (PullEvent NopWal MockStorageClock) :=
  [.pull crowdedRequest firstDraw, .change (.other fun _ => .error (ascii "unavailable")), .pull crowdedRequest firstDraw,
    .change (.node (some responder)), .pull crowdedReordered firstDraw, .prepare firstDraw]

theorem pull_as_new_busy :
    let s := runFrom PullServer.step (PullServer.new (.node (some responder))) busyHistory
    SameAnswer (s.pull crowdedRequest firstDraw).1 ((PullServer.new s.eng).pull crowdedReordered firstDraw).1 :=
  (pull_as_new (.node (some responder)) busyHistory).1 crowdedRequest crowdedReordered firstDraw firstDraw
    ⟨rfl, rfl, by decide, by decide, by decide, by decide⟩

end Oryx.Entropy
