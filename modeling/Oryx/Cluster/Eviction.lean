import Oryx.Clock.System
import Oryx.Wal.Protobuf
import Oryx.Engine.Operations
import Oryx.Entropy.Round

/-!
# Capacity evictions in a cluster

Nodes with an engine each: `Node.Set` and `Node.Delete` of `cluster/node.go`, which draw
a timestamp and hand a request to every owner (`Gateway.Set`, `Gateway.Delete`), capacity
evictions, restarts, and anti-entropy rounds between any two nodes. A request for an owner
is on its way until it is delivered, which may never happen; the probe with which `Delete`
finds its answer only reads.

A capacity eviction drops the key from the node's map, but writes a Delete record to its
log. A restart reads that record as a tombstone, unless the key was written there later,
and a round takes the tombstone to the other nodes.
-/

namespace Oryx.Cluster
set_option autoImplicit false
open Oryx.Library Oryx.Hashmap Oryx.Writer Oryx.Core Oryx.Entropy Oryx.Mesh Oryx.Hlc

/-- What a node is started with. -/
structure Setup where
  config : Config
  ring : HashRing
  replicationFactor : Int

/-- A node; no step reads the requests it was asked to apply and the Delete records of
its evictions. -/
structure Node (count : Nat) (C : Type) where
  setup : Setup
  core : Engine count C
  heard : List Request
  dropped : List DeleteRequest

/-- The nodes, the requests on their way, and the keys for which a `Delete` was issued. -/
structure ClusterState (count : Nat) (C : Type) where
  nodes : NodeID → Node count C
  network : List (NodeID × Request)
  deleted : List Key

inductive ClusterAction (C : Type) where
  | set (id : NodeID) (key : Key) (value : Bytes)
  | delete (id : NodeID) (key : Key)
  /-- a request reaches its owner -/
  | deliver (i : Nat)
  | evict (id : NodeID) (key : Key)
  | restart (id : NodeID) (clock : C) (choices : Choices)
  | sync (id peer : NodeID) (round : Round)

/-- The round with `peer` at the other end of its connections. -/
def facing [Security] {W C : Type} (round : Round) (peer : Syncer W C) : Round :=
  { round with
    client := fun target => (round.client target).map fun api req =>
      (api req).map fun _ => serverPull peer round.peerBuckets round.peerLease req }

section Clusters

variable {count : Nat} {C : Type} [NeZero count] [Security] [Proto] [Clocker C]

namespace Node

def owners (n : Node count C) (key : Key) : List NodeID :=
  n.setup.ring.getOwners key (if n.setup.replicationFactor ≤ 0 then 1 else n.setup.replicationFactor)

def syncer (n : Node count C) (id : NodeID) : Syncer (EngineWal count) C :=
  ⟨n.core.sw, n.setup.ring, n.setup.replicationFactor, false, id⟩

def tick (n : Node count C) : Node count C := { n with core := n.core.tick.2 }

def apply (n : Node count C) (r : Request) : Node count C :=
  { n with core := (n.core.apply r).2, heard := n.heard ++ [r] }

def evict (n : Node count C) (key : Key) : Node count C :=
  { n with
    core := (n.core.evict key .capacity).2
    dropped := n.dropped ++ [⟨key, n.core.tick.1, n.core.nodeID⟩] }

def restart (n : Node count C) (clock : C) (choices : Choices) : Node count C :=
  { n with core := n.core.restart n.setup.config clock choices }

def sync (n : Node count C) (id : NodeID) (round : Round) : Node count C :=
  { n with
    core := { n.core with sw := ((n.syncer id).performSync round).writer }
    heard := n.heard ++ (n.syncer id).pulled round }

/-- Every eviction of a key that no client has deleted is older than a write the node
was asked to apply. -/
def Outlived (n : Node count C) (deleted : List Key) : Prop :=
  n.setup.config.replays = true → ∀ e ∈ n.dropped, e.key ∈ deleted ∨
    ∃ r ∈ n.heard, r.key = e.key ∧ e.timestamp < r.timestamp

instance (n : Node count C) (deleted : List Key) : Decidable (n.Outlived deleted) :=
  inferInstanceAs (Decidable (_ → ∀ e ∈ n.dropped, _ ∨ ∃ r ∈ n.heard, _ ∧ _))

end Node

namespace ClusterState

def put (s : ClusterState count C) (id : NodeID) (n : Node count C) : ClusterState count C :=
  { s with nodes := Function.update s.nodes id n }

/-- `gw.Set` and `gw.Delete` with `clock.Now`: the same request for every owner. -/
def issue (s : ClusterState count C) (id : NodeID) (key : Key) (request : Int64 → Request) : ClusterState count C :=
  { s.put id (s.nodes id).tick with
    network := s.network ++ ((s.nodes id).owners key).map fun owner => (owner, request (s.nodes id).core.tick.1) }

/-- The round of node `id` with node `peer`. -/
def between (s : ClusterState count C) (peer : NodeID) (round : Round) : Round :=
  facing round ((s.nodes peer).syncer peer)

def step (s : ClusterState count C) : ClusterAction C → ClusterState count C
  | .set id key value => s.issue id key fun ts => .set ⟨key, value, ts, id⟩
  | .delete id key => { s.issue id key fun ts => .delete ⟨key, ts, id⟩ with deleted := s.deleted ++ [key] }
  | .deliver i =>
    match s.network[i]? with
    | none => s
    | some (owner, r) => { s.put owner ((s.nodes owner).apply r) with network := s.network.eraseIdx i }
  | .evict id key => s.put id ((s.nodes id).evict key)
  | .restart id clock choices => s.put id ((s.nodes id).restart clock choices)
  | .sync id peer round => s.put id ((s.nodes id).sync id (s.between peer round))

/-- Every node starts on an empty disk. -/
def start (setup : NodeID → Setup) (clock : NodeID → C) (choices : NodeID → Choices) : ClusterState count C where
  nodes id := ⟨setup id, newEngine count (setup id).config (clock id) (.logOnly fun _ => []) (choices id), [], []⟩
  network := []
  deleted := []

/-- The requests that a step may write to a log. -/
def writes (s : ClusterState count C) : ClusterAction C → List Request
  | .deliver i => s.network[i]?.toList.map Prod.snd
  | .evict id key => [.delete ⟨key, (s.nodes id).core.tick.1, (s.nodes id).core.nodeID⟩]
  | .sync id peer round => ((s.nodes id).syncer id).pulled (s.between peer round)
  | .set _ _ _ | .delete _ _ | .restart _ _ _ => []

def Encodes (s : ClusterState count C) (a : ClusterAction C) : Prop := ∀ r ∈ s.writes a, Faithful r

instance (s : ClusterState count C) (a : ClusterAction C) : Decidable (s.Encodes a) :=
  inferInstanceAs (Decidable (∀ r ∈ s.writes a, Faithful r))

/-- What a node has evicted is outlived when it restarts. -/
def Outlived (s : ClusterState count C) : ClusterAction C → Prop
  | .restart id _ _ => (s.nodes id).Outlived s.deleted
  | _ => True

instance (s : ClusterState count C) : DecidablePred s.Outlived
  | .restart id _ _ => inferInstanceAs (Decidable ((s.nodes id).Outlived s.deleted))
  | .set _ _ _ | .delete _ _ | .deliver _ | .evict _ _ | .sync _ _ _ => isTrue trivial

/-- The step takes the key out of the node's own cache: it evicts it there, or it
restarts a node that does not replay its log. -/
def Forgets (s : ClusterState count C) (id : NodeID) (key : Key) : ClusterAction C → Prop
  | .evict id' key' => id' = id ∧ key' = key
  | .restart id' _ _ => id' = id ∧ (s.nodes id).setup.config.replays = false
  | _ => False

/-- A key that no client has deleted stays on every node but one that takes it out of its own cache. -/
def Spares (s : ClusterState count C) (a : ClusterAction C) : Prop :=
  ∀ id key, (s.nodes id).core.live key = true → key ∉ (s.step a).deleted → ¬s.Forgets id key a →
    ((s.step a).nodes id).core.live key = true

/-- A node holds a tombstone only for a key that a client has deleted. -/
def Authorized (s : ClusterState count C) : Prop :=
  ∀ id key v, (s.nodes id).core.sw.hm.cell hashFunc key = some v → v.tombstone = true → key ∈ s.deleted

end ClusterState

/-! ## One node -/

/-- The logs have a record of the key with this timestamp or a later one. -/
def Covers (logs : Fin count → List Request) (key : Key) (ts : Int64) : Prop :=
  ∃ r ∈ logs (Wal.segmentOf key), r.key = key ∧ ts ≤ r.timestamp

omit [Proto] in
theorem Covers.logged {logs : Fin count → List Request} {key : Key} {ts : Int64} (covers : Covers logs key ts)
    (r : Request) : Covers (Wal.logged logs r) key ts := by
  obtain ⟨r', member, same, late⟩ := covers
  exact ⟨r', Wal.mem_logged.mpr (Or.inl member), same, late⟩

omit [Proto] in
theorem covers_self (logs : Fin count → List Request) (r : Request) :
    Covers (Wal.logged logs r) r.key r.timestamp :=
  ⟨r, Wal.mem_logged.mpr (Or.inr ⟨rfl, rfl⟩), rfl, le_refl _⟩

namespace Node

/-- The node's log: it has what the node was asked to apply, or something later, and
what the node holds. -/
structure Recorded (n : Node count C) (logs : Fin count → List Request) : Prop where
  holds : n.core.Holds logs
  logged : ∀ i, ∀ r ∈ logs i, r ∈ n.heard ∨ ∃ e ∈ n.dropped, r = .delete e
  heard : ∀ r ∈ n.heard, Covers logs r.key r.timestamp
  held : ∀ key v, n.core.sw.hm.cell hashFunc key = some v → Covers logs key v.timestamp

structure Sound (n : Node count C) (deleted : List Key) : Prop where
  inv : n.core.sw.hm.Inv hashFunc
  authorized : ∀ key v, n.core.sw.hm.cell hashFunc key = some v → v.tombstone = true → key ∈ deleted
  heard : ∀ r ∈ n.heard, r.toValue.tombstone = true → r.key ∈ deleted
  recorded : n.setup.config.replays = true → ∃ logs, n.Recorded logs

variable {n : Node count C} {deleted : List Key}

omit [Clocker C] in
theorem Sound.mono (sound : n.Sound deleted) {deleted' : List Key} (grows : deleted ⊆ deleted') : n.Sound deleted' where
  inv := sound.inv
  authorized key v held dead := grows (sound.authorized key v held dead)
  heard r member dead := grows (sound.heard r member dead)
  recorded := sound.recorded

theorem Sound.tick (sound : n.Sound deleted) : n.tick.Sound deleted where
  inv := sound.inv
  authorized := sound.authorized
  heard := sound.heard
  recorded on := by
    obtain ⟨logs, recorded⟩ := sound.recorded on
    exact ⟨logs, recorded.holds, recorded.logged, recorded.heard, recorded.held⟩

theorem Recorded.apply {logs : Fin count → List Request} (recorded : n.Recorded logs)
    (inv : n.core.sw.hm.Inv hashFunc) {r : Request} (faithful : Faithful r) : ∃ logs', (n.apply r).Recorded logs' := by
  have holds := (recorded.holds.apply faithful).2
  have map : (n.apply r).core.sw.hm = (merge n.core.sw.hm r).1 := Engine.hm_apply n.core r
  cases accepted : (merge n.core.sw.hm r).2 with
  | true =>
    rw [accepted, if_pos rfl] at holds
    refine ⟨_, holds, fun i r' member => ?_, fun r' member => ?_, fun key v held => ?_⟩
    · rcases Wal.mem_logged.mp member with old | ⟨rfl, -⟩
      · exact (recorded.logged i r' old).imp_left (List.mem_append_left _)
      · exact Or.inl (List.mem_append_right _ (List.mem_singleton_self _))
    · rcases List.mem_append.mp member with old | last
      · exact (recorded.heard r' old).logged r
      · rw [List.mem_singleton.mp last]
        exact covers_self logs r
    · rw [map] at held
      by_cases same : key = r.key
      · subst same
        rw [cell_merge_accepted inv accepted] at held
        rw [← Option.some.inj held, record_timestamp]
        exact covers_self logs r
      · rw [cell_merge inv, Function.update_of_ne same] at held
        exact (recorded.held key v held).logged r
  | false =>
    rw [accepted, if_neg Bool.false_ne_true] at holds
    rw [merge_stale inv accepted] at map
    refine ⟨logs, holds, fun i r' member => (recorded.logged i r' member).imp_left (List.mem_append_left _),
      fun r' member => ?_, fun key v held => recorded.held key v (map ▸ held)⟩
    rcases List.mem_append.mp member with old | last
    · exact recorded.heard r' old
    · rw [List.mem_singleton.mp last]
      obtain ⟨v, held, above⟩ := exists_above_stale inv accepted
      obtain ⟨r', inLog, same, late⟩ := recorded.held r.key v held
      have below := timestamp_le_of_rank_le above
      rw [record_timestamp] at below
      exact ⟨r', inLog, same, below.trans late⟩

/-- **A request** that a client has issued. -/
theorem Sound.apply (sound : n.Sound deleted) {r : Request} (faithful : Faithful r)
    (issued : r.toValue.tombstone = true → r.key ∈ deleted) : (n.apply r).Sound deleted := by
  have map : (n.apply r).core.sw.hm = (merge n.core.sw.hm r).1 := Engine.hm_apply n.core r
  refine ⟨map ▸ inv_merge sound.inv r, fun key v held dead => ?_, fun r' member dead => ?_, fun on => ?_⟩
  · rw [map] at held
    cases accepted : (merge n.core.sw.hm r).2 with
    | false =>
      rw [merge_stale sound.inv accepted] at held
      exact sound.authorized key v held dead
    | true =>
      by_cases same : key = r.key
      · subst same
        rw [cell_merge_accepted sound.inv accepted] at held
        rw [← Option.some.inj held] at dead
        exact issued dead
      · rw [cell_merge sound.inv, Function.update_of_ne same] at held
        exact sound.authorized key v held dead
  · rcases List.mem_append.mp member with old | last
    · exact sound.heard r' old dead
    · rw [List.mem_singleton.mp last] at dead ⊢
      exact issued dead
  · obtain ⟨logs, recorded⟩ := sound.recorded on
    exact recorded.apply sound.inv faithful

theorem Sound.applyAll {reqs : List Request} (faithful : ∀ r ∈ reqs, Faithful r)
    (issued : ∀ r ∈ reqs, r.toValue.tombstone = true → r.key ∈ deleted) (sound : n.Sound deleted) :
    (reqs.foldl Node.apply n).Sound deleted := by
  induction reqs generalizing n with
  | nil => exact sound
  | cons r rest ih =>
    rw [List.forall_mem_cons] at faithful issued
    exact ih faithful.2 issued.2 (sound.apply faithful.1 issued.1)

theorem cell_evict (inv : n.core.sw.hm.Inv hashFunc) (key : Key) :
    (n.evict key).core.sw.hm.Inv hashFunc ∧
      (n.evict key).core.sw.hm.cell hashFunc = Function.update (n.core.sw.hm.cell hashFunc) key none := by
  have ticked : n.core.tick.2.sw.hm.Inv hashFunc := inv
  exact Engine.evictMap_spec ticked .capacity ⟨key, n.core.tick.1, n.core.nodeID⟩

/-- **An eviction** leaves no tombstone in the map. -/
theorem Sound.evict (sound : n.Sound deleted) {key : Key}
    (faithful : Faithful (.delete ⟨key, n.core.tick.1, n.core.nodeID⟩)) : (n.evict key).Sound deleted := by
  obtain ⟨inv, cells⟩ := cell_evict sound.inv key
  have old {key' : Key} {v : Value} (held : (n.evict key).core.sw.hm.cell hashFunc key' = some v) :
      n.core.sw.hm.cell hashFunc key' = some v := by
    rw [cells] at held
    by_cases same : key' = key
    · rw [same, Function.update_self] at held
      cases held
    · rwa [Function.update_of_ne same] at held
  refine ⟨inv, fun key' v held dead => sound.authorized key' v (old held) dead, sound.heard, fun on => ?_⟩
  obtain ⟨logs, recorded⟩ := sound.recorded on
  have holds : (n.core.tick.2.evictMap .capacity ⟨key, n.core.tick.1, n.core.nodeID⟩).Holds logs := recorded.holds
  refine ⟨_, (holds.publish faithful).2, fun i r member => ?_, fun r member => (recorded.heard r member).logged _,
    fun key' v held => (recorded.held key' v (old held)).logged _⟩
  rcases Wal.mem_logged.mp member with before | ⟨rfl, -⟩
  · exact (recorded.logged i r before).imp_right fun ⟨e, dropped, same⟩ => ⟨e, List.mem_append_left _ dropped, same⟩
  · exact Or.inr ⟨_, List.mem_append_right _ (List.mem_singleton_self _), rfl⟩

omit [Clocker C] in
/-- What is recovered under a key is a record of the log that no other is later than. -/
theorem Recorded.recovered {logs : Fin count → List Request} (recorded : n.Recorded logs)
    (on : n.setup.config.replays = true) {clock : C} {choices : Choices} {key : Key} {v : Value}
    (held : (n.restart clock choices).core.sw.hm.cell hashFunc key = some v) :
    ∃ r ∈ logs (Wal.segmentOf key), r.key = key ∧ v.timestamp = r.timestamp ∧
      v.tombstone = r.toValue.tombstone ∧ ∀ ts, Covers logs key ts → ts ≤ r.timestamp := by
  have slot := ((recorded.holds.restart on clock choices).2 key).symm.trans held
  rcases replaySlot_cases (logs (Wal.segmentOf key)) key with ⟨empty, -⟩ | ⟨r, inLog, same, latest, full⟩
  · rw [empty] at slot
    cases slot
  · rw [full] at slot
    obtain rfl := Option.some.inj slot
    refine ⟨r, inLog, same, ?_, ?_, ?_⟩
    · cases r <;> rfl
    · cases r <;> rfl
    · rintro ts ⟨r', member, key', late⟩
      exact late.trans (latest r' member key')

omit [Clocker C] in
theorem Recorded.restart {logs : Fin count → List Request} (recorded : n.Recorded logs)
    (on : n.setup.config.replays = true) (clock : C) (choices : Choices) :
    (n.restart clock choices).Recorded logs where
  holds := (recorded.holds.restart on clock choices).1
  logged := recorded.logged
  heard := recorded.heard
  held key v held := by
    obtain ⟨r, inLog, same, timestamp, -⟩ := recorded.recovered on held
    exact ⟨r, inLog, same, timestamp.le⟩

omit [Clocker C] in
/-- A node that replays its log has every key that it held. -/
theorem Recorded.held_restart {logs : Fin count → List Request} (recorded : n.Recorded logs)
    (on : n.setup.config.replays = true) (clock : C) (choices : Choices) {key : Key}
    (held : n.core.sw.hm.cell hashFunc key ≠ none) : (n.restart clock choices).core.sw.hm.cell hashFunc key ≠ none := by
  obtain ⟨v, isHeld⟩ := Option.ne_none_iff_exists'.mp held
  obtain ⟨r, inLog, same, -⟩ := recorded.held key v isHeld
  rw [Node.restart, (recorded.holds.restart on clock choices).2 key]
  rcases replaySlot_cases (logs (Wal.segmentOf key)) key with ⟨-, unseen⟩ | ⟨r, -, -, -, full⟩
  · exact absurd same (unseen r inLog)
  · rw [full]
    exact Option.some_ne_none _

omit [Clocker C] in
/-- **A restart** recovers no tombstone of an eviction when what was evicted is outlived. -/
theorem Sound.restart (sound : n.Sound deleted) (outlived : n.Outlived deleted) (clock : C) (choices : Choices) :
    (n.restart clock choices).Sound deleted := by
  refine ⟨Engine.restart_inv .., fun key v held dead => ?_, sound.heard, fun on => ?_⟩
  · cases on : n.setup.config.replays with
    | false =>
      rw [Node.restart, Engine.hm_restart_off _ on, ShardedMap.cell_new] at held
      cases held
    | true =>
      obtain ⟨logs, recorded⟩ := sound.recorded on
      obtain ⟨r, inLog, rfl, -, tombstone, latest⟩ := recorded.recovered on held
      rcases recorded.logged _ r inLog with heard | ⟨e, dropped, rfl⟩
      · exact sound.heard r heard (tombstone ▸ dead)
      · -- a write later than the eviction is in the log, or something later still
        refine (outlived on e dropped).resolve_right ?_
        rintro ⟨r, heard, same, later⟩
        have covers := recorded.heard r heard
        rw [same] at covers
        exact absurd (latest _ covers) (not_le.mpr later)
  · obtain ⟨logs, recorded⟩ := sound.recorded on
    exact ⟨logs, recorded.restart on clock choices⟩

theorem foldl_apply (n : Node count C) (reqs : List Request) :
    reqs.foldl Node.apply n =
      { n with core := { n.core with sw := n.core.sw.run reqs }, heard := n.heard ++ reqs } := by
  induction reqs generalizing n with
  | nil => simp [StorageWriter.run]
  | cons r rest ih =>
    rw [List.foldl_cons, ih]
    simp [Node.apply, Engine.apply, StorageWriter.run]

theorem published_of_faithful {sw : StorageWriter (EngineWal count) C} {reqs : List Request}
    (faithful : ∀ r ∈ reqs, Faithful r) : Published sw reqs := by
  induction reqs generalizing sw with
  | nil => trivial
  | cons r rest ih =>
    rw [List.forall_mem_cons] at faithful
    exact ⟨Engine.apply_ok sw faithful.1, ih faithful.2⟩

/-- A round is the requests it brings, one after the other. -/
theorem sync_eq {id : NodeID} {round : Round} (faithful : ∀ r ∈ (n.syncer id).pulled round, Faithful r) :
    n.sync id round = ((n.syncer id).pulled round).foldl Node.apply n := by
  have published : Published n.core.sw ((n.syncer id).pulled round) := published_of_faithful faithful
  have writer : (n.syncer id).writer = n.core.sw := rfl
  rw [Node.sync, performSync_eq_applyAll, foldl_apply, writer, applyAll_of_published published]

/-! ### Keys that stay -/

/-- The node has a record of the key, a tombstone perhaps. -/
def Has (n : Node count C) (key : Key) : Prop := n.core.sw.hm.cell hashFunc key ≠ none

theorem Has.apply {key : Key} (has : n.Has key) (inv : n.core.sw.hm.Inv hashFunc) (r : Request) :
    (n.apply r).Has key := by
  have map : (n.apply r).core.sw.hm = (merge n.core.sw.hm r).1 := Engine.hm_apply n.core r
  rw [Has, map, cell_merge inv]
  by_cases same : key = r.key
  · rw [same, Function.update_self]
    apply LastWriter.adopt_ne_none
  · rwa [Function.update_of_ne same]

theorem Has.applyAll {key : Key} {reqs : List Request} (has : n.Has key) (inv : n.core.sw.hm.Inv hashFunc) :
    (reqs.foldl Node.apply n).Has key := by
  induction reqs generalizing n with
  | nil => exact has
  | cons r rest ih =>
    have map : (n.apply r).core.sw.hm = (merge n.core.sw.hm r).1 := Engine.hm_apply n.core r
    exact ih (has.apply inv r) (map ▸ inv_merge inv r)

theorem Has.evict {key key' : Key} (has : n.Has key) (inv : n.core.sw.hm.Inv hashFunc) (other : key' ≠ key) :
    (n.evict key').Has key := by
  rw [Has, (cell_evict inv key').2, Function.update_of_ne other.symm]
  exact has

omit [Clocker C] in
/-- A record of a key that no client has deleted is a value. -/
theorem Sound.live_iff (sound : n.Sound deleted) {key : Key} (undeleted : key ∉ deleted) :
    n.core.live key = true ↔ n.Has key := by
  rw [Engine.live_iff sound.inv, Has, Option.ne_none_iff_exists']
  refine exists_congr fun v => and_iff_left_of_imp fun held => ?_
  exact Bool.eq_false_iff.mpr fun dead => undeleted (sound.authorized key v held dead)

end Node

/-! ## The cluster -/

omit [NeZero count] [Proto] [Clocker C] in
theorem mem_response_of_pulled {a : Syncer (EngineWal count) C} {peer : Syncer (EngineWal count) C} {round : Round}
    {r : Request} (pulled : r ∈ a.pulled (facing round peer)) : r ∈ (round.response a peer).requests := by
  simp only [Syncer.pulled, facing] at pulled
  split at pulled
  · cases pulled
  rename_i target _
  rcases connected : round.client target with _ | api
  · simp only [connected, Except.map, List.not_mem_nil] at pulled
  rcases answer : api (a.preparePullRequest round.lease) with _ | resp
  · simp only [connected, Except.map, answer, List.not_mem_nil] at pulled
  · simpa only [connected, Except.map, answer, Round.response] using pulled

namespace ClusterState

structure Sound (s : ClusterState count C) : Prop where
  nodes : ∀ id, (s.nodes id).Sound s.deleted
  network : ∀ m ∈ s.network, m.2.toValue.tombstone = true → m.2.key ∈ s.deleted

variable {s : ClusterState count C} {a : ClusterAction C}

omit [Clocker C] in
theorem Sound.start (setup : NodeID → Setup) (clock : NodeID → C) (choices : NodeID → Choices) :
    (start setup clock choices : ClusterState count C).Sound where
  nodes id := by
    refine ⟨newEngine_inv .., fun key v held => ?_, nofun,
      fun on => ⟨_, .start (Config.wal_of_replays on) _ _, by simp, nofun, fun key v held => ?_⟩⟩
    · rw [ClusterState.start, hm_newEngine_new, ShardedMap.cell_new] at held
      cases held
    · rw [ClusterState.start, hm_newEngine_new, ShardedMap.cell_new] at held
      cases held
  network := nofun

omit [Clocker C] in
theorem Sound.put (sound : s.Sound) {id : NodeID} {n : Node count C} (node : n.Sound s.deleted) :
    (s.put id n).Sound where
  nodes := (Function.forall_update_iff s.nodes fun _ n => n.Sound s.deleted).mpr ⟨node, fun id _ => sound.nodes id⟩
  network := sound.network

theorem Sound.issue (sound : s.Sound) {id : NodeID} {key : Key} {request : Int64 → Request} {deleted : List Key}
    (grows : s.deleted ⊆ deleted)
    (issued : ∀ ts, (request ts).toValue.tombstone = true → (request ts).key ∈ deleted) :
    Sound { s.issue id key request with deleted := deleted } where
  nodes := (Function.forall_update_iff s.nodes fun _ n => n.Sound deleted).mpr
    ⟨((sound.nodes id).mono grows).tick, fun id _ => (sound.nodes id).mono grows⟩
  network m member dead := by
    rcases List.mem_append.mp member with old | new
    · exact grows (sound.network m old dead)
    · obtain ⟨owner, -, rfl⟩ := List.mem_map.mp new
      exact issued _ dead

omit [Clocker C] in
/-- A round brings tombstones that the peer has. -/
theorem Sound.pulled (sound : s.Sound) {id peer : NodeID} {round : Round} {r : Request}
    (pulled : r ∈ ((s.nodes id).syncer id).pulled (s.between peer round)) (dead : r.toValue.tombstone = true) :
    r.key ∈ s.deleted := by
  obtain ⟨i, b, -, ⟨key, v⟩, member, -, rfl⟩ := mem_requests_serverPull.mp (mem_response_of_pulled pulled)
  obtain ⟨held, -, -⟩ := (sound.nodes peer).inv.mem_entriesOf.mp member
  rw [key_requestOf]
  refine (sound.nodes peer).authorized key v held ?_
  cases tombstone : v.tombstone with
  | true => rfl
  | false => simp [requestOf, tombstone, buildSetRequest, Request.toValue] at dead

/-- **One step.** -/
theorem Sound.step (sound : s.Sound) (encodes : s.Encodes a) (outlived : s.Outlived a) : (s.step a).Sound := by
  cases a with
  | set id key value =>
    have issued : Sound { s.issue id key (fun ts => .set ⟨key, value, ts, id⟩) with deleted := s.deleted } :=
      sound.issue (List.Subset.refl _) fun _ => nofun
    exact issued
  | delete id key =>
    exact sound.issue (List.subset_append_left ..) fun _ _ => List.mem_append_right _ (List.mem_singleton_self _)
  | deliver i =>
    rw [ClusterState.step]
    cases message : s.network[i]? with
    | none => exact sound
    | some m =>
      obtain ⟨owner, r⟩ := m
      have faithful : Faithful r := encodes r (by simp [writes, message])
      have put : (s.put owner ((s.nodes owner).apply r)).Sound :=
        sound.put ((sound.nodes owner).apply faithful (sound.network _ (List.mem_of_getElem? message)))
      exact ⟨put.nodes, fun m member => sound.network m (List.mem_of_mem_eraseIdx member)⟩
  | evict id key => exact sound.put ((sound.nodes id).evict (encodes _ (List.mem_singleton_self _)))
  | restart id clock choices => exact sound.put ((sound.nodes id).restart outlived clock choices)
  | sync id peer round =>
    refine sound.put ?_
    rw [Node.sync_eq encodes]
    exact (sound.nodes id).applyAll encodes fun r pulled => sound.pulled pulled

omit [NeZero count] [Security] [Proto] [Clocker C] in
theorem nodes_put (s : ClusterState count C) (id : NodeID) (n : Node count C) : (s.put id n).nodes id = n :=
  Function.update_self ..

omit [NeZero count] [Proto] [Clocker C] in
theorem has_put {id id' : NodeID} {key : Key} {n : Node count C} (has : (s.nodes id).Has key)
    (changed : id' = id → n.Has key) : ((s.put id' n).nodes id).Has key := by
  by_cases same : id' = id
  · subst same
    rw [nodes_put]
    exact changed rfl
  · have other : (s.put id' n).nodes id = s.nodes id := Function.update_of_ne (Ne.symm same) ..
    rwa [other]

/-- A key stays on a node that does not take it out of its own cache. -/
theorem Sound.has_step (sound : s.Sound) (encodes : s.Encodes a) {id : NodeID} {key : Key}
    (has : (s.nodes id).Has key) (kept : ¬s.Forgets id key a) : ((s.step a).nodes id).Has key := by
  cases a with
  | set id' key' value => exact has_put has fun same => same ▸ has
  | delete id' key' => exact has_put has fun same => same ▸ has
  | deliver i =>
    rw [ClusterState.step]
    cases s.network[i]? with
    | none => exact has
    | some m => exact has_put has fun same => same ▸ has.apply (sound.nodes id).inv m.2
  | evict id' key' =>
    refine has_put has ?_
    rintro rfl
    exact has.evict (sound.nodes id').inv fun same => kept ⟨rfl, same⟩
  | restart id' clock choices =>
    refine has_put has ?_
    rintro rfl
    have on : (s.nodes id').setup.config.replays = true := by
      by_contra off
      exact kept ⟨rfl, Bool.eq_false_iff.mpr off⟩
    obtain ⟨logs, recorded⟩ := (sound.nodes id').recorded on
    exact recorded.held_restart on clock choices has
  | sync id' peer round =>
    refine has_put has ?_
    rintro rfl
    rw [Node.sync_eq encodes]
    exact has.applyAll (sound.nodes id').inv

theorem deleted_step (s : ClusterState count C) (a : ClusterAction C) : s.deleted ⊆ (s.step a).deleted := by
  cases a with
  | delete id key => exact List.subset_append_left ..
  | deliver i =>
    rw [step]
    cases s.network[i]? with
    | none => exact List.Subset.refl _
    | some m => exact List.Subset.refl _
  | set | evict | restart | sync => exact List.Subset.refl _

theorem Sound.spares (sound : s.Sound) (encodes : s.Encodes a) (outlived : s.Outlived a) : s.Spares a := by
  intro id key live undeleted kept
  have before := ((sound.nodes id).live_iff fun deleted => undeleted (deleted_step s a deleted)).mp live
  exact (((sound.step encodes outlived).nodes id).live_iff undeleted).mpr (sound.has_step encodes before kept)

/-- **A capacity eviction stays local** in every run in which a node restarts only when
what it has evicted is outlived: tombstones are those of clients, and a key that no
client has deleted leaves no node but one that takes it out of its own cache. -/
theorem eviction_stays_local (setup : NodeID → Setup) (clock : NodeID → C) (choices : NodeID → Choices)
    {actions : List (ClusterAction C)}
    (encodes : Along step Encodes (start setup clock choices : ClusterState count C) actions)
    (outlived : Along step Outlived (start setup clock choices : ClusterState count C) actions) :
    (runFrom step (start setup clock choices : ClusterState count C) actions).Authorized ∧
      Along step Spares (start setup clock choices : ClusterState count C) actions := by
  have both := encodes.and outlived
  constructor
  · have sound := Along.invariant (I := fun (_ : List (ClusterAction C)) (s : ClusterState count C) => s.Sound)
      (.start setup clock choices) (fun _ _ _ sound here => sound.step here.1 here.2) both
    exact fun id => (sound.nodes id).authorized
  · exact Along.imp (I := fun s : ClusterState count C => s.Sound) (fun _ _ sound here => sound.step here.1 here.2)
      (fun _ _ sound here => sound.spares here.1 here.2) (.start setup clock choices) both

end ClusterState

end Clusters

open Reference Protobuf

/-- Two nodes that own every key. -/
def replicaPair : ClusterState 1 SystemClock :=
  .start (fun _ => ⟨durable, pairRing, 2⟩) (fun _ => steadyClock) fun _ => .plain

/-- A `Set` at the first node that reaches both. -/
def replicated (value : Bytes) : List (ClusterAction SystemClock) :=
  [.set [97] [107] value, .deliver 0, .deliver 0]

theorem eviction_stays_local_rewritten :
    let actions := replicated [1] ++ [.evict [97] [107]] ++ replicated [2] ++ [.restart [97] steadyClock .plain]
    (runFrom ClusterState.step replicaPair actions).Authorized ∧
      Along ClusterState.step ClusterState.Spares replicaPair actions :=
  ClusterState.eviction_stays_local _ _ _ (by decide +kernel) (by decide +kernel)

/-- A round whose calls are answered. -/
def openRound : Round where
  members := [[1], [2]]
  self := [1]
  choice := 0
  client _ := .ok fun _ => .ok ⟨[], []⟩
  lease := freshLease
  peerBuckets := newBucketMap
  peerLease := freshLease

theorem pulled_openRound (a peer : Syncer (EngineWal 1) SystemClock) :
    a.pulled (facing openRound peer) = (difference a peer freshLease.shardOrder).requests := by
  rw [← serverPull_eq a peer freshLease freshLease newBucketMap]
  rfl

/-- A replicated key is evicted on the first node, which then restarts. -/
def evictedPair : ClusterState 1 SystemClock :=
  runFrom ClusterState.step replicaPair (replicated [1] ++ [.evict [97] [107], .restart [97] steadyClock .plain])

/-- **An eviction becomes a deletion**: the restarted node has a tombstone although no
client has deleted the key, and a round deletes the key on the other node. -/
theorem eviction_spreads :
    evictedPair.deleted = [] ∧
      ((evictedPair.nodes [97]).core.sw.hm.cell hashFunc [107]).map Value.tombstone = some true ∧
      (evictedPair.nodes [98]).core.get [107] = some [1] ∧
        ((evictedPair.step (.sync [98] [97] openRound)).nodes [98]).core.get [107] = none := by
  refine ⟨by decide +kernel, by decide +kernel, by decide +kernel, ?_⟩
  rw [ClusterState.step, ClusterState.nodes_put, Node.sync, performSync_eq_applyAll, ClusterState.between,
    pulled_openRound]
  decide +kernel

end Oryx.Cluster
