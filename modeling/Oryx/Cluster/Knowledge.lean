import Oryx.Library.Gossip
import Oryx.Cluster.Eviction

/-!
# What anti-entropy passes on

An abstract view of the cluster: every node has a set of writes, a delivery adds one, and
an answered round adds those of the peer that are for keys the requester is responsible
for. The nodes keep one record per key and compare digests to find out which records to
send; still, at every point of a run without evictions and restarts, the record of a key
is the latest of the writes that the node has in this sense (`knowledge_recorded`). Once
no write of a key is delivered any more, the nodes that have pulled from all the others,
directly or through nodes that have, agree on its record (`rounds_converge`).
-/

namespace Oryx.Cluster
set_option autoImplicit false
open Oryx.Library Oryx.Hashmap Oryx.Writer Oryx.Core Oryx.Entropy Oryx.Mesh Oryx.Hlc

/-- The calls of the round go through. -/
def answered {W C : Type} [Security] (round : Round) (s : Syncer W C) : Bool :=
  let peers := excludeSelf round.members round.self
  match peers[round.choice % peers.length]? with
  | none => false
  | some target =>
    match round.client target with
    | .error _ => false
    | .ok api =>
      match api (s.preparePullRequest round.lease) with
      | .error _ => false
      | .ok _ => true

section Clusters

variable {count : Nat} {C : Type} [NeZero count] [Security] [Proto] [Clocker C]

/-- The cluster, and the writes whose effect each node has. -/
structure Informed (count : Nat) (C : Type) where
  state : ClusterState count C
  known : NodeID → List Request

namespace ClusterState

/-- The peer's ring has the requester among the owners of the key. -/
def responsible (s : ClusterState count C) (id peer : NodeID) (key : Key) : Bool :=
  ((s.nodes peer).syncer peer).isRequesterResponsible key id

/-- The writes that the nodes have after the step. -/
def inform (s : ClusterState count C) (known : NodeID → List Request) : ClusterAction C → NodeID → List Request
  | .deliver i =>
    match s.network[i]? with
    | none => known
    | some (owner, r) => Function.update known owner (known owner ++ [r])
  | .sync id peer round =>
    if answered round ((s.nodes id).syncer id) then
      Function.update known id (known id ++ (known peer).filter fun r => s.responsible id peer r.key)
    else known
  | .set _ _ _ | .delete _ _ | .evict _ _ | .restart _ _ _ => known

/-- Nothing is taken out of a map. -/
def Calm : ClusterAction C → Prop
  | .evict _ _ | .restart _ _ _ => False
  | _ => True

instance : DecidablePred (Calm (C := C))
  | .evict _ _ | .restart _ _ _ => isFalse id
  | .set _ _ _ | .delete _ _ | .deliver _ | .sync _ _ _ => isTrue trivial

/-- In a round the digests of the two nodes are equal only where the records are. -/
def Tells (s : ClusterState count C) : ClusterAction C → Prop
  | .sync id peer _ => DigestsFaithful (s.nodes id).core.sw.hm (s.nodes peer).core.sw.hm
  | _ => True

/-- No request for the key is delivered. -/
def Quiet (key : Key) (s : ClusterState count C) : ClusterAction C → Prop
  | .deliver i => ∀ m ∈ s.network[i]?, m.2.key ≠ key
  | _ => True

instance (key : Key) (s : ClusterState count C) : DecidablePred (s.Quiet key)
  | .deliver i => inferInstanceAs (Decidable (∀ m ∈ s.network[i]?, m.2.key ≠ key))
  | .set _ _ _ | .delete _ _ | .evict _ _ | .restart _ _ _ | .sync _ _ _ => isTrue trivial

/-- Who learns from whom about the key. -/
def passes (key : Key) (s : ClusterState count C) : ClusterAction C → List (NodeID × NodeID)
  | .sync id peer round =>
    if answered round ((s.nodes id).syncer id) && s.responsible id peer key then [(id, peer)] else []
  | .set _ _ _ | .delete _ _ | .deliver _ | .evict _ _ | .restart _ _ _ => []

end ClusterState

namespace Informed

def step (s : Informed count C) (a : ClusterAction C) : Informed count C := ⟨s.state.step a, s.state.inform s.known a⟩

/-- At the start no node has a write. -/
def start (setup : NodeID → Setup) (clock : NodeID → C) (choices : NodeID → Choices) : Informed count C :=
  ⟨.start setup clock choices, fun _ => []⟩

/-- The step is one of a run in which rounds lose nothing to equal digests. -/
structure Regular (s : Informed count C) (a : ClusterAction C) : Prop where
  calm : ClusterState.Calm a
  encodes : s.state.Encodes a
  tells : s.state.Tells a

end Informed

/-! ## Nodes and their writes -/

namespace Node

omit [NeZero count] [Proto] [Clocker C] in
theorem pulled_facing (a peer : Syncer (EngineWal count) C) (round : Round) :
    a.pulled (facing round peer) = if answered round a then (round.response a peer).requests else [] := by
  cases opens : answered round a <;> simp only [answered] at opens <;> simp only [Syncer.pulled, facing]
  all_goals
    cases picked :
        (excludeSelf round.members round.self)[round.choice % (excludeSelf round.members round.self).length]? with
    | none => simp [picked] at opens ⊢
    | some target =>
      rcases connected : round.client target with _ | api
      · simp [picked, connected, Except.map] at opens ⊢
      rcases answer : api (a.preparePullRequest round.lease) with _ | resp
      · simp [picked, connected, answer, Except.map] at opens ⊢
      · simp [picked, connected, answer, Except.map, Round.response] at opens ⊢

/-- The node's records are the latest of its writes, and can be sent on as they are. -/
structure Keeps (n : Node count C) (known : List Request) : Prop where
  resendable : Resendable n.core.sw.hm
  top : ∀ key, LastWriter.Top rank (offers known key) (n.core.sw.hm.cell hashFunc key)

variable {n : Node count C} {known : List Request}

omit [NeZero count] [Proto] [Clocker C] in
theorem offers_append (reqs reqs' : List Request) (key : Key) :
    offers (reqs ++ reqs') key = offers reqs key ++ offers reqs' key := by
  simp [offers]

omit [NeZero count] [Proto] [Clocker C] in
theorem resendable_merge {hm : ShardedMap} (resendable : Resendable hm) (r : Request) :
    Resendable (merge hm r).1 where
  inv := inv_merge resendable.inv r
  record_requestOf key v held := by
    rcases cell_merge_cases resendable.inv held with ⟨-, rfl, rfl⟩ | old
    · rw [requestOf_record]
    · exact resendable.record_requestOf key v old

omit [NeZero count] [Proto] [Clocker C] in
theorem resendable_after {hm : ShardedMap} (resendable : Resendable hm) (reqs : List Request) :
    Resendable (mergeAll hm reqs) := by
  induction reqs generalizing hm with
  | nil => exact resendable
  | cons r rest ih => exact ih (resendable_merge resendable r)

theorem hm_applyAll (n : Node count C) (reqs : List Request) :
    (reqs.foldl Node.apply n).core.sw.hm = mergeAll n.core.sw.hm reqs := by
  rw [foldl_apply]
  exact StorageWriter.hm_run n.core.sw reqs

theorem Keeps.apply (keeps : n.Keeps known) (r : Request) : (n.apply r).Keeps (known ++ [r]) := by
  have map : (n.apply r).core.sw.hm = (merge n.core.sw.hm r).1 := Engine.hm_apply n.core r
  refine ⟨map ▸ resendable_merge keeps.resendable r, fun key => ?_⟩
  rw [map, cell_merge keeps.resendable.inv, offers_append]
  by_cases same : key = r.key
  · subst same
    rw [Function.update_self]
    have last : offers [r] r.key = [record r] := by simp [offers]
    rw [last]
    exact (keeps.top r.key).adopt (record r)
  · rw [Function.update_of_ne same]
    have none : offers [r] key = [] := by simp [offers, Ne.symm same]
    rw [none, List.append_nil]
    exact keeps.top key

omit [NeZero count] [Proto] [Clocker C] in
/-- Which of the filtered writes are for a key. -/
theorem offers_filter (known : List Request) (owns : Key → Bool) (key : Key) :
    offers (known.filter fun r => owns r.key) key = if owns key then offers known key else [] := by
  rw [offers, List.filter_filter]
  cases owned : owns key with
  | true =>
    rw [if_pos rfl, offers]
    congr 1
    refine List.filter_congr fun r _ => ?_
    by_cases same : r.key = key
    · simp [same, owned]
    · simp [same]
  | false =>
    rw [if_neg Bool.false_ne_true, List.map_eq_nil_iff, List.filter_eq_nil_iff]
    intro r _
    by_cases same : r.key = key
    · simp [same, owned]
    · simp [same]

/-- **A round** brings the latest of the peer's writes, and with it the effect of them all. -/
theorem Keeps.sync {peer : Node count C} {known' : List Request} {id id' : NodeID} {round : Round}
    (keeps : n.Keeps known) (others : peer.Keeps known') (opens : answered round (n.syncer id) = true)
    (faithful : DigestsFaithful n.core.sw.hm peer.core.sw.hm)
    (encodes : ∀ r ∈ (n.syncer id).pulled (facing round (peer.syncer id')), Faithful r) :
    (n.sync id (facing round (peer.syncer id'))).Keeps
      (known ++ known'.filter fun r => (peer.syncer id').isRequesterResponsible r.key id) := by
  have map : (n.sync id (facing round (peer.syncer id'))).core.sw.hm =
      mergeAll n.core.sw.hm (round.response (n.syncer id) (peer.syncer id')).requests := by
    rw [sync_eq encodes, hm_applyAll, pulled_facing, if_pos opens]
  refine ⟨map ▸ resendable_after keeps.resendable _, fun key => ?_⟩
  rw [map, offers_append, offers_filter known' fun key => (peer.syncer id').isRequesterResponsible key id]
  show LastWriter.Top rank _ ((mergeAll (n.syncer id).hm (serverPull (peer.syncer id') round.peerBuckets round.peerLease
    ((n.syncer id).preparePullRequest round.lease)).requests).cell hashFunc key)
  have inv : (n.syncer id).hm.Inv hashFunc := keeps.resendable.inv
  have sends : Resendable (peer.syncer id').hm := others.resendable
  rw [cell_mergeAll_serverPull inv sends faithful key]
  show LastWriter.Top rank _ (if (peer.syncer id').isRequesterResponsible key id = true then
    LastWriter.join rank (n.core.sw.hm.cell hashFunc key) (peer.core.sw.hm.cell hashFunc key)
    else n.core.sw.hm.cell hashFunc key)
  split
  · exact (keeps.top key).join (others.top key)
  · rw [List.append_nil]
    exact keeps.top key

omit [NeZero count] [Proto] [Clocker C] in
theorem Keeps.cell_eq (keeps : n.Keeps known) (apart : TiesApart known) :
    n.core.sw.hm.cell hashFunc = (mergeAll newShardedMap known).cell hashFunc := by
  funext key
  exact (keeps.top key).unique (top_mergeAll known key) (fun _ => Iff.rfl)
    fun v hv w hw equal => apart.rank_inj hv hw equal

omit [NeZero count] [Proto] [Clocker C] in
/-- Whether the digests of two nodes are faithful is a matter of their writes. -/
theorem Keeps.digestsFaithful {n' : Node count C} {known' : List Request} (keeps : n.Keeps known)
    (keeps' : n'.Keeps known') (apart : TiesApart known) (apart' : TiesApart known')
    (faithful : DigestsFaithful (mergeAll newShardedMap known) (mergeAll newShardedMap known')) :
    DigestsFaithful n.core.sw.hm n'.core.sw.hm :=
  faithful.congr (inv_mergeAll (ShardedMap.inv_new hashFunc) known) (inv_mergeAll (ShardedMap.inv_new hashFunc) known')
    keeps.resendable.inv keeps'.resendable.inv (keeps.cell_eq apart) (keeps'.cell_eq apart')

end Node

/-! ## Runs -/

namespace Informed

variable {s : Informed count C} {a : ClusterAction C}

/-- Every node's records are the latest of its writes. -/
def Recorded (s : Informed count C) : Prop := ∀ id, (s.state.nodes id).Keeps (s.known id)

omit [NeZero count] [Clocker C] in
theorem recorded_start (setup : NodeID → Setup) (clock : NodeID → C) (choices : NodeID → Choices) :
    (start setup clock choices : Informed count C).Recorded := by
  intro id
  have hm : ((start setup clock choices : Informed count C).state.nodes id).core.sw.hm = newShardedMap :=
    hm_newEngine_new ..
  refine ⟨hm ▸ resendable_mergeAll [], fun key => ?_⟩
  rw [hm, ShardedMap.cell_new]
  exact rfl

omit [NeZero count] [Proto] [Clocker C] in
/-- A step that changes one node and the writes of that node. -/
theorem Recorded.put (recorded : s.Recorded) (id : NodeID) {n : Node count C} {known : List Request}
    (keeps : n.Keeps known) (id' : NodeID) :
    ((s.state.put id n).nodes id').Keeps (Function.update s.known id known id') := by
  by_cases same : id' = id
  · subst same
    rw [ClusterState.nodes_put, Function.update_self]
    exact keeps
  · have other : (s.state.put id n).nodes id' = s.state.nodes id' := Function.update_of_ne same ..
    rw [other, Function.update_of_ne same]
    exact recorded id'

omit [NeZero count] [Proto] in
/-- A step that leaves the map of a node as it is. -/
theorem Recorded.tick (recorded : s.Recorded) (id id' : NodeID) :
    ((s.state.put id (s.state.nodes id).tick).nodes id').Keeps (s.known id') := by
  have ticked : (s.state.nodes id).tick.Keeps (s.known id) := ⟨(recorded id).resendable, (recorded id).top⟩
  have put := recorded.put id ticked id'
  rwa [Function.update_eq_self] at put

/-- **One step.** -/
theorem Recorded.step (recorded : s.Recorded) (regular : s.Regular a) : (s.step a).Recorded := by
  obtain ⟨calm, encodes, tells⟩ := regular
  intro id'
  cases a with
  | set id key value => exact recorded.tick id id'
  | delete id key => exact recorded.tick id id'
  | deliver i =>
    rw [Informed.step, ClusterState.step, ClusterState.inform]
    cases s.state.network[i]? with
    | none => exact recorded id'
    | some m => exact recorded.put m.1 ((recorded m.1).apply m.2) id'
  | evict id key => exact calm.elim
  | restart id clock choices => exact calm.elim
  | sync id peer round =>
    rw [Informed.step, ClusterState.step, ClusterState.inform]
    cases opens : answered round ((s.state.nodes id).syncer id) with
    | true =>
      rw [if_pos rfl]
      exact recorded.put id ((recorded id).sync (recorded peer) opens tells encodes) id'
    | false =>
      rw [if_neg Bool.false_ne_true]
      -- nothing is brought, and the node is as it was
      have nothing : ((s.state.nodes id).syncer id).pulled (s.state.between peer round) = [] := by
        rw [ClusterState.between, Node.pulled_facing, opens, if_neg Bool.false_ne_true]
      have same : (s.state.nodes id).sync id (s.state.between peer round) = s.state.nodes id := by
        rw [Node.sync_eq encodes, nothing, List.foldl_nil]
      rw [same]
      have put := recorded.put id (recorded id) id'
      rwa [Function.update_eq_self] at put

theorem recorded_run (setup : NodeID → Setup) (clock : NodeID → C) (choices : NodeID → Choices)
    {actions : List (ClusterAction C)}
    (regular : Along step Regular (start setup clock choices : Informed count C) actions) :
    (runFrom step (start setup clock choices : Informed count C) actions).Recorded :=
  Along.invariant (I := fun (_ : List (ClusterAction C)) (s : Informed count C) => s.Recorded)
    (recorded_start setup clock choices) (fun _ _ _ recorded here => recorded.step here) regular

/-- **Nothing is lost between the digests, and nothing is made up**: no write that a node
has, its own or one passed on by the rounds, is later than the record of its key, and
every record is one of these writes. -/
theorem knowledge_recorded (setup : NodeID → Setup) (clock : NodeID → C) (choices : NodeID → Choices)
    {actions : List (ClusterAction C)}
    (regular : Along step Regular (start setup clock choices : Informed count C) actions) (id : NodeID) :
    let s := runFrom step (start setup clock choices : Informed count C) actions
    (∀ r ∈ s.known id, ∃ v, (s.state.nodes id).core.sw.hm.cell hashFunc r.key = some v ∧ rank (record r) ≤ rank v) ∧
      ∀ key v, (s.state.nodes id).core.sw.hm.cell hashFunc key = some v →
        ∃ r ∈ s.known id, r.key = key ∧ record r = v := by
  have top := (recorded_run setup clock choices regular id).top
  refine ⟨fun r member => ?_, fun key v held => ?_⟩
  · obtain ⟨v, held, -, above⟩ := (top r.key).exists_some (mem_offers.mpr ⟨r, member, rfl, rfl⟩)
    exact ⟨v, held, above⟩
  · have here := top key
    rw [held] at here
    exact mem_offers.mp here.1

/-! ## Convergence -/

/-- The writes of one key. -/
def about (key : Key) (known : NodeID → List Request) (id : NodeID) : Set Request :=
  {r | r ∈ known id ∧ r.key = key}

omit [Security] [Proto] in
theorem about_update (key : Key) (known : NodeID → List Request) (id : NodeID) (reqs : List Request) :
    about key (Function.update known id reqs) =
      Function.update (about key known) id {r | r ∈ reqs ∧ r.key = key} := by
  funext id'
  by_cases same : id' = id
  · subst same
    simp [about]
  · simp [about, same]

/-- While no write of the key is delivered, its writes are passed on like gossip. -/
theorem about_step {key : Key} (quiet : s.state.Quiet key a) :
    about key (s.step a).known = spread (about key s.known) (s.state.passes key a) := by
  cases a with
  | set | delete | evict | restart => rfl
  | deliver i =>
    rw [Informed.step, ClusterState.inform, ClusterState.passes]
    cases message : s.state.network[i]? with
    | none => rfl
    | some m =>
      have other : m.2.key ≠ key := quiet m message
      have same : {r | r ∈ s.known m.1 ++ [m.2] ∧ r.key = key} = about key s.known m.1 := by
        ext r
        simp only [Set.mem_ofPred_eq, about, List.mem_append, List.mem_singleton]
        refine and_congr_left fun named => or_iff_left ?_
        rintro rfl
        exact other named
      show about key (Function.update s.known m.1 (s.known m.1 ++ [m.2])) = about key s.known
      rw [about_update, same, Function.update_eq_self]
  | sync id peer round =>
    rw [Informed.step, ClusterState.inform, ClusterState.passes]
    cases answered round ((s.state.nodes id).syncer id) with
    | false => rfl
    | true =>
      rw [if_pos rfl, Bool.true_and, about_update]
      have joined : {r | r ∈ s.known id ++ (s.known peer).filter (fun r => s.state.responsible id peer r.key) ∧
            r.key = key} =
          if s.state.responsible id peer key then about key s.known id ∪ about key s.known peer
          else about key s.known id := by
        ext r
        split
        · rename_i owned
          simp only [Set.mem_ofPred_eq, about, List.mem_append, List.mem_filter, Set.mem_union, ← or_and_right]
          refine and_congr_left fun named => or_congr_right (and_iff_left ?_)
          rw [named, owned]
        · rename_i foreign
          simp only [Set.mem_ofPred_eq, about, List.mem_append, List.mem_filter]
          refine and_congr_left fun named => or_iff_left ?_
          rintro ⟨-, owned⟩
          exact foreign (named ▸ owned)
      rw [joined]
      cases s.state.responsible id peer key with
      | true => rfl
      | false => exact Function.update_eq_self ..

/-- The same for a run: nodes have the writes of their sources. -/
theorem about_run {key : Key} {actions : List (ClusterAction C)}
    (quiet : Along step (fun s a => s.state.Quiet key a) s actions) :
    about key (runFrom step s actions).known =
      spread (about key s.known) (emitted step (fun s a => s.state.passes key a) s actions) := by
  induction actions generalizing s with
  | nil => rfl
  | cons a rest ih =>
    obtain ⟨here, later⟩ := quiet
    rw [emitted, spread_append, ← about_step here]
    exact ih later

/-- **Convergence**: from the moment on at which no write of the key is delivered any more,
let the rounds pass it on until two nodes have heard from every node that has a write of
the key. Then they hold the same record, and no write of the key that any node has is
later. -/
theorem rounds_converge (setup : NodeID → Setup) (clock : NodeID → C) (choices : NodeID → Choices)
    {writing settling : List (ClusterAction C)} {key : Key}
    (regular : Along step Regular (start setup clock choices : Informed count C) (writing ++ settling)) :
    let s := runFrom step (start setup clock choices : Informed count C) writing
    let t := runFrom step s settling
    Along step (fun s a => s.state.Quiet key a) s settling → ∀ q q',
    (∀ id, ∀ r ∈ s.known id, r.key = key →
      id ∈ sources (emitted step (fun s a => s.state.passes key a) s settling) q ∧
        id ∈ sources (emitted step (fun s a => s.state.passes key a) s settling) q') →
    TiesApart ((t.known q).filter fun r => r.key = key) →
      (t.state.nodes q).core.sw.hm.cell hashFunc key = (t.state.nodes q').core.sw.hm.cell hashFunc key ∧
        ∀ id, ∀ r ∈ s.known id, r.key = key →
          ∃ v, (t.state.nodes q).core.sw.hm.cell hashFunc key = some v ∧ rank (record r) ≤ rank v := by
  intro s t quiet q q' everyone apart
  have whole : t = runFrom step (start setup clock choices : Informed count C) (writing ++ settling) :=
    (List.foldl_append ..).symm
  have recorded := recorded_run setup clock choices regular
  rw [← whole] at recorded
  have known {id : NodeID} {r : Request} : r ∈ t.known id ∧ r.key = key ↔
      ∃ p ∈ sources (emitted step (fun s a => s.state.passes key a) s settling) id, r ∈ s.known p ∧ r.key = key := by
    have passed := congrArg (fun writes => r ∈ writes id) (about_run quiet)
    exact passed.to_iff.trans mem_spread
  have all {id : NodeID} {r : Request} (member : r ∈ s.known id) (named : r.key = key) : r ∈ t.known q :=
    (known.mpr ⟨id, (everyone id r member named).1, member, named⟩).1
  constructor
  · have only : offers ((t.known q).filter fun r => r.key = key) key = offers (t.known q) key := by
      simp [offers, List.filter_filter]
    refine ((recorded q).top key).unique ((recorded q').top key) (fun v => ?_) fun v hv w hw equal => ?_
    · rw [mem_offers, mem_offers]
      refine exists_congr fun r => ?_
      rw [← and_assoc, ← and_assoc, known, known]
      refine and_congr_left fun _ => ⟨?_, ?_⟩
      · rintro ⟨p, -, member, named⟩
        exact ⟨p, (everyone p r member named).2, member, named⟩
      · rintro ⟨p, -, member, named⟩
        exact ⟨p, (everyone p r member named).1, member, named⟩
    · rw [← only] at hv hw
      exact apart.rank_inj hv hw equal
  · intro id r member named
    have offered : record r ∈ offers (t.known q) key := mem_offers.mpr ⟨r, all member named, named, rfl⟩
    obtain ⟨v, held, -, above⟩ := ((recorded q).top key).exists_some offered
    exact ⟨v, held, above⟩

end Informed

end Clusters

open Reference Protobuf

/-- Two nodes that own every key. -/
def informedPair : Informed 1 SystemClock :=
  .start (fun _ => ⟨durable, pairRing, 2⟩) (fun _ => steadyClock) fun _ => .plain

/-- A write that has reached one of its two owners. -/
def halfDelivered : List (ClusterAction SystemClock) := [.set [97] [107] [1], .deliver 0]

/-- The owner that was missed pulls from the other one. -/
def missedOwnerPulls : List (ClusterAction SystemClock) := [.sync [97] [98] openRound]

/-- The write, as the owners are deliveredWrite it. -/
def deliveredWrite : Request := .set ⟨[107], [1], 65601536, [97]⟩

/-- The cluster when the write has reached one of its owners. -/
def whenHalfDelivered : Informed 1 SystemClock := runFrom Informed.step informedPair halfDelivered

theorem known_whenHalfDelivered : whenHalfDelivered.known = Function.update (fun _ => []) [98] [deliveredWrite] := by
  have message : (informedPair.step (.set [97] [107] [1])).state.network[0]? = some ([98], deliveredWrite) := by
    decide +kernel
  have last (s : Informed 1 SystemClock) : (s.step (.deliver 0)).known = s.state.inform s.known (.deliver 0) := rfl
  have unknown : (informedPair.step (.set [97] [107] [1])).known = fun _ => [] := rfl
  rw [whenHalfDelivered, halfDelivered, runFrom, List.foldl_cons, List.foldl_cons, List.foldl_nil, last,
    ClusterState.inform, message, unknown]
  rfl

theorem regular_halfDelivered : Along Informed.step Informed.Regular informedPair halfDelivered :=
  ⟨⟨by decide, by decide +kernel, trivial⟩, ⟨by decide, by decide +kernel, trivial⟩, trivial⟩

theorem regular_missedOwnerPulls : whenHalfDelivered.Regular (.sync [97] [98] openRound) := by
  refine ⟨by decide, ?_, ?_⟩
  · show ∀ r ∈ Syncer.pulled _ (facing openRound _), Faithful r
    rw [pulled_openRound]
    decide +kernel
  · have recorded : whenHalfDelivered.Recorded :=
      Informed.recorded_run (fun _ => ⟨durable, pairRing, 2⟩) (fun _ => steadyClock) (fun _ => .plain)
        regular_halfDelivered
    have missed := recorded [97]
    have reached := recorded [98]
    rw [known_whenHalfDelivered] at missed reached
    exact missed.digestsFaithful reached (by decide) (by decide) (.of_keys (by decide +kernel))

theorem regular_thenPulled : Along Informed.step Informed.Regular informedPair (halfDelivered ++ missedOwnerPulls) :=
  along_snoc.mpr ⟨regular_halfDelivered, regular_missedOwnerPulls⟩

theorem known_missedOwnerPulls :
    (runFrom Informed.step whenHalfDelivered missedOwnerPulls).known [97] = [deliveredWrite] := by decide +kernel

/-- The owner that was missed has a record of the write, or of a later one that it has. -/
theorem knowledge_recorded_repaired :
    ∃ v, ((runFrom Informed.step informedPair (halfDelivered ++ missedOwnerPulls)).state.nodes [97]).core.sw.hm.cell
      hashFunc [107] = some v ∧ rank (record deliveredWrite) ≤ rank v := by
  have known : (runFrom Informed.step informedPair (halfDelivered ++ missedOwnerPulls)).known [97] =
      [deliveredWrite] := known_missedOwnerPulls
  have member : deliveredWrite ∈ (runFrom Informed.step informedPair (halfDelivered ++ missedOwnerPulls)).known [97] := by
    rw [known]
    exact List.mem_singleton_self deliveredWrite
  have regular := regular_thenPulled
  unfold informedPair at *
  exact (Informed.knowledge_recorded _ _ _ regular [97]).1 deliveredWrite member

/-- After the round both owners have the write, although it was delivered to one only. -/
theorem rounds_converge_repaired :
    let t := runFrom Informed.step whenHalfDelivered missedOwnerPulls
    (t.state.nodes [97]).core.sw.hm.cell hashFunc [107] = (t.state.nodes [98]).core.sw.hm.cell hashFunc [107] ∧
      ∃ v, (t.state.nodes [97]).core.sw.hm.cell hashFunc [107] = some v ∧ rank (record deliveredWrite) ≤ rank v := by
  have pulls : emitted Informed.step (fun s a => s.state.passes [107] a) whenHalfDelivered missedOwnerPulls =
      [([97], [98])] := by decide +kernel
  have everyone : ∀ id, ∀ r ∈ whenHalfDelivered.known id, r.key = [107] →
      id ∈ sources (emitted Informed.step (fun s a => s.state.passes [107] a) whenHalfDelivered missedOwnerPulls)
        [97] ∧
      id ∈ sources (emitted Informed.step (fun s a => s.state.passes [107] a) whenHalfDelivered missedOwnerPulls)
        [98] := by
    intro id r member _
    rw [known_whenHalfDelivered] at member
    rw [pulls]
    by_cases reached : id = [98]
    · rw [reached]
      decide
    · rw [Function.update_of_ne reached] at member
      cases member
  have quiet : Along Informed.step (fun s a => s.state.Quiet [107] a) whenHalfDelivered missedOwnerPulls :=
    ⟨trivial, trivial⟩
  have apart : TiesApart (((runFrom Informed.step whenHalfDelivered missedOwnerPulls).known [97]).filter
      fun r => r.key = [107]) := by
    rw [known_missedOwnerPulls]
    decide
  have member : deliveredWrite ∈ whenHalfDelivered.known [98] := by
    rw [known_whenHalfDelivered, Function.update_self]
    exact List.mem_singleton_self deliveredWrite
  have regular := regular_thenPulled
  unfold whenHalfDelivered informedPair at *
  obtain ⟨same, latest⟩ := Informed.rounds_converge (fun _ => ⟨durable, pairRing, 2⟩) (fun _ => steadyClock)
    (fun _ => .plain) regular quiet [97] [98] everyone apart
  exact ⟨same, latest [98] deliveredWrite member rfl⟩

end Oryx.Cluster
