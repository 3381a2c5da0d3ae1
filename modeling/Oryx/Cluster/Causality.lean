import Mathlib.Logic.Relation
import Oryx.Clock.Skew
import Oryx.Engine.Session
import Oryx.Cluster.Eviction

/-!
# Causality across the cluster

The writes of a run, and which of them can have influenced which others: a node knows its
own writes and those it was asked to apply, by a client's request or by an anti-entropy
round. Timestamps respect that order when the wall clocks never go back, stay below the
ceiling, and are within five seconds of each other: then no replicated timestamp fails the
drift check of `Update`. A replica that was asked to apply a write never shows one that
the write was based on.
-/

namespace Oryx.Cluster
set_option autoImplicit false
open Oryx.Library Oryx.Hashmap Oryx.Writer Oryx.Core Oryx.Entropy Oryx.Hlc
open Oryx.Core.Session (Behind)

/-! ## The order of the writes -/

/-- A write: the node it was issued at, the request for the owners, and what that node
had been asked to apply by then. -/
structure Write where
  id : NodeID
  request : Request
  seen : List Request
  deriving DecidableEq

/-- The write at `i` can have influenced the one at `j`. -/
inductive Precedes (history : List Write) (i j : Fin history.length) : Prop
  | program (earlier : i < j) (same : (history.get i).id = (history.get j).id)
  | heard (seen : (history.get i).request ∈ (history.get j).seen)

def HappensBefore (history : List Write) : Fin history.length → Fin history.length → Prop :=
  Relation.TransGen (Precedes history)

section Clusters

variable {count : Nat} [NeZero count] [Security] [Proto]

namespace ClusterState

/-- The write that a client's call makes. -/
def issues {C : Type} [Clocker C] (s : ClusterState count C) : ClusterAction C → List Write
  | .set id key value => [⟨id, .set ⟨key, value, (s.nodes id).core.tick.1, id⟩, (s.nodes id).heard⟩]
  | .delete id key => [⟨id, .delete ⟨key, (s.nodes id).core.tick.1, id⟩, (s.nodes id).heard⟩]
  | .deliver _ | .evict _ _ | .restart _ _ _ | .sync _ _ _ => []

/-- Every process of the run keeps its memory. -/
def Running {C : Type} : ClusterAction C → Prop
  | .restart _ _ _ => False
  | _ => True

instance {C : Type} : DecidablePred (Running (C := C))
  | .restart _ _ _ => isFalse id
  | .set _ _ _ | .delete _ _ | .deliver _ | .evict _ _ | .sync _ _ _ => isTrue trivial

/-- The cluster at its start, with new clocks. -/
def launch (setup : NodeID → Setup) (clock : NodeID → SystemClock) (choices : NodeID → Choices) :
    ClusterState count SystemClock :=
  start setup (fun id => (clock id).reset) choices

/-- No wall clock is more than five seconds ahead of the next reading of another. -/
def Synchronized (s : ClusterState count SystemClock) : Prop :=
  ∀ id id', (sample (s.nodes id').core.sw.clock.wall).toNat ≤
    (sample (s.nodes id).core.sw.clock.read.wall).toNat + 5000

/-- No call sleeps forever. -/
def Awake (s : ClusterState count SystemClock) : Prop := ∀ id, (s.nodes id).core.sw.clock.hung = false

end ClusterState

namespace Node

variable {n n' : Node count SystemClock}

abbrev clock (n : Node count SystemClock) : SystemClock := n.core.sw.clock

/-- One call of `Now`, and perhaps a key dropped from the map. -/
structure Drawn (n n' : Node count SystemClock) : Prop where
  clock : n'.clock = n.clock.now.2
  heard : n'.heard = n.heard
  map : n.core.sw.hm.Inv hashFunc → n'.core.sw.hm.Inv hashFunc ∧
    ∀ key v, n'.core.sw.hm.cell hashFunc key = some v → n.core.sw.hm.cell hashFunc key = some v

omit [NeZero count] [Proto] in
theorem drawn_tick (n : Node count SystemClock) : n.Drawn n.tick :=
  ⟨rfl, rfl, fun inv => ⟨inv, fun _ _ held => held⟩⟩

theorem drawn_evict (n : Node count SystemClock) (key : Key) : n.Drawn (n.evict key) := by
  refine ⟨rfl, rfl, fun inv => ?_⟩
  obtain ⟨inv', cells⟩ := cell_evict inv key
  refine ⟨inv', fun key' v held => ?_⟩
  rw [cells] at held
  by_cases same : key' = key
  · rw [same, Function.update_self] at held
    cases held
  · rwa [Function.update_of_ne same] at held

theorem clock_apply (n : Node count SystemClock) (r : Request) : (n.apply r).clock = n.clock.update r.timestamp :=
  Session.clock_apply n.core r

theorem suffix_applyAll (n : Node count SystemClock) (reqs : List Request) :
    (reqs.foldl Node.apply n).clock.readings <:+ n.clock.readings := by
  induction reqs generalizing n with
  | nil => exact List.suffix_rfl
  | cons r rest ih =>
    refine (ih (n.apply r)).trans ?_
    rw [clock_apply]
    exact n.clock.update_suffix r.timestamp

theorem awake_of_applyAll {reqs : List Request} (returns : (reqs.foldl Node.apply n).clock.hung = false) :
    n.clock.hung = false := by
  induction reqs generalizing n with
  | nil => exact returns
  | cons r rest ih =>
    have first := ih returns
    rw [clock_apply] at first
    exact SystemClock.awake_of_update first

theorem behind_applyAll {reqs : List Request} {ts : Int64} (forward : n.clock.Forward)
    (returns : (reqs.foldl Node.apply n).clock.hung = false) (behind : Behind n.clock ts) :
    Behind (reqs.foldl Node.apply n).clock ts := by
  induction reqs generalizing n with
  | nil => exact behind
  | cons r rest ih =>
    have first : (n.apply r).clock.hung = false := awake_of_applyAll returns
    refine ih ?_ returns ?_
    · rw [clock_apply]
      exact (forward.suffix (n.clock.update_suffix r.timestamp)).1
    · rw [clock_apply] at first ⊢
      exact (Behind.update forward first).2 behind

/-- The physical part of the state comes from the state before, a timestamp or a reading. -/
theorem physical_applyAll {reqs : List Request} {P : UInt64 → Prop} (lower : ∀ p q, p ≤ q → P q → P p)
    (forward : n.clock.Forward) (returns : (reqs.foldl Node.apply n).clock.hung = false)
    (state : P (physical n.clock.clock.state)) (sent : ∀ r ∈ reqs, P (physical r.timestamp.toUInt64))
    (reading : P (sample (reqs.foldl Node.apply n).clock.wall)) :
    P (physical (reqs.foldl Node.apply n).clock.clock.state) := by
  induction reqs generalizing n with
  | nil => exact state
  | cons r rest ih =>
    rw [List.forall_mem_cons] at sent
    have first : (n.apply r).clock.hung = false := awake_of_applyAll returns
    have forward' : (n.apply r).clock.Forward := by
      rw [clock_apply]
      exact (forward.suffix (n.clock.update_suffix r.timestamp)).1
    refine ih forward' returns ?_ sent.2 reading
    have last := (forward'.suffix ((n.apply r).suffix_applyAll rest)).2
    rw [clock_apply] at first last ⊢
    rcases SystemClock.physical_update first with same | read | taken
    · rw [same]
      exact state
    · rw [read]
      exact lower _ _ (sample_mono last) reading
    · rw [taken]
      exact sent.1

/-! ## One node -/

/-- The clock has left behind what the node was asked to apply, the node's records come
from there, and no reading is at the ceiling. -/
structure Ahead (n : Node count SystemClock) : Prop where
  inv : n.core.sw.hm.Inv hashFunc
  forward : n.clock.Forward
  early : ∀ wall ∈ n.clock.readings, sample wall < maxPhysical
  behind : ∀ r ∈ n.heard, Behind n.clock r.timestamp
  held : ∀ key v, n.core.sw.hm.cell hashFunc key = some v → ∃ r ∈ n.heard, r.key = key ∧ record r = v

omit [NeZero count] [Proto] in
theorem Ahead.drawn (ahead : n.Ahead) (drawn : n.Drawn n') (returns : n'.clock.hung = false) : n'.Ahead := by
  obtain ⟨inv, cells⟩ := drawn.map ahead.inv
  have suffix := n.clock.now_suffix
  rw [drawn.clock] at returns
  refine ⟨inv, ?_, ?_, ?_, ?_⟩
  · rw [drawn.clock]
    exact (ahead.forward.suffix suffix).1
  · rw [drawn.clock]
    exact fun wall member => ahead.early wall (suffix.mem member)
  · rw [drawn.clock, drawn.heard]
    exact fun r member => (Behind.now ahead.forward returns).2 (ahead.behind r member)
  · rw [drawn.heard]
    exact fun key v held => ahead.held key v (cells key v held)

/-- A request whose timestamp passes the drift check. -/
theorem Ahead.apply (ahead : n.Ahead) {r : Request} (nonneg : 0 ≤ r.timestamp)
    (near : (physical r.timestamp.toUInt64).toNat ≤ (sample n.clock.read.wall).toNat + 5000)
    (returns : (n.apply r).clock.hung = false) : (n.apply r).Ahead := by
  have map : (n.apply r).core.sw.hm = (merge n.core.sw.hm r).1 := Engine.hm_apply n.core r
  have suffix := n.clock.update_suffix r.timestamp
  rw [clock_apply] at returns
  refine ⟨map ▸ inv_merge ahead.inv r, ?_, ?_, fun r' member => ?_, fun key v held => ?_⟩
  · rw [clock_apply]
    exact (ahead.forward.suffix suffix).1
  · rw [clock_apply]
    exact fun wall member => ahead.early wall (suffix.mem member)
  · rw [clock_apply]
    rcases List.mem_append.mp member with old | last
    · exact (Behind.update ahead.forward returns).2 (ahead.behind r' old)
    · rw [List.mem_singleton.mp last]
      exact (Behind.update ahead.forward returns).1 (Or.inr (absorbs_of_near nonneg near))
  · rw [map] at held
    rcases cell_merge_cases ahead.inv held with ⟨-, rfl, rfl⟩ | old
    · exact ⟨r, List.mem_append_right _ (List.mem_singleton_self r), rfl, rfl⟩
    · obtain ⟨r', member, found⟩ := ahead.held key v old
      exact ⟨r', List.mem_append_left _ member, found⟩

theorem Ahead.applyAll (ahead : n.Ahead) {reqs : List Request} (nonneg : ∀ r ∈ reqs, 0 ≤ r.timestamp)
    (near : ∀ r ∈ reqs, (physical r.timestamp.toUInt64).toNat ≤ (sample n.clock.read.wall).toNat + 5000)
    (returns : (reqs.foldl Node.apply n).clock.hung = false) : (reqs.foldl Node.apply n).Ahead := by
  induction reqs generalizing n with
  | nil => exact ahead
  | cons r rest ih =>
    rw [List.forall_mem_cons] at nonneg near
    refine ih (ahead.apply nonneg.1 near.1 (awake_of_applyAll returns)) nonneg.2 (fun r' member => ?_) returns
    -- the readings of the later requests are not earlier
    have later : n.clock.read.wall ≤ (n.apply r).clock.read.wall := by
      rw [clock_apply]
      exact ahead.forward.read_le (n.clock.update_suffix r.timestamp)
    have up := UInt64.le_iff_toNat_le.mp (sample_mono later)
    have bound := near.2 r' member
    omega

/-- What the node was asked to apply is recorded, or something later is. -/
def Covered (n : Node count SystemClock) : Prop :=
  ∀ r ∈ n.heard, ∃ v, n.core.sw.hm.cell hashFunc r.key = some v ∧ r.timestamp ≤ v.timestamp

theorem Covered.applyAll {reqs : List Request} (covered : n.Covered) (inv : n.core.sw.hm.Inv hashFunc) :
    (reqs.foldl Node.apply n).Covered := by
  induction reqs generalizing n with
  | nil => exact covered
  | cons r rest ih =>
    have map : (n.apply r).core.sw.hm = (merge n.core.sw.hm r).1 := Engine.hm_apply n.core r
    refine ih (fun r' member => ?_) (map ▸ inv_merge inv r)
    rw [map]
    rcases List.mem_append.mp member with old | last
    · obtain ⟨v, held, le⟩ := covered r' old
      obtain ⟨v', held', up⟩ := exists_later_merge inv r held
      exact ⟨v', held', le.trans up⟩
    · obtain rfl := List.mem_singleton.mp last
      rw [cell_merge inv, Function.update_self]
      obtain ⟨v, held, above⟩ := @LastWriter.exists_adopt _ _ _ rank (n.core.sw.hm.cell hashFunc r'.key) (record r')
      refine ⟨v, held, ?_⟩
      rw [← record_timestamp r']
      exact timestamp_le_of_rank_le above

end Node

/-! ## One step of the cluster -/

namespace ClusterState

variable {s s' : ClusterState count SystemClock} {a : ClusterAction SystemClock}

/-- Where a request comes from that a node is asked to apply. -/
def Source (s : ClusterState count SystemClock) (r : Request) : Prop :=
  (∃ owner, (owner, r) ∈ s.network) ∨
    ∃ peer key v, (s.nodes peer).core.sw.hm.cell hashFunc key = some v ∧ requestOf (key, v) = r

/-- What a step does to one node and to the requests on their way. -/
inductive Moves (s : ClusterState count SystemClock) (a : ClusterAction SystemClock) (s' : ClusterState count SystemClock) :
    Prop
  | draws (id : NodeID) (n' : Node count SystemClock) (nodes : s'.nodes = Function.update s.nodes id n')
    (drawn : (s.nodes id).Drawn n')
    (map : (∀ key, a ≠ .evict id key) → n'.core.sw.hm = (s.nodes id).core.sw.hm)
    (network : ∀ m ∈ s'.network, m ∈ s.network ∨ m.2.timestamp = (s.nodes id).clock.now.1)
  | applies (id : NodeID) (reqs : List Request)
    (nodes : s'.nodes = Function.update s.nodes id (reqs.foldl Node.apply (s.nodes id)))
    (network : s'.network ⊆ s.network)
    (source : (∀ id, (s.nodes id).core.sw.hm.Inv hashFunc) → ∀ r ∈ reqs, s.Source r)

theorem moves_issue (s : ClusterState count SystemClock) (a : ClusterAction SystemClock) (id : NodeID) (key : Key)
    {request : Int64 → Request} (stamped : ∀ ts, (request ts).timestamp = ts) :
    s.Moves a (s.issue id key request) := by
  refine .draws id _ rfl (s.nodes id).drawn_tick (fun _ => rfl) fun m member => ?_
  rcases List.mem_append.mp member with old | new
  · exact Or.inl old
  · obtain ⟨owner, -, rfl⟩ := List.mem_map.mp new
    exact Or.inr (stamped _)

/-- **What a step does**, unless it is a restart. -/
theorem step_moves (running : Running a) (encodes : s.Encodes a) : s.Moves a (s.step a) := by
  cases a with
  | set id key value =>
    exact moves_issue s _ id key (fun (ts : Int64) => (rfl : (Request.set ⟨key, value, ts, id⟩).timestamp = ts))
  | delete id key =>
    cases moves_issue s (.delete id key) id key
      (fun (ts : Int64) => (rfl : (Request.delete ⟨key, ts, id⟩).timestamp = ts)) with
    | draws id' n' nodes drawn map network => exact .draws id' n' nodes drawn map network
    | applies id' reqs nodes network source => exact .applies id' reqs nodes network source
  | deliver i =>
    rw [step]
    cases message : s.network[i]? with
    | none =>
      exact .applies [] [] (Function.update_eq_self [] s.nodes).symm (List.Subset.refl _)
        fun _ r member => absurd member List.not_mem_nil
    | some m =>
      obtain ⟨owner, r⟩ := m
      refine .applies owner [r] rfl (fun m member => List.mem_of_mem_eraseIdx member) fun _ r' member => ?_
      rw [List.mem_singleton.mp member]
      exact Or.inl ⟨owner, List.mem_of_getElem? message⟩
  | evict id key =>
    exact .draws id _ rfl ((s.nodes id).drawn_evict key) (fun other => absurd rfl (other key)) fun m => Or.inl
  | restart id clock choices => exact running.elim
  | sync id peer round =>
    refine .applies id (((s.nodes id).syncer id).pulled (s.between peer round)) ?_ (List.Subset.refl _)
      fun inv r pulled => ?_
    · rw [step, Node.sync_eq encodes]
      rfl
    · obtain ⟨i, b, -, ⟨key, v⟩, member, -, rfl⟩ := mem_requests_serverPull.mp (mem_response_of_pulled pulled)
      exact Or.inr ⟨peer, key, v, ((inv peer).mem_entriesOf.mp member).1, rfl⟩

theorem Moves.suffix (moves : s.Moves a s') (id : NodeID) :
    (s'.nodes id).clock.readings <:+ (s.nodes id).clock.readings := by
  cases moves with
  | draws id' n' nodes drawn map network =>
    rw [nodes]
    refine (Function.forall_update_iff s.nodes fun id n => n.clock.readings <:+ (s.nodes id).clock.readings).mpr
      ⟨?_, fun _ _ => List.suffix_rfl⟩ id
    rw [drawn.clock]
    exact SystemClock.now_suffix _
  | applies id' reqs nodes network source =>
    rw [nodes]
    exact (Function.forall_update_iff s.nodes fun id n => n.clock.readings <:+ (s.nodes id).clock.readings).mpr
      ⟨Node.suffix_applyAll _ reqs, fun _ _ => List.suffix_rfl⟩ id

/-- A process that sleeps forever makes no more calls. -/
theorem Moves.awake (moves : s.Moves a s') (awake : s'.Awake) : s.Awake := by
  intro id
  cases moves with
  | draws id' n' nodes drawn map network =>
    rw [Awake, nodes, Function.forall_update_iff s.nodes fun _ n => n.clock.hung = false] at awake
    by_cases same : id = id'
    · rw [drawn.clock] at awake
      exact same ▸ SystemClock.awake_of_now awake.1
    · exact awake.2 id same
  | applies id' reqs nodes network source =>
    rw [Awake, nodes, Function.forall_update_iff s.nodes fun _ n => n.clock.hung = false] at awake
    by_cases same : id = id'
    · exact same ▸ Node.awake_of_applyAll awake.1
    · exact awake.2 id same

/-- What a clock has left behind stays behind. -/
theorem Moves.behind (moves : s.Moves a s') (awake : s'.Awake) {id : NodeID} (forward : (s.nodes id).clock.Forward)
    {ts : Int64} (behind : Behind (s.nodes id).clock ts) : Behind (s'.nodes id).clock ts := by
  have returns : (s'.nodes id).clock.hung = false := awake id
  cases moves with
  | draws id' n' nodes drawn map network =>
    rw [nodes] at returns ⊢
    by_cases same : id = id'
    · subst same
      rw [Function.update_self] at returns ⊢
      rw [drawn.clock] at returns ⊢
      exact (Behind.now forward returns).2 behind
    · rwa [Function.update_of_ne same]
  | applies id' reqs nodes network source =>
    rw [nodes] at returns ⊢
    by_cases same : id = id'
    · subst same
      rw [Function.update_self] at returns ⊢
      exact Node.behind_applyAll forward returns behind
    · rwa [Function.update_of_ne same]

/-! ## Timestamps and wall clocks -/

/-- Some wall clock has reached this time. -/
def Reached (s : ClusterState count SystemClock) (p : UInt64) : Prop := ∃ id, p ≤ sample (s.nodes id).clock.wall

/-- A timestamp that no wall clock has still to reach. -/
def Dated (s : ClusterState count SystemClock) (ts : Int64) : Prop := 0 ≤ ts ∧ s.Reached (physical ts.toUInt64)

/-- Every timestamp around was drawn from a wall clock. -/
structure Paced (s : ClusterState count SystemClock) : Prop where
  nodes : ∀ id, (s.nodes id).Ahead
  clocks : ∀ id, s.Reached (physical (s.nodes id).clock.clock.state)
  network : ∀ m ∈ s.network, s.Dated m.2.timestamp
  heard : ∀ id, ∀ r ∈ (s.nodes id).heard, s.Dated r.timestamp

omit [NeZero count] [Security] [Proto] in
theorem Reached.lower {p q : UInt64} (le : p ≤ q) (reached : s.Reached q) : s.Reached p := by
  obtain ⟨id, above⟩ := reached
  exact ⟨id, le.trans above⟩

theorem Reached.moves {p : UInt64} (reached : s.Reached p) (moves : s.Moves a s')
    (forward : ∀ id, (s.nodes id).clock.Forward) : s'.Reached p := by
  obtain ⟨id, above⟩ := reached
  exact ⟨id, above.trans (sample_mono ((forward id).suffix (moves.suffix id)).2)⟩

omit [NeZero count] [Security] [Proto] in
theorem Dated.near {ts : Int64} (dated : s.Dated ts) (synchronized : s.Synchronized) (id : NodeID) :
    (physical ts.toUInt64).toNat ≤ (sample (s.nodes id).clock.read.wall).toNat + 5000 := by
  obtain ⟨-, id', above⟩ := dated
  exact (UInt64.le_iff_toNat_le.mp above).trans (synchronized id id')

omit [NeZero count] [Proto] in
/-- A clock whose time some wall clock has reached is below its ceiling. -/
theorem Paced.unsaturated (paced : s.Paced) (id : NodeID) : ¬Saturated (s.nodes id).clock.clock.state := by
  obtain ⟨id', above⟩ := paced.clocks id
  have low := (paced.nodes id').early _ List.mem_cons_self
  exact not_le.mpr (lt_of_le_of_lt above low)

omit [NeZero count] [Security] [Proto] in
theorem timestamp_requestOf (p : Key × Value) : (requestOf p).timestamp = p.2.timestamp := by
  unfold requestOf
  split <;> rfl

omit [NeZero count] [Proto] in
/-- What a node is asked to apply was drawn from a wall clock. -/
theorem Paced.source (paced : s.Paced) {r : Request} (source : s.Source r) : s.Dated r.timestamp := by
  rcases source with ⟨owner, member⟩ | ⟨peer, key, v, held, rfl⟩
  · exact paced.network _ member
  · obtain ⟨r, member, -, rfl⟩ := (paced.nodes peer).held key v held
    rw [timestamp_requestOf, record_timestamp]
    exact paced.heard peer r member

/-- **One step** of nodes whose wall clocks are synchronized. -/
theorem Paced.step (paced : s.Paced) (moves : s.Moves a s') (synchronized : s.Synchronized) (awake : s'.Awake) :
    s'.Paced := by
  have forward := fun id => (paced.nodes id).forward
  have dated {ts : Int64} (dated : s.Dated ts) : s'.Dated ts := ⟨dated.1, dated.2.moves moves forward⟩
  have clocks := fun id => (paced.clocks id).moves moves forward
  cases moves with
  | draws id n' nodes drawn map network =>
    have here : s'.nodes id = n' := by rw [nodes, Function.update_self]
    have returns : (s.nodes id).clock.now.2.hung = false := by
      rw [← drawn.clock, ← here]
      exact awake id
    -- the new state is the old one or the reading that `Now` has just taken
    have state : s'.Reached (physical n'.clock.clock.state) := by
      rw [drawn.clock]
      rcases SystemClock.physical_now returns with same | read
      · rw [same]
        exact clocks id
      · rw [read, ← drawn.clock]
        exact ⟨id, by rw [here]⟩
    refine ⟨?_, ?_, fun m member => ?_, ?_⟩
    · rw [nodes]
      refine (Function.forall_update_iff s.nodes fun _ n => n.Ahead).mpr ⟨?_, fun id _ => paced.nodes id⟩
      exact (paced.nodes id).drawn drawn (by rw [drawn.clock]; exact returns)
    · rw [nodes]
      exact (Function.forall_update_iff s.nodes fun _ n => s'.Reached (physical n.clock.clock.state)).mpr
        ⟨state, fun id _ => clocks id⟩
    · rcases network m member with old | new
      · exact dated (paced.network m old)
      · obtain ⟨nonneg, below⟩ := SystemClock.physical_result_le returns
        rw [← drawn.clock] at below
        rw [new]
        exact ⟨nonneg, state.lower below⟩
    · rw [nodes]
      refine (Function.forall_update_iff s.nodes fun _ n => ∀ r ∈ n.heard, s'.Dated r.timestamp).mpr
        ⟨?_, fun id _ r member => dated (paced.heard id r member)⟩
      rw [drawn.heard]
      exact fun r member => dated (paced.heard id r member)
  | applies id reqs nodes network source =>
    have here : s'.nodes id = reqs.foldl Node.apply (s.nodes id) := by rw [nodes, Function.update_self]
    have returns : (reqs.foldl Node.apply (s.nodes id)).clock.hung = false := here ▸ awake id
    have sent := fun r member => paced.source (source (fun id => (paced.nodes id).inv) r member)
    refine ⟨?_, ?_, fun m member => dated (paced.network m (network member)), ?_⟩
    · rw [nodes]
      refine (Function.forall_update_iff s.nodes fun _ n => n.Ahead).mpr ⟨?_, fun id _ => paced.nodes id⟩
      exact (paced.nodes id).applyAll (fun r member => (sent r member).1)
        (fun r member => (sent r member).near synchronized id) returns
    · rw [nodes]
      refine (Function.forall_update_iff s.nodes fun _ n => s'.Reached (physical n.clock.clock.state)).mpr
        ⟨?_, fun id _ => clocks id⟩
      refine Node.physical_applyAll (fun p q => Reached.lower) (forward id) returns (clocks id)
        (fun r member => (dated (sent r member)).2) ?_
      exact ⟨id, by rw [here]⟩
    · rw [nodes]
      refine (Function.forall_update_iff s.nodes fun _ n => ∀ r ∈ n.heard, s'.Dated r.timestamp).mpr
        ⟨?_, fun id _ r member => dated (paced.heard id r member)⟩
      rw [Node.foldl_apply]
      intro r member
      rcases List.mem_append.mp member with old | new
      · exact dated (paced.heard id r old)
      · exact dated (sent r new)

omit [NeZero count] in
theorem Paced.launch (setup : NodeID → Setup) {clock : NodeID → SystemClock} (choices : NodeID → Choices)
    (forward : ∀ id, (clock id).Forward) (early : ∀ id, ∀ wall ∈ (clock id).readings, sample wall < maxPhysical) :
    (launch setup clock choices : ClusterState count SystemClock).Paced where
  nodes id := by
    refine ⟨newEngine_inv .., forward id, early id, nofun, fun key v held => ?_⟩
    rw [ClusterState.launch, start, hm_newEngine_new, ShardedMap.cell_new] at held
    cases held
  clocks id := by
    have zero : physical newClock.state = 0 := by decide
    refine ⟨id, ?_⟩
    show physical newClock.state ≤ _
    rw [zero]
    exact UInt64.zero_le
  network := nofun
  heard _ := nofun

/-! ## The history of a run -/

/-- The writes issued so far: each is later than those of its node before it and than
all that its node had been asked to apply. -/
structure Ordered (history : List Write) (s : ClusterState count SystemClock) : Prop where
  paced : s.Paced
  own : ∀ w ∈ history, Behind (s.nodes w.id).clock w.request.timestamp
  program : history.Pairwise fun w w' => w.id = w'.id → w.request.timestamp < w'.request.timestamp
  heard : ∀ w ∈ history, ∀ r ∈ w.seen, r.timestamp < w.request.timestamp

/-- The write of a step is stamped by the clock of its node. -/
theorem stamped_of_issues {w : Write} (issued : w ∈ s.issues a) :
    s.issues a = [w] ∧ w.request.timestamp = (s.nodes w.id).clock.now.1 ∧ w.seen = (s.nodes w.id).heard ∧
      ((s.step a).nodes w.id).clock = (s.nodes w.id).clock.now.2 := by
  cases a with
  | set id key value =>
    obtain rfl := List.mem_singleton.mp issued
    exact ⟨rfl, rfl, rfl, congrArg Node.clock (nodes_put s id _)⟩
  | delete id key =>
    obtain rfl := List.mem_singleton.mp issued
    exact ⟨rfl, rfl, rfl, congrArg Node.clock (nodes_put s id _)⟩
  | deliver | evict | restart | sync => cases issued

theorem Ordered.step {history : List Write} (ordered : Ordered history s) (moves : s.Moves a (s.step a))
    (synchronized : s.Synchronized) (awake : (s.step a).Awake) : Ordered (history ++ s.issues a) (s.step a) := by
  have paced := ordered.paced.step moves synchronized awake
  have forward := fun id => (ordered.paced.nodes id).forward
  have kept := fun w member => moves.behind awake (forward w.id) (ordered.own w member)
  cases issued : s.issues a with
  | nil =>
    rw [List.append_nil]
    exact ⟨paced, kept, ordered.program, ordered.heard⟩
  | cons w rest =>
    obtain ⟨only, stamp, seen, clock⟩ := stamped_of_issues (by rw [issued]; exact List.mem_cons_self : w ∈ s.issues a)
    rw [issued] at only
    rw [only]
    have returns : (s.nodes w.id).clock.now.2.hung = false := clock ▸ awake w.id
    have later {ts : Int64} (behind : Behind (s.nodes w.id).clock ts) : ts < w.request.timestamp := by
      rw [stamp]
      exact behind.lt_now (forward w.id) returns (ordered.paced.unsaturated w.id)
    refine ⟨paced, fun w' member => ?_, ?_, fun w' member r old => ?_⟩
    · rcases List.mem_append.mp member with before | last
      · exact kept w' before
      · rw [List.mem_singleton.mp last, clock, stamp]
        exact (Behind.now (forward w.id) returns).1
    · refine List.pairwise_append.mpr ⟨ordered.program, List.pairwise_singleton .., fun w' before w'' last same => ?_⟩
      rw [List.mem_singleton.mp last] at same ⊢
      exact later (same ▸ ordered.own w' before)
    · rcases List.mem_append.mp member with before | last
      · exact ordered.heard w' before r old
      · rw [List.mem_singleton.mp last] at old ⊢
        rw [seen] at old
        exact later ((ordered.paced.nodes w.id).behind r old)

omit [NeZero count] [Proto] in
/-- In an ordered history timestamps go up along `HappensBefore`. -/
theorem Ordered.lt_of_happensBefore {history : List Write} (ordered : Ordered history s) {i j : Fin history.length}
    (before : HappensBefore history i j) :
    (history.get i).request.timestamp < (history.get j).request.timestamp := by
  have direct {i j : Fin history.length} (precedes : Precedes history i j) :
      (history.get i).request.timestamp < (history.get j).request.timestamp := by
    cases precedes with
    | program earlier same => exact List.pairwise_iff_get.mp ordered.program i j earlier same
    | heard seen => exact ordered.heard _ (List.get_mem history j) _ seen
  induction before with
  | single precedes => exact direct precedes
  | tail _ precedes ih => exact ih.trans (direct precedes)

/-- A run without evictions records what each node was asked to apply, or something later. -/
theorem covered_step (covered : ∀ id, (s.nodes id).Covered) (moves : s.Moves a s')
    (inv : ∀ id, (s.nodes id).core.sw.hm.Inv hashFunc) (keeps : ∀ id key, a ≠ .evict id key) (id : NodeID) :
    (s'.nodes id).Covered := by
  cases moves with
  | draws id' n' nodes drawn map network =>
    rw [nodes]
    refine (Function.forall_update_iff s.nodes fun _ n => n.Covered).mpr ⟨?_, fun id _ => covered id⟩ id
    unfold Node.Covered
    rw [drawn.heard, map (keeps id')]
    exact covered id'
  | applies id' reqs nodes network source =>
    rw [nodes]
    exact (Function.forall_update_iff s.nodes fun _ n => n.Covered).mpr
      ⟨(covered id').applyAll (inv id'), fun id _ => covered id⟩ id

/-- Where a run has got to, as far as no call sleeps forever. -/
structure Reaches (start : ClusterState count SystemClock) (past : List (ClusterAction SystemClock))
    (s : ClusterState count SystemClock) : Prop where
  state : s = runFrom step start past
  ordered : s.Awake → Ordered (emitted step issues start past) s
  covered : s.Awake → (∀ id key, .evict id key ∉ past) → ∀ id, (s.nodes id).Covered

theorem Reaches.step {start : ClusterState count SystemClock} {past : List (ClusterAction SystemClock)}
    (reaches : Reaches start past s) (running : Running a) (encodes : s.Encodes a) (synchronized : s.Synchronized) :
    Reaches start (past ++ [a]) (s.step a) := by
  have moves := step_moves running encodes
  refine ⟨?_, fun awake => ?_, fun awake keeps => ?_⟩
  · rw [runFrom_snoc, ← reaches.state]
  · rw [emitted_snoc, ← reaches.state]
    exact (reaches.ordered (moves.awake awake)).step moves synchronized awake
  · have before := moves.awake awake
    refine covered_step (reaches.covered before fun id key member => ?_) moves
      (fun id => ((reaches.ordered before).paced.nodes id).inv) fun id key evicts => ?_
    · exact keeps id key (List.mem_append_left _ member)
    · exact keeps id key (evicts ▸ List.mem_append_right _ (List.mem_singleton_self a))

/-- **Causality**: with wall clocks that never go back, are below the ceiling and within
five seconds of each other, timestamps go up along the order of the writes, in every run
without restarts. Where nothing is evicted either, a replica that was asked to apply a
write holds a record later than every write of the key that came before it. -/
theorem causal_order (setup : NodeID → Setup) {clock : NodeID → SystemClock} (choices : NodeID → Choices)
    {actions : List (ClusterAction SystemClock)} (running : ∀ a ∈ actions, Running a)
    (forward : ∀ id, (clock id).Forward) (early : ∀ id, ∀ wall ∈ (clock id).readings, sample wall < maxPhysical)
    (encodes : Along step Encodes (launch setup clock choices : ClusterState count SystemClock) actions)
    (synchronized : Along step (fun s _ => s.Synchronized)
      (launch setup clock choices : ClusterState count SystemClock) actions)
    (awake : (runFrom step (launch setup clock choices : ClusterState count SystemClock) actions).Awake) :
    let history := emitted step issues (launch setup clock choices : ClusterState count SystemClock) actions
    (∀ i j, HappensBefore history i j → (history.get i).request.timestamp < (history.get j).request.timestamp) ∧
      ((∀ id key, .evict id key ∉ actions) → ∀ id i j, HappensBefore history i j →
        (history.get i).request.key = (history.get j).request.key →
        let node := (runFrom step (launch setup clock choices : ClusterState count SystemClock) actions).nodes id
        (history.get j).request ∈ node.heard →
          ∃ v, node.core.sw.hm.cell hashFunc (history.get i).request.key = some v ∧
            (history.get i).request.timestamp < v.timestamp) := by
  have reaches := Along.invariant
    (I := Reaches (launch setup clock choices : ClusterState count SystemClock))
    ⟨rfl, fun _ => ⟨.launch setup choices forward early, nofun, List.Pairwise.nil, nofun⟩, fun _ _ _ => nofun⟩
    (fun past s a reaches here => reaches.step here.2 here.1.1 here.1.2) ((encodes.and synchronized).and_mem running)
  have ordered := reaches.ordered awake
  intro history
  refine ⟨fun i j before => ordered.lt_of_happensBefore before, ?_⟩
  intro keeps id i j before same node heard
  obtain ⟨v, held, late⟩ := reaches.covered awake keeps id _ heard
  rw [same]
  exact ⟨v, held, lt_of_lt_of_le (ordered.lt_of_happensBefore before) late⟩

/-- Wall clocks that are always within the same five seconds. -/
theorem synchronized_of_window {clock : NodeID → SystemClock} (setup : NodeID → Setup) (choices : NodeID → Choices)
    {actions : List (ClusterAction SystemClock)} (running : ∀ a ∈ actions, Running a)
    (encodes : Along step Encodes (launch setup clock choices : ClusterState count SystemClock) actions) {low : Nat}
    (window : ∀ id, ∀ wall ∈ (clock id).readings, low ≤ (sample wall).toNat ∧ (sample wall).toNat ≤ low + 5000) :
    Along step (fun s _ => s.Synchronized) (launch setup clock choices : ClusterState count SystemClock) actions := by
  refine Along.imp (I := fun s : ClusterState count SystemClock => ∀ id, ∀ wall ∈ (s.nodes id).clock.readings,
      low ≤ (sample wall).toNat ∧ (sample wall).toNat ≤ low + 5000)
    (fun s a inside here id wall member => ?_) (fun s a inside _ id id' => ?_) window (encodes.and_mem running)
  · exact inside id wall (((step_moves here.2 here.1).suffix id).mem member)
  · have last := inside id' _ (List.mem_cons_self : (s.nodes id').clock.wall ∈ (s.nodes id').clock.readings)
    have next := inside id _ ((s.nodes id).clock.read_suffix.mem
      (List.mem_cons_self : (s.nodes id).clock.read.wall ∈ (s.nodes id).clock.read.readings))
    exact last.2.trans (Nat.add_le_add_right next.1 5000)

/-- The node whose clock the step reads. -/
def acting (s : ClusterState count SystemClock) : ClusterAction SystemClock → Option NodeID
  | .set id _ _ | .delete id _ | .evict id _ | .restart id _ _ | .sync id _ _ => some id
  | .deliver i => s.network[i]?.map Prod.fst

omit [NeZero count] in
theorem awake_launch (setup : NodeID → Setup) {clock : NodeID → SystemClock} (choices : NodeID → Choices)
    (awake : ∀ id, (clock id).hung = false) : (launch setup clock choices : ClusterState count SystemClock).Awake :=
  awake

/-- Only the calls of a run can hang. -/
theorem awake_of_returns {actions : List (ClusterAction SystemClock)} (awake : s.Awake)
    (returns : Along step (fun s a => ∀ id ∈ s.acting a, ((s.step a).nodes id).clock.hung = false) s actions) :
    (runFrom step s actions).Awake := by
  refine Along.invariant (I := fun _ (s : ClusterState count SystemClock) => s.Awake) awake
    (fun _ s a awake here => ?_) returns
  have put {id : NodeID} {n : Node count SystemClock} (back : ((s.put id n).nodes id).clock.hung = false) :
      (s.put id n).Awake := by
    rw [nodes_put] at back
    exact (Function.forall_update_iff s.nodes fun _ n => n.clock.hung = false).mpr ⟨back, fun id _ => awake id⟩
  cases a with
  | set id key value => exact put (here id rfl)
  | delete id key => exact put (here id rfl)
  | deliver i =>
    rw [step] at here ⊢
    cases message : s.network[i]? with
    | none => exact awake
    | some m =>
      simp only [acting, message] at here
      exact put (here m.1 rfl)
  | evict id key => exact put (here id rfl)
  | restart id clock choices => exact put (here id rfl)
  | sync id peer round => exact put (here id rfl)

end ClusterState

end Clusters

open Reference Protobuf

/-- Two nodes that own every key, with wall clocks that go together. -/
def launchedPair : ClusterState 1 SystemClock :=
  .launch (fun _ => ⟨durable, pairRing, 2⟩) (fun _ => steadyClock) fun _ => .plain

/-- The second node overwrites what it has heard from the first; the newer write is the
first to reach the first node. -/
def overwritten : List (ClusterAction SystemClock) :=
  [.set [97] [107] [1], .deliver 0, .set [98] [107] [2], .deliver 2, .deliver 0]

theorem causal_order_overwritten :
    let history := emitted ClusterState.step ClusterState.issues launchedPair overwritten
    let node := (runFrom ClusterState.step launchedPair overwritten).nodes [97]
    ∃ i j, HappensBefore history i j ∧ (history.get i).request ∈ node.heard ∧
      (history.get i).request.timestamp < (history.get j).request.timestamp ∧
      ∃ v, node.core.sw.hm.cell hashFunc (history.get i).request.key = some v ∧
        (history.get i).request.timestamp < v.timestamp := by
  have running : ∀ a ∈ overwritten, ClusterState.Running a := by decide
  have encodes : Along ClusterState.step ClusterState.Encodes launchedPair overwritten := by decide +kernel
  have returns : Along ClusterState.step
      (fun s a => ∀ id ∈ s.acting a, ((s.step a).nodes id).clock.hung = false) launchedPair overwritten := by
    decide +kernel
  -- The list is checked as a list: the instance for `∀ wall ∈ _` may range over all 64-bit integers.
  have inside : steadyClock.readings.all fun wall => sample wall < maxPhysical ∧
      1000 ≤ (sample wall).toNat ∧ (sample wall).toNat ≤ 1000 + 5000 := by decide +kernel
  simp only [List.all_eq_true, decide_eq_true_eq] at inside
  have before : HappensBefore (emitted ClusterState.step ClusterState.issues launchedPair overwritten)
      ⟨0, by decide +kernel⟩ ⟨1, by decide +kernel⟩ := .single (.heard (by decide +kernel))
  have calm : ∀ id key, ClusterAction.evict id key ∉ overwritten := fun id key => by simp [overwritten]
  unfold launchedPair at before encodes returns ⊢
  obtain ⟨less, later⟩ := ClusterState.causal_order (fun _ => ⟨durable, pairRing, 2⟩) (fun _ => .plain) running
    (fun _ => (by decide +kernel : steadyClock.Forward)) (fun _ wall read => (inside wall read).1) encodes
    (ClusterState.synchronized_of_window _ _ running encodes fun _ wall read => (inside wall read).2)
    (ClusterState.awake_of_returns (ClusterState.awake_launch _ _ fun _ => rfl) returns)
  refine ⟨_, _, before, ?_, less _ _ before, later calm [97] _ _ before ?_ ?_⟩
  · decide +kernel
  · decide +kernel
  · decide +kernel

end Oryx.Cluster
