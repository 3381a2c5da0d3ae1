import Mathlib.Data.List.Destutter
import Oryx.Evict.Occupancy
import Oryx.Mesh.Membership

/-!
# Load shedding

`cluster/stats/monitor.go`: every three seconds the monitor asks the evictor for its occupancy
and, if that calls for another weight, sets the weight of the node, which `memberlist` spreads
and the rings of the peers follow. The comparisons with 0.90 and 0.80 are between binary64
numbers; they come out as the comparisons of the exact totals.
-/

namespace Oryx.Stats
set_option autoImplicit false
open Oryx.Library Oryx.Evict Oryx.Mesh Oryx.Membership

/-- The state of the run loop. -/
structure Monitor where
  weight : Int
  deriving DecidableEq, Repr

def newMonitor : Monitor := ⟨128⟩

/-- `newWeight` for a ratio; the constants are the binary64 numbers nearest to 0.90 and 0.80. -/
def newWeight (ratio : ℚ) : Int :=
  if ratio ≥ round64 (90 / 100) then 16
  else if ratio ≥ round64 (80 / 100) then 64
  else 128

/-- One tick, and the call of `setWeight` if there is one. -/
def Monitor.tick (m : Monitor) (ratio : ℚ) : Monitor × Option Int :=
  if newWeight ratio ≠ m.weight then (⟨newWeight ratio⟩, some (newWeight ratio)) else (m, none)

/-- The weight for a cache of `cap` places of which `size` are taken. -/
def tier (size cap : Nat) : Int :=
  if 9 * cap ≤ 10 * size then 16 else if 8 * cap ≤ 10 * size then 64 else 128

/-! ## The thresholds -/

/-- A threshold in hundredths, compared in binary64 and exactly. -/
theorem threshold_iff {size cap : Nat} (some_room : 0 < cap) (below : size ≤ cap) (narrow : cap < 2 ^ 32)
    (percent : Nat) (share : percent ≤ 100) :
    round64 ((percent : ℚ) / (100 : Nat)) ≤ round64 ((size : ℚ) / cap) ↔ percent * cap ≤ size * 100 := by
  have cross : size * 100 + percent * cap < 2 ^ 53 := by
    have scaled : percent * cap ≤ 100 * cap := Nat.mul_le_mul_right cap share
    omega
  exact round64_le_iff some_room (by decide) (by omega) (by decide) cross

/-- **The floating point comparisons are exact.** -/
theorem newWeight_round64 {size cap : Nat} (some_room : 0 < cap) (below : size ≤ cap) (narrow : cap < 2 ^ 32) :
    newWeight (round64 ((size : ℚ) / cap)) = tier size cap := by
  have severe := threshold_iff some_room below narrow 90 (by decide)
  have partly := threshold_iff some_room below narrow 80 (by decide)
  push_cast at severe partly
  have most : 9 * cap ≤ 10 * size ↔ 90 * cap ≤ size * 100 := by omega
  have much : 8 * cap ≤ 10 * size ↔ 80 * cap ≤ size * 100 := by omega
  simp only [newWeight, tier, ge_iff_le, severe, partly, most, much]

/-! ## The node -/

/-- What the monitor works on: the evictor's shards, and the mesh that is told. -/
structure Shedder where
  monitor : Monitor
  mesh : Membership.Mesh
  lru : Watched

/-- What other goroutines do to the shards before each lock that `Occupancy` takes. -/
abbrev Tick := List (List (Nat × LinkedOp))

namespace Shedder

def start (lru : LeastRecentlyUsed) (grpcPort : Int) : Shedder := ⟨newMonitor, .new grpcPort, .start lru⟩

/-- What the monitor does at a tick; nothing, while `Occupancy` waits for a lock. -/
def ticked (s : Shedder) (t : Tick) : Monitor × Option Int :=
  match (s.lru.occupancy t).1 with
  | some ratio => s.monitor.tick ratio
  | none => (s.monitor, none)

/-- The weights that a tick passes to `setWeight`. -/
def calls (s : Shedder) (t : Tick) : List Int := (s.ticked t).2.toList

/-- A tick of the monitor of a node: `setWeight` is `UpdateLocalWeight`. -/
def step (s : Shedder) (t : Tick) : Shedder where
  monitor := (s.ticked t).1
  mesh := match (s.ticked t).2 with
    | some weight => s.mesh.updateLocalWeight weight
    | none => s.mesh
  lru := (s.lru.occupancy t).2

end Shedder

/-- The weight that the exact totals of the readings call for, if there are totals. -/
def exactTier (read : Option (List Reading)) : Option Int := read.map fun rs => tier (exactSize rs) (exactCap rs)

/-- The weights that the ticks call for one after the other. -/
def tiers (w : Watched) : List Tick → List Int
  | [] => []
  | t :: later => (exactTier (w.readings 0 t).1).toList ++ tiers (w.readings 0 t).2 later

/-! ## The run of the monitor -/

section Run

variable {n : Nat} {shardCap : UInt32}

/-- Shards that were built with room for something, and no more than 32 bits can count. -/
structure Roomy (n : Nat) (shardCap : UInt32) (w : Watched) : Prop where
  kept : w.Kept n shardCap
  some_shard : 0 < n
  roomy : 0 < shardCap.toNat
  narrow : n * shardCap.toNat < 2 ^ 32

theorem Roomy.tick {w : Watched} (roomy : Roomy n shardCap w) {t : Tick} (turns : t.length = n) :
    (w.occupancy t).1.map newWeight = exactTier (w.readings 0 t).1 ∧ Roomy n shardCap (w.readings 0 t).2 := by
  obtain ⟨-, after⟩ := roomy.kept.readings 0 t (by omega)
  refine ⟨?_, after, roomy.some_shard, roomy.roomy, roomy.narrow⟩
  cases read : (w.readings 0 t).1 with
  | none => simp only [Watched.occupancy, read, exactTier, Option.map_none]
  | some rs =>
    obtain ⟨ratio, below, some_room, narrow⟩ :=
      roomy.kept.occupancy roomy.some_shard roomy.roomy roomy.narrow turns read
    rw [ratio, Option.map_some, newWeight_round64 some_room below narrow, exactTier, Option.map_some]

theorem roomy_start {config : LRUConfig} {lru : LeastRecentlyUsed} (accepted : newLRU config = .ok lru) :
    ∃ shardCap, Roomy config.shards shardCap (.start lru) := by
  obtain ⟨shardCap, roomy, some_shard, total, kept⟩ := Watched.kept_start accepted
  exact ⟨shardCap, kept, some_shard, roomy, Nat.lt_of_le_of_lt total config.capacity.toNat_lt⟩

/-- The three weights that there are. -/
theorem toInt_ofInt_tier (size cap : Nat) : (Int32.ofInt (tier size cap)).toInt = tier size cap := by
  unfold tier
  split
  · rfl
  · split <;> rfl

/-- The mesh has been told the weight that the monitor stands at. -/
def InStep (s : Shedder) : Prop := s.mesh.localWeight.toInt = s.monitor.weight

/-- The weight that a tick leaves. -/
theorem ticked_eq (s : Shedder) (t : Tick) :
    let new := ((s.lru.occupancy t).1.map newWeight).getD s.monitor.weight
    s.ticked t = if new ≠ s.monitor.weight then (⟨new⟩, some new) else (s.monitor, none) := by
  rw [Shedder.ticked]
  cases (s.lru.occupancy t).1 with
  | none => simp
  | some ratio => rfl

/-- A tick either leaves the weight alone or sets it and tells the mesh. -/
theorem step_cases (s : Shedder) (t : Tick) :
    let new := ((s.lru.occupancy t).1.map newWeight).getD s.monitor.weight
    (new = s.monitor.weight ∧ s.calls t = [] ∧ s.step t = ⟨s.monitor, s.mesh, (s.lru.readings 0 t).2⟩) ∨
      (new ≠ s.monitor.weight ∧ s.calls t = [new] ∧
        s.step t = ⟨⟨new⟩, s.mesh.updateLocalWeight new, (s.lru.readings 0 t).2⟩) := by
  intro new
  by_cases same : new = s.monitor.weight
  · have ticked : s.ticked t = (s.monitor, none) := (ticked_eq s t).trans (if_neg (not_not.mpr same))
    refine Or.inl ⟨same, ?_, ?_⟩
    · rw [Shedder.calls, ticked, Option.toList_none]
    · simp only [Shedder.step, ticked]
      rfl
  · have ticked : s.ticked t = (⟨new⟩, some new) := (ticked_eq s t).trans (if_pos same)
    refine Or.inr ⟨same, ?_, ?_⟩
    · rw [Shedder.calls, ticked, Option.toList_some]
    · simp only [Shedder.step, ticked]
      rfl

/-- **One tick** brings the monitor and the mesh to the tier, and calls `setWeight` if that is new. -/
theorem step_tier {s : Shedder} (roomy : Roomy n shardCap s.lru) (told : InStep s) {t : Tick} (turns : t.length = n) :
    let new := (exactTier (s.lru.readings 0 t).1).getD s.monitor.weight
    (s.step t).monitor.weight = new ∧ InStep (s.step t) ∧
      s.calls t = (if s.monitor.weight ≠ new then [new] else []) ∧ (s.step t).lru = (s.lru.readings 0 t).2 ∧
      (s.step t).mesh.grpcPort = s.mesh.grpcPort := by
  have exact_weight := (roomy.tick turns).1
  have cases := step_cases s t
  intro new
  rw [exact_weight] at cases
  rcases cases with ⟨same, calls, state⟩ | ⟨different, calls, state⟩
  · rw [calls, state, if_neg (not_not.mpr same.symm)]
    exact ⟨same.symm, told, rfl, rfl, rfl⟩
  · have read_all : (s.lru.readings 0 t).1 ≠ none := fun waits => different (by rw [waits]; rfl)
    obtain ⟨rs, read⟩ := Option.ne_none_iff_exists'.mp read_all
    have tiered : new = tier (exactSize rs) (exactCap rs) := by
      simp only [new, read]
      rfl
    have announced : (Int32.ofInt new).toInt = new := by rw [tiered, toInt_ofInt_tier]
    rw [calls, state, if_pos (Ne.symm different)]
    exact ⟨rfl, announced, rfl, rfl, rfl⟩

/-- The ticks from any moment on. -/
theorem run_tiers {s : Shedder} (roomy : Roomy n shardCap s.lru) (told : InStep s) {ts : List Tick}
    (turns : ∀ t ∈ ts, t.length = n) :
    let s' := runFrom Shedder.step s ts
    s.monitor.weight :: emitted Shedder.step Shedder.calls s ts = (tiers s.lru ts).destutter' (· ≠ ·) s.monitor.weight ∧
      s'.monitor.weight = (tiers s.lru ts).getLastD s.monitor.weight ∧ InStep s' ∧
      s'.mesh.grpcPort = s.mesh.grpcPort := by
  induction ts generalizing s with
  | nil => exact ⟨rfl, rfl, told, rfl⟩
  | cons t later ih =>
    obtain ⟨here, rest⟩ := List.forall_mem_cons.mp turns
    obtain ⟨weight, told', calls, lru, port⟩ := step_tier roomy told here
    have roomy' : Roomy n shardCap (s.step t).lru := lru ▸ (roomy.tick here).2
    obtain ⟨announced, last, told'', port'⟩ := ih roomy' told' rest
    rw [weight, lru] at announced last
    rw [emitted, calls, tiers]
    cases read : exactTier (s.lru.readings 0 t).1 with
    | none =>
      -- the tick waits: no call, no tier, and the weight is as before
      rw [read, Option.getD_none] at announced last
      rw [Option.getD_none, if_neg (not_not.mpr rfl), Option.toList_none, List.nil_append, List.nil_append]
      exact ⟨announced, last, told'', port'.trans port⟩
    | some new =>
      rw [read, Option.getD_some] at announced last
      rw [Option.getD_some, Option.toList_some, List.singleton_append, List.destutter'_cons, List.getLastD_cons]
      refine ⟨?_, last, told'', port'.trans port⟩
      split
      · rw [← announced]
        rfl
      · rename_i same
        rw [not_not] at same
        rw [same, ← announced]
        rfl

end Run

/-- **Load shedding is exact**: for every accepted configuration of the evictor, whatever
happens to its shards before and between the readings, the weights passed to `setWeight` are
the tiers of the exact totals with repetitions left out, and after every tick the monitor and
the weight that the node announces are at the last tier. -/
theorem sheds_by_tier {config : LRUConfig} {lru : LeastRecentlyUsed} (accepted : newLRU config = .ok lru)
    (grpcPort : Int) (ts : List Tick) (turns : ∀ t ∈ ts, t.length = config.shards) :
    let s := runFrom Shedder.step (.start lru grpcPort) ts
    128 :: emitted Shedder.step Shedder.calls (.start lru grpcPort) ts =
        (tiers (.start lru) ts).destutter' (· ≠ ·) 128 ∧
      s.monitor.weight = (tiers (.start lru) ts).getLastD 128 ∧
      s.mesh.localWeight.toInt = (tiers (.start lru) ts).getLastD 128 := by
  obtain ⟨shardCap, roomy⟩ := roomy_start accepted
  obtain ⟨announced, last, told, -⟩ := run_tiers (s := .start lru grpcPort) roomy rfl turns
  exact ⟨announced, last, told.trans last⟩

/-- Two of two places are taken before the first tick, and one of the entries has expired before the second. -/
def fullThenHalf : List Tick :=
  [[[(0, .seen [97] 1 0 0 0), (0, .seen [98] 2 50 0 0)]], [[(0, .evictExpired 120)]]]

theorem sheds_by_tier_expired : ∃ lru, newLRU ⟨2, 100, 1⟩ = .ok lru ∧ tiers (.start lru) fullThenHalf = [16, 128] ∧
    emitted Shedder.step Shedder.calls (.start lru 7001) fullThenHalf = [16, 128] := by
  obtain ⟨lru, accepted⟩ : ∃ lru, newLRU ⟨2, 100, 1⟩ = .ok lru := ⟨_, rfl⟩
  have exact_tiers : tiers (.start lru) fullThenHalf = [16, 128] := by
    cases accepted
    decide +kernel
  obtain ⟨announced, -, -⟩ := sheds_by_tier accepted 7001 fullThenHalf (by decide)
  rw [exact_tiers] at announced
  exact ⟨lru, accepted, exact_tiers, (List.cons.inj announced).2⟩

/-! ## The peers -/

section Peers

variable [Security] [VnodeSort] [MetaProto]

/-- **The peers follow the load**: once a peer has been told of the node's last update, and
whatever it is told of other nodes since, the node has in its ring the weight that the exact
totals of the node's last tick call for, and is reached at the address it announces, if the
codec carries the metadata of the update. -/
theorem peers_follow_load {config : LRUConfig} {lru : LeastRecentlyUsed} (accepted : newLRU config = .ok lru)
    (grpcPort : Int) (port : 0 < grpcPort ∧ grpcPort < 2 ^ 31) {ts : List Tick}
    (turns : ∀ t ∈ ts, t.length = config.shards) (name : NodeID) (addr : Bytes) (peerPort : Int)
    (before after : List Notification) (others : ∀ n ∈ after, n.subject ≠ some name) :
    let s := runFrom Shedder.step (.start lru grpcPort) ts
    let ns := before ++ .update (some ⟨name, addr, s.mesh.nodeMeta⟩) :: after
    let peer := handled peerPort ns
    Carried ⟨Int32.ofInt grpcPort, s.mesh.localWeight⟩ → Along hear Told (fun _ => none) ns →
      peer.ring.weights name = some ((tiers (.start lru) ts).getLastD 128) ∧
        (peer.stopping = false → peer.addressForNode name = addr ++ ascii ":" ++ decimal grpcPort.toNat) := by
  intro s ns peer carried told
  obtain ⟨shardCap, roomy⟩ := roomy_start accepted
  obtain ⟨-, last, inStep, samePort⟩ := run_tiers (s := .start lru grpcPort) roomy rfl turns
  have weight : s.mesh.localWeight.toInt = (tiers (.start lru) ts).getLastD 128 := inStep.trans last
  have samePort : s.mesh.grpcPort = grpcPort := samePort
  have announces := announces_nodeMeta name addr (m := s.mesh) (samePort ▸ port) (samePort ▸ carried)
  rw [samePort, weight] at announces
  have split : ns = (before ++ [.update (some ⟨name, addr, s.mesh.nodeMeta⟩)]) ++ after := by
    rw [List.append_assoc, List.singleton_append]
  have view : viewOf ns name =
      some ((tiers (.start lru) ts).getLastD 128, addr ++ ascii ":" ++ decimal grpcPort.toNat) := by
    rw [split, viewOf, runFrom_append, runFrom_hear_others others, runFrom_snoc, hear]
    rw [Function.update_self, announces, Option.map_some]
  have follows := follows_handled peerPort told
  refine ⟨?_, fun running => ?_⟩
  · rw [follows.weights]
    dsimp only
    rw [view, Option.map_some]
  · rw [Mesh.addressForNode, running, follows.addresses, view]
    rfl

end Peers

section Joined

open Reference

/-- A peer that has seen the node join and then hears of the update hands it sixteen virtual nodes. -/
theorem peers_follow_load_full : ∃ lru, newLRU ⟨2, 100, 1⟩ = .ok lru ∧
    let s := runFrom Shedder.step (.start lru 7001) (fullThenHalf.take 1)
    (handled 7000 ([.join (some (localMember [97] 7001 128))] ++
      [.update (some ⟨[97], ascii "127.0.0.1", s.mesh.nodeMeta⟩)])).ring.weights [97] = some 16 := by
  obtain ⟨lru, accepted⟩ : ∃ lru, newLRU ⟨2, 100, 1⟩ = .ok lru := ⟨_, rfl⟩
  have exact_tiers : tiers (.start lru) (fullThenHalf.take 1) = [16] := by
    cases accepted
    decide +kernel
  have turns : ∀ t ∈ fullThenHalf.take 1, t.length = (LRUConfig.mk 2 100 1).shards := by decide
  obtain ⟨shardCap, roomy⟩ := roomy_start accepted
  obtain ⟨-, last, inStep, samePort⟩ := run_tiers (s := .start lru 7001) roomy rfl turns
  have port : (runFrom Shedder.step (.start lru 7001) (fullThenHalf.take 1)).mesh.grpcPort = 7001 := samePort
  have weight : (runFrom Shedder.step (.start lru 7001) (fullThenHalf.take 1)).mesh.localWeight = 16 :=
    Int32.toInt_inj.mp ((inStep.trans last).trans (congrArg (List.getLastD · 128) exact_tiers))
  have carried : Carried ⟨Int32.ofInt 7001, 16⟩ := ⟨_, rfl, by decide +kernel, rfl⟩
  have known : (viewOf [.join (some (localMember [97] 7001 128))] [97]).isSome := by decide +kernel
  have joins : Along hear Told (fun _ => none) [.join (some (localMember [97] 7001 128))] := by decide +kernel
  have told := told_nodeMeta known (ascii "127.0.0.1")
    (m := (runFrom Shedder.step (.start lru 7001) (fullThenHalf.take 1)).mesh) (by rw [port]; decide)
    (by rw [port, weight]; exact carried)
  have reached := peers_follow_load accepted 7001 (by decide) turns [97] (ascii "127.0.0.1") 7000
    [.join (some (localMember [97] 7001 128))] [] nofun (weight ▸ carried) (along_snoc.mpr ⟨joins, told⟩)
  rw [exact_tiers] at reached
  exact ⟨lru, accepted, reached.1⟩

end Joined

end Oryx.Stats
