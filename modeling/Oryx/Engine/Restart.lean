import Oryx.Wal.Protobuf
import Oryx.Writer.Convergence
import Oryx.Engine.Writers

/-!
# Restarts

An engine that is stopped cleanly and started again on the same files, compared
with what it held before. Replay resolves conflicts by the timestamp alone, first
logged first, and rebuilds records without their node id: both differ from the
live map, which ranks by timestamp, node id and item hash.
-/

namespace Oryx.Core
set_option autoImplicit false
open Oryx.Library Oryx.Hashmap Oryx.Writer

section Restart

variable {count : Nat} {C : Type} [NeZero count] [Security] [Proto] [Clocker C]

/-- Stop, then start on the same paths. -/
def Writers.restart (s : Writers count C) (config : Config) (clock : C) (choices : Choices) : Engine count C :=
  newEngine count config clock (s.eng.stop (.logOnly fun _ => [])) choices

namespace Writers

omit [NeZero count] [Clocker C] in
theorem restart_inv (s : Writers count C) (config : Config) (clock : C) (choices : Choices) :
    (s.restart config clock choices).sw.hm.Inv hashFunc :=
  newEngine_inv config clock _ choices

omit [Clocker C] in
/-- Once every call has returned, a restart recovers under every key what its
segment's log leaves. -/
theorem Tracked.cell_restart {seen : List Request} {logs : Fin count → List Request} {s : Writers count C}
    (tracked : s.Tracked seen logs) {config : Config} (on : config.replays = true) (clock : C) (choices : Choices)
    (k : Key) :
    (s.restart config clock choices).sw.hm.cell hashFunc k =
      (replaySlot (logs (Wal.segmentOf k)) k).map (withItemHash (hashFunc k)) := by
  obtain ⟨w, isWal, holds⟩ := tracked.holds
  have disk : s.eng.stop (.logOnly fun _ => []) = .logOnly fun n => if h : n < count then w.stop ⟨n, h⟩ else [] := by
    simp only [Engine.stop, isWal, Disk.logOnly]
  rw [restart, disk]
  exact cell_newEngine_log on (holds.reopen (by simp) config.walBufferSize) clock choices k

omit [Clocker C] in
theorem Tracked.logged {seen : List Request} {logs : Fin count → List Request} {s : Writers count C}
    (tracked : s.Tracked seen logs) {k : Key} {r : Request} (member : r ∈ logs (Wal.segmentOf k)) (key : r.key = k) :
    ∃ v, s.eng.sw.hm.cell hashFunc k = some v ∧ rank (record r) ≤ rank v := by
  subst key
  exact tracked.below (tracked.seen r (Or.inl member))

omit [Clocker C] in
/-- The record of a key is in the log, once every call has returned. -/
theorem Tracked.source_logged {seen : List Request} {logs : Fin count → List Request} {s : Writers count C}
    (tracked : s.Tracked seen logs) (returned : s.pending = []) {k : Key} {v : Value}
    (held : s.eng.sw.hm.cell hashFunc k = some v) : ∃ r ∈ logs (Wal.segmentOf k), r.key = k ∧ record r = v := by
  obtain ⟨r, written, rfl, same⟩ := tracked.source k v held
  rcases written with logged | waiting
  · exact ⟨r, logged, rfl, same⟩
  · rw [returned] at waiting
    cases waiting

/-! ## Answers -/

/-- `StoreLWW` of `r` does not replace a record of the same timestamp by one that
`Get` would answer differently. -/
def TieSafe (s : Writers count C) (r : Request) : Prop :=
  ∀ old ∈ s.eng.sw.hm.loadCell r.key (hashFunc r.key), old.timestamp = r.timestamp →
    lwwWins old (record r) = true → answer old = answer r.toValue

instance (s : Writers count C) (r : Request) : Decidable (s.TieSafe r) :=
  inferInstanceAs (Decidable (∀ old ∈ s.eng.sw.hm.loadCell r.key (hashFunc r.key), _))

/-- Only a `StoreLWW` can meet a tie. -/
def SafeStep (s : Writers count C) : WriterAction count → Prop
  | .store r => s.TieSafe r
  | .publish _ => True
  | .sync _ => True

instance (s : Writers count C) (a : WriterAction count) : Decidable (s.SafeStep a) :=
  match a with
  | .store r => inferInstanceAs (Decidable (s.TieSafe r))
  | .publish _ => isTrue trivial
  | .sync _ => isTrue trivial

/-- The written requests that share the timestamp of their key's record answer as it does. -/
def Settled (logs : Fin count → List Request) (s : Writers count C) : Prop :=
  ∀ r v, s.Written logs r → s.eng.sw.hm.cell hashFunc r.key = some v → r.timestamp = v.timestamp →
    answer r.toValue = answer v

theorem hm_step_publish (s : Writers count C) (i : Nat) : (s.step (.publish i)).eng.sw.hm = s.eng.sw.hm := by
  simp only [step]
  split <;> rfl

theorem Settled.store {seen : List Request} {logs logs' : Fin count → List Request} {s : Writers count C}
    (settled : s.Settled logs) (tracked : s.Tracked seen logs) {r : Request} (safe : s.TieSafe r)
    (written : ∀ r', (s.step (.store r)).Written logs' r' →
      s.Written logs r' ∨ r' = r ∧ (merge s.eng.sw.hm r).2 = true) :
    (s.step (.store r)).Settled logs' := by
  intro r' v here held time
  rcases cell_merge_cases tracked.inv held with ⟨accepted, key, rfl⟩ | old
  · rcases written r' here with before | ⟨rfl, -⟩
    · obtain ⟨existing, there, below⟩ := tracked.below (tracked.seen r' before)
      rw [merge_accepted tracked.inv, ← key, there] at accepted
      have wins : lwwWins existing (record r) = true := accepted
      -- the replaced record ranks between the two, so all three share one timestamp
      have low : r'.timestamp ≤ existing.timestamp := record_timestamp r' ▸ timestamp_le_of_rank_le below
      have high := timestamp_le_of_rank_le (lwwWins_iff.mp wins).le
      have tie : existing.timestamp = (record r).timestamp := le_antisymm high (time ▸ low)
      rw [settled r' existing before there (time.trans tie.symm)]
      refine safe existing ?_ (tie.trans (record_timestamp r)) wins
      rw [tracked.inv.loadCell_eq, ← key, there]
      rfl
    · rfl
  · rcases written r' here with before | ⟨rfl, accepted⟩
    · exact settled r' v before old time
    · have new := cell_merge_accepted tracked.inv accepted
      rw [show (merge s.eng.sw.hm r').1.cell hashFunc r'.key = some v from held] at new
      rw [Option.some.inj new]
      rfl

theorem Settled.step {seen : List Request} {logs logs' : Fin count → List Request} {s : Writers count C}
    (settled : s.Settled logs) (tracked : s.Tracked seen logs) {a : WriterAction count}
    (safe : s.SafeStep a)
    (written : ∀ r, (s.step a).Written logs' r →
      s.Written logs r ∨ a = .store r ∧ (merge s.eng.sw.hm r).2 = true) :
    (s.step a).Settled logs' := by
  have unchanged (idle : ∀ r, a ≠ .store r) (map : (s.step a).eng.sw.hm = s.eng.sw.hm) :
      (s.step a).Settled logs' := by
    intro r v here held time
    rw [map] at held
    rcases written r here with before | ⟨store, -⟩
    · exact settled r v before held time
    · exact absurd store (idle r)
  cases a with
  | store r =>
    refine settled.store tracked safe fun r' here => (written r' here).imp_right ?_
    rintro ⟨same, accepted⟩
    cases same
    exact ⟨rfl, accepted⟩
  | publish i => exact unchanged (by simp) (s.hm_step_publish i)
  | sync i => exact unchanged (by simp) rfl

/-- What every tie-safe run keeps. -/
theorem settled_run {config : Config} (on : config.replays = true) (clock : C) (choices : Choices)
    {actions : List (WriterAction count)} (faithful : ∀ r ∈ requests actions, Faithful r)
    (safe : Along step SafeStep (start config clock choices) actions) :
    ∃ logs, (runFrom step (start config clock choices) actions).Tracked (requests actions) logs ∧
      (runFrom step (start config clock choices) actions).Settled logs := by
  let I (past : List (WriterAction count)) (s : Writers count C) : Prop :=
    (∀ r ∈ requests past, Faithful r) → ∃ logs, s.Tracked (requests past) logs ∧ s.Settled logs
  have run : I actions (runFrom step (start config clock choices) actions) := by
    refine safe.invariant ?_ fun past s a before here faithful => ?_
    · intro _
      refine ⟨_, tracked_start on clock choices, ?_⟩
      rintro r v (logged | waiting)
      · cases logged
      · cases waiting
    · obtain ⟨logs, tracked, settled⟩ := before fun r h => faithful r (mem_requests_snoc.mpr (Or.inl h))
      obtain ⟨logs', next, written⟩ := tracked.step fun r h => faithful r (mem_requests_snoc.mpr (Or.inr h))
      exact ⟨logs', next, settled.step tracked here written⟩
  exact run faithful

/-- **Restart answers**: in every run whose `StoreLWW` steps are tie-safe, once
every call has returned, a restarted engine answers every `Get` as before. -/
theorem restart_get {config : Config} (on : config.replays = true) (clock clock' : C) (choices choices' : Choices)
    {actions : List (WriterAction count)} (faithful : ∀ r ∈ requests actions, Faithful r)
    (safe : Along step SafeStep (start config clock choices) actions)
    (returned : (runFrom step (start config clock choices) actions).pending = []) (k : Key) :
    ((runFrom step (start config clock choices) actions).restart config clock' choices').get k =
      (runFrom step (start config clock choices) actions).eng.get k := by
  obtain ⟨logs, tracked, settled⟩ := settled_run on clock choices faithful safe
  rw [Engine.get_eq (restart_inv _ _ _ _), Engine.get_eq tracked.inv, tracked.cell_restart on]
  rcases replaySlot_cases (logs (Wal.segmentOf k)) k with ⟨slot, absent⟩ | ⟨r, inLog, key, latest, slot⟩
  · cases held : (runFrom step (start config clock choices) actions).eng.sw.hm.cell hashFunc k with
    | none => rw [slot]; rfl
    | some v =>
      obtain ⟨r, inLog, key, -⟩ := tracked.source_logged returned held
      exact absurd key (absent r inLog)
  · obtain ⟨v, held, below⟩ := tracked.logged inLog key
    obtain ⟨winner, logged, key', same⟩ := tracked.source_logged returned held
    have time : r.timestamp = v.timestamp := by
      refine le_antisymm (record_timestamp r ▸ timestamp_le_of_rank_le below) ?_
      rw [← same, record_timestamp]
      exact latest winner logged key'
    have answers : answer r.toValue = answer v := by
      subst key
      exact settled r v (Or.inl inLog) held time
    rw [slot, held, Option.map_some, Option.bind_some, Option.bind_some, answer_replayed, answers]

/-! ## Records -/

omit [Clocker C] in
/-- With timestamps of their own, the live record of a key is its latest request. -/
theorem Tracked.cell_latest {seen : List Request} {logs : Fin count → List Request} {s : Writers count C}
    (tracked : s.Tracked seen logs) (distinct : DistinctTimestamps seen) {r : Request} (member : r ∈ seen)
    (latest : ∀ r' ∈ seen, r'.key = r.key → r'.timestamp ≤ r.timestamp) :
    s.eng.sw.hm.cell hashFunc r.key = some (record r) := by
  obtain ⟨v, held, below⟩ := tracked.below member
  obtain ⟨w, written, key, rfl⟩ := tracked.source r.key v held
  have up := timestamp_le_of_rank_le below
  rw [record_timestamp, record_timestamp] at up
  have inSeen := tracked.seen w written
  rw [held, distinct r member w inSeen key (le_antisymm (latest w inSeen key) up)]

omit [Clocker C] in
/-- A restart recovers the request behind every record, without its node id. -/
theorem Tracked.cell_restart_record {seen : List Request} {logs : Fin count → List Request} {s : Writers count C}
    (tracked : s.Tracked seen logs) (distinct : DistinctTimestamps seen) (returned : s.pending = [])
    {config : Config} (on : config.replays = true) (clock : C) (choices : Choices) {r : Request}
    (held : s.eng.sw.hm.cell hashFunc r.key = some (record r)) (member : r ∈ seen) :
    (s.restart config clock choices).sw.hm.cell hashFunc r.key =
      some (withItemHash (hashFunc r.key) (replayed r)) := by
  obtain ⟨w, inLog, key, same⟩ := tracked.source_logged returned held
  have time : w.timestamp = r.timestamp := by rw [← record_timestamp, same, record_timestamp]
  obtain rfl := distinct r member w (tracked.seen w (Or.inl (key ▸ inLog))) key time
  rw [tracked.cell_restart on, replaySlot_latest inLog]
  · rfl
  · intro r' inLog' key'
    obtain ⟨v, held', below⟩ := tracked.logged inLog' key'
    obtain rfl := Option.some.inj (held.symm.trans held')
    have up := timestamp_le_of_rank_le below
    rwa [record_timestamp, record_timestamp] at up
  · exact fun r' inLog' key' time' =>
      distinct w member r' (tracked.seen r' (Or.inl (key' ▸ inLog'))) key' time'

omit [Clocker C] in
theorem Tracked.cell_restart_none {seen : List Request} {logs : Fin count → List Request} {s : Writers count C}
    (tracked : s.Tracked seen logs) {config : Config} (on : config.replays = true) (clock : C) (choices : Choices)
    {k : Key} (absent : s.eng.sw.hm.cell hashFunc k = none) :
    (s.restart config clock choices).sw.hm.cell hashFunc k = none := by
  rw [tracked.cell_restart on]
  rcases replaySlot_cases (logs (Wal.segmentOf k)) k with ⟨slot, -⟩ | ⟨r, inLog, key, -, -⟩
  · rw [slot]
    rfl
  · obtain ⟨v, held, -⟩ := tracked.logged inLog key
    rw [absent] at held
    cases held

/-- **Restart records**: with timestamps of their own, all records and digests
survive a restart exactly when the latest request of every key has no node id. -/
theorem restart_records_iff {config : Config} (on : config.replays = true) (clock clock' : C)
    (choices choices' : Choices) {actions : List (WriterAction count)} (faithful : ∀ r ∈ requests actions, Faithful r)
    (distinct : DistinctTimestamps (requests actions))
    (returned : (runFrom step (start config clock choices) actions).pending = []) :
    let live := (runFrom step (start config clock choices) actions).eng.sw.hm
    let restarted := ((runFrom step (start config clock choices) actions).restart config clock' choices').sw.hm
    ((∀ k, restarted.load k (hashFunc k) = live.load k (hashFunc k)) ∧ ShardedMap.SameDigests restarted live) ↔
      ∀ r ∈ requests actions, (∀ r' ∈ requests actions, r'.key = r.key → r'.timestamp ≤ r.timestamp) →
        r.toValue.nodeID = [] := by
  intro live restarted
  obtain ⟨logs, tracked⟩ := tracked_run on clock choices faithful
  have inv : live.Inv hashFunc := tracked.inv
  have inv' : restarted.Inv hashFunc := restart_inv _ _ _ _
  constructor
  · rintro ⟨records, -⟩ r member latest
    have held := tracked.cell_latest distinct member latest
    have back := tracked.cell_restart_record distinct returned on clock' choices' held member
    have same := records r.key
    rw [inv'.load_eq, inv.load_eq, held, back] at same
    have blank : (replayed r).blank = r.toValue.blank := Option.some.inj same
    have node := congrArg Value.nodeID blank
    cases r <;> exact node.symm
  · intro unnamed
    have cells : restarted.cell hashFunc = live.cell hashFunc := by
      funext k
      cases held : live.cell hashFunc k with
      | none => exact tracked.cell_restart_none on clock' choices' held
      | some v =>
        obtain ⟨r, written, rfl, rfl⟩ := tracked.source k v held
        have member := tracked.seen r written
        have node := unnamed r member fun r' h key => by
          obtain ⟨v, held', below⟩ := tracked.below h
          rw [key] at held'
          obtain rfl := Option.some.inj (held.symm.trans held')
          have up := timestamp_le_of_rank_le below
          rwa [record_timestamp, record_timestamp] at up
        rw [tracked.cell_restart_record distinct returned on clock' choices' held member, record]
        have whole : replayed r = r.toValue := by
          cases r <;> simp_all [replayed, Request.toValue]
        rw [whole]
    exact ⟨fun k => by rw [inv'.load_eq, inv.load_eq, cells], inv'.sameDigests inv cells⟩

end Writers

end Restart

open Reference Protobuf Writers

/-- Two calls that reach the log in the order opposite to that of the map. -/
def crossing : List (WriterAction 1) :=
  [.store (.set ⟨[97], [1], 5, [110]⟩), .store (.set ⟨[97], [2], 6, [110]⟩), .publish 1, .sync 0, .publish 0]

/-- The later write wins before and after. -/
theorem restart_get_crossing :
    ((runFrom step (start durable (MockStorageClock.mk 0) .plain) crossing).restart durable (MockStorageClock.mk 0)
      .plain).get [97] = (runFrom step (start durable (MockStorageClock.mk 0) .plain) crossing).eng.get [97] :=
  restart_get (by decide) _ _ _ _ (by decide +kernel) (by decide +kernel) (by decide +kernel) [97]

/-- Two writes of one timestamp: the node id decides in memory, the log order on replay. -/
theorem restart_changes_answer :
    let s := runFrom step (start durable (MockStorageClock.mk 0) .plain)
      ([.store (.set ⟨[97], [1], 5, [110]⟩), .publish 0, .store (.set ⟨[97], [2], 5, [111]⟩), .publish 0] :
        List (WriterAction 1))
    s.pending = [] ∧ s.eng.get [97] = some [2] ∧
      (s.restart durable (MockStorageClock.mk 0) .plain).get [97] = some [1] := by
  decide +kernel

/-- One write without a node id. -/
def unnamed : List (WriterAction 1) := [.store (.set ⟨[97], [1], 5, []⟩), .publish 0]

theorem restart_records_iff_unnamed :
    ShardedMap.SameDigests
      ((runFrom step (start durable (MockStorageClock.mk 0) .plain) unnamed).restart durable (MockStorageClock.mk 0)
        .plain).sw.hm
      (runFrom step (start durable (MockStorageClock.mk 0) .plain) unnamed).eng.sw.hm := by
  refine ((restart_records_iff (by decide) _ _ _ _ ?_ ?_ ?_).mpr ?_).2
  · decide +kernel
  · unfold DistinctTimestamps
    decide
  · decide +kernel
  · decide

/-- One write of node `n`: after a restart its record has no node id and the root
digest is another one. -/
theorem restart_changes_digest :
    let s := runFrom step (start durable (MockStorageClock.mk 0) .plain)
      ([.store (.set ⟨[97], [1], 5, [110]⟩), .publish 0] : List (WriterAction 1))
    let restarted := s.restart durable (MockStorageClock.mk 0) .plain
    s.pending = [] ∧ s.eng.sw.hm.load [97] (hashFunc [97]) = some ⟨[110], [1], 5, false, 0⟩ ∧
      restarted.sw.hm.load [97] (hashFunc [97]) = some ⟨[], [1], 5, false, 0⟩ ∧
      restarted.sw.hm.rootDigest ≠ s.eng.sw.hm.rootDigest := by
  decide +kernel

end Oryx.Core
