import Oryx.Library.Runs
import Oryx.Engine.Engine

/-!
# Concurrent writers

Any number of `ApplySet` and `ApplyDelete` calls on one engine. A call is two
atomic steps, `StoreLWW` under the shard's lock and `Publish` under the segment's;
between them, and in the order in which the accepted calls reach the log, the
scheduler is free. The segments' background syncs run at any time.
-/

namespace Oryx.Core
set_option autoImplicit false
open Oryx.Library Oryx.Hashmap Oryx.Writer

/-- One step of some goroutine. -/
inductive WriterAction (count : Nat) where
  /-- a call runs up to `StoreLWW`; a stale one returns -/
  | store (r : Request)
  /-- the `i`-th of the calls that are still to be logged publishes and returns -/
  | publish (i : Nat)
  /-- a tick of a segment's `backgroundSync` -/
  | sync (i : Fin count)

/-- The requests of a run, in the order of their `StoreLWW` steps. -/
def requests {count : Nat} (actions : List (WriterAction count)) : List Request :=
  actions.filterMap fun
    | .store r => some r
    | _ => none

theorem mem_requests_snoc {count : Nat} {past : List (WriterAction count)} {a : WriterAction count} {r : Request} :
    r ∈ requests (past ++ [a]) ↔ r ∈ requests past ∨ a = .store r := by
  rw [requests, List.filterMap_append, List.mem_append, ← requests]
  cases a <;> simp [eq_comm]

/-- An engine and the accepted requests that are still to be logged. -/
structure Writers (count : Nat) (C : Type) where
  eng : Engine count C
  pending : List Request

variable {count : Nat} {C : Type} [NeZero count] [Security] [Proto] [Clocker C]

def EngineWal.sync (wal : EngineWal count) (i : Fin count) : EngineWal count :=
  match wal with
  | .nop => .nop
  | .wal w => .wal (w.sync i)

namespace Writers

def withSw (s : Writers count C) (sw : StorageWriter (EngineWal count) C) (pending : List Request) : Writers count C :=
  ⟨{ s.eng with sw := sw }, pending⟩

def step (s : Writers count C) : WriterAction count → Writers count C
  | .store r =>
    s.withSw (s.eng.sw.store r).2 (if (s.eng.sw.store r).1 then s.pending ++ [r] else s.pending)
  | .publish i =>
    match s.pending[i]? with
    | none => s
    | some r => s.withSw (s.eng.sw.publish (verb r) r).2 (s.pending.eraseIdx i)
  | .sync i => s.withSw { s.eng.sw with wal := s.eng.sw.wal.sync i } s.pending

/-- A call that nobody interrupts is `ApplySet` or `ApplyDelete`. -/
theorem step_uninterrupted (eng : Engine count C) (r : Request) :
    runFrom step ⟨eng, []⟩ [.store r, .publish 0] = ⟨{ eng with sw := (eng.sw.apply r).2 }, []⟩ := by
  rw [StorageWriter.apply_eq, StorageWriter.persist]
  by_cases stored : (eng.sw.store r).1 = true
  · simp [runFrom, step, withSw, stored]
  · simp [runFrom, step, withSw, stored]

/-- A request that the map has accepted: logged, or about to be. -/
def Written (s : Writers count C) (logs : Fin count → List Request) (r : Request) : Prop :=
  r ∈ logs (Wal.segmentOf r.key) ∨ r ∈ s.pending

/-- **What every run keeps**: the map is the merge of the requests `seen` so far,
the log holds `logs`, and the record of every key is a request that was written. -/
structure Tracked (seen : List Request) (logs : Fin count → List Request) (s : Writers count C) : Prop where
  merged : s.eng.sw.hm = mergeAll newShardedMap seen
  holds : ∃ w, s.eng.sw.wal = .wal w ∧ w.Holds logs
  faithful : ∀ r ∈ seen, Faithful r
  seen : ∀ r, s.Written logs r → r ∈ seen
  source : ∀ k v, s.eng.sw.hm.cell hashFunc k = some v → ∃ r, s.Written logs r ∧ r.key = k ∧ record r = v

omit [Clocker C] in
theorem Tracked.inv {seen : List Request} {logs : Fin count → List Request} {s : Writers count C}
    (tracked : s.Tracked seen logs) : s.eng.sw.hm.Inv hashFunc := by
  rw [tracked.merged]
  exact inv_mergeAll (ShardedMap.inv_new hashFunc) seen

omit [Clocker C] in
/-- The record of a key is the highest of the requests seen for it. -/
theorem Tracked.top {seen : List Request} {logs : Fin count → List Request} {s : Writers count C}
    (tracked : s.Tracked seen logs) (k : Key) :
    LastWriter.Top rank (offers seen k) (s.eng.sw.hm.cell hashFunc k) := by
  rw [tracked.merged]
  exact top_mergeAll seen k

omit [Clocker C] in
/-- Every request seen ranks at or below the record of its key. -/
theorem Tracked.below {seen : List Request} {logs : Fin count → List Request} {s : Writers count C}
    (tracked : s.Tracked seen logs) {r : Request} (member : r ∈ seen) :
    ∃ v, s.eng.sw.hm.cell hashFunc r.key = some v ∧ rank (record r) ≤ rank v := by
  have top := tracked.top r.key
  have offered : record r ∈ offers seen r.key := mem_offers.mpr ⟨r, member, rfl, rfl⟩
  cases held : s.eng.sw.hm.cell hashFunc r.key with
  | none =>
    rw [held] at top
    have empty : offers seen r.key = [] := top
    rw [empty] at offered
    cases offered
  | some v =>
    rw [held] at top
    exact ⟨v, rfl, top.2 _ offered⟩

theorem mem_pending_store {s : Writers count C} {r r' : Request} :
    r' ∈ (s.step (.store r)).pending ↔ r' ∈ s.pending ∨ (merge s.eng.sw.hm r).2 = true ∧ r' = r := by
  show r' ∈ (if (merge s.eng.sw.hm r).2 then s.pending ++ [r] else s.pending) ↔ _
  split <;> simp_all

theorem Tracked.store {seen : List Request} {logs : Fin count → List Request} {s : Writers count C}
    (tracked : s.Tracked seen logs) {r : Request} (faithful : Faithful r) :
    (s.step (.store r)).Tracked (seen ++ [r]) logs := by
  refine ⟨?_, tracked.holds, ?_, ?_, ?_⟩
  · show (merge s.eng.sw.hm r).1 = mergeAll newShardedMap (seen ++ [r])
    rw [tracked.merged, mergeAll, mergeAll, List.foldl_append]
    rfl
  · intro r' member
    rcases List.mem_append.mp member with old | new
    · exact tracked.faithful r' old
    · rwa [List.mem_singleton.mp new]
  · rintro r' (logged | waiting)
    · exact List.mem_append_left _ (tracked.seen r' (Or.inl logged))
    · rcases mem_pending_store.mp waiting with old | ⟨-, rfl⟩
      · exact List.mem_append_left _ (tracked.seen r' (Or.inr old))
      · exact List.mem_append_right _ (List.mem_singleton_self r')
  · intro k v held
    rcases cell_merge_cases tracked.inv held with ⟨accepted, rfl, rfl⟩ | old
    · exact ⟨r, Or.inr (mem_pending_store.mpr (Or.inr ⟨accepted, rfl⟩)), rfl, rfl⟩
    · obtain ⟨r', written, key, same⟩ := tracked.source k v old
      exact ⟨r', written.imp_right fun waiting => mem_pending_store.mpr (Or.inl waiting), key, same⟩

theorem Tracked.publish {seen : List Request} {logs : Fin count → List Request} {s : Writers count C}
    (tracked : s.Tracked seen logs) (i : Nat) :
    ∃ logs', (s.step (.publish i)).Tracked seen logs' ∧
      ∀ r, (s.step (.publish i)).Written logs' r ↔ s.Written logs r := by
  cases found : s.pending[i]? with
  | none =>
    have same : s.step (.publish i) = s := by simp [step, found]
    rw [same]
    exact ⟨logs, tracked, fun _ => Iff.rfl⟩
  | some r =>
    have waiting : r ∈ s.pending := List.mem_of_getElem? found
    obtain ⟨w, isWal, holds⟩ := tracked.holds
    have next : s.step (.publish i) =
        s.withSw (s.eng.sw.publish (verb r) r).2 (s.pending.eraseIdx i) := by
      simp [step, found]
    have faithful := tracked.faithful r (tracked.seen r (Or.inr waiting))
    have written : ∀ r', (s.step (.publish i)).Written (Wal.logged logs r) r' ↔ s.Written logs r' := by
      intro r'
      have split : r' ∈ s.pending ↔ r' = r ∨ r' ∈ s.pending.eraseIdx i := by
        obtain ⟨bound, rfl⟩ := List.getElem?_eq_some_iff.mp found
        rw [← (List.getElem_cons_eraseIdx_perm bound).mem_iff, List.mem_cons]
      rw [next, Written, Written, Wal.mem_logged, split]
      show (_ ∨ _) ∨ r' ∈ s.pending.eraseIdx i ↔ _
      constructor
      · rintro ((old | ⟨rfl, -⟩) | rest)
        · exact Or.inl old
        · exact Or.inr (Or.inl rfl)
        · exact Or.inr (Or.inr rest)
      · rintro (old | rfl | rest)
        · exact Or.inl (Or.inl old)
        · exact Or.inl (Or.inr ⟨rfl, rfl⟩)
        · exact Or.inr rest
    refine ⟨Wal.logged logs r, ⟨?_, ?_, tracked.faithful, ?_, ?_⟩, written⟩
    · rw [next]
      exact tracked.merged
    · refine ⟨_, ?_, holds.publish faithful⟩
      rw [next]
      simp only [withSw, StorageWriter.publish, isWal]
      rfl
    · exact fun r' h => tracked.seen r' ((written r').mp h)
    · intro k v held
      rw [next] at held
      obtain ⟨r', old, key, record⟩ := tracked.source k v held
      exact ⟨r', (written r').mpr old, key, record⟩

theorem Tracked.sync {seen : List Request} {logs : Fin count → List Request} {s : Writers count C}
    (tracked : s.Tracked seen logs) (i : Fin count) : (s.step (.sync i)).Tracked seen logs := by
  obtain ⟨w, isWal, holds⟩ := tracked.holds
  refine ⟨tracked.merged, ⟨w.sync i, ?_, holds.sync i⟩, tracked.faithful, tracked.seen, tracked.source⟩
  simp only [step, withSw, isWal, EngineWal.sync]

/-- An engine on an empty disk, before the first call. -/
def start (config : Config) (clock : C) (choices : Choices) : Writers count C :=
  ⟨newEngine count config clock (.logOnly fun _ => []) choices, []⟩

omit [Clocker C] in
theorem tracked_start {config : Config} (on : config.replays = true) (clock : C) (choices : Choices) :
    (start config clock choices : Writers count C).Tracked [] fun _ => [] := by
  have wal : config.disableWal = false := by
    simp only [Config.replays, Bool.and_eq_true, Bool.not_eq_true'] at on
    exact on.1
  refine ⟨hm_newEngine_new config clock choices, ⟨newWal (fun _ => []) config.walBufferSize count, ?_, ?_⟩, by simp,
    ?_, fun k v held => ?_⟩
  · simp [start, newEngine, newStorageWriter, openWal, wal, Disk.logOnly]
  · exact ⟨fun _ => rfl, by simp, by simp⟩
  · rintro r (logged | waiting)
    · cases logged
    · cases waiting
  · rw [start, hm_newEngine_new, ShardedMap.cell_new] at held
    cases held

/-- One step keeps track; what it adds to the written requests is an accepted one. -/
theorem Tracked.step {past : List (WriterAction count)} {logs : Fin count → List Request} {s : Writers count C}
    (tracked : s.Tracked (requests past) logs) {a : WriterAction count} (faithful : ∀ r, a = .store r → Faithful r) :
    ∃ logs', (s.step a).Tracked (requests (past ++ [a])) logs' ∧
      ∀ r, (s.step a).Written logs' r → s.Written logs r ∨ a = .store r ∧ (merge s.eng.sw.hm r).2 = true := by
  have more : requests (past ++ [a]) = requests past ++ requests [a] := by simp [requests]
  rw [more]
  cases a with
  | store r =>
    refine ⟨logs, tracked.store (faithful r rfl), ?_⟩
    rintro r' (logged | waiting)
    · exact Or.inl (Or.inl logged)
    · rcases mem_pending_store.mp waiting with old | ⟨accepted, rfl⟩
      · exact Or.inl (Or.inr old)
      · exact Or.inr ⟨rfl, accepted⟩
  | publish i =>
    obtain ⟨logs', next, written⟩ := tracked.publish i
    refine ⟨logs', ?_, fun r h => Or.inl ((written r).mp h)⟩
    simpa [requests] using next
  | sync i =>
    refine ⟨logs, ?_, fun r h => Or.inl h⟩
    simpa [requests] using tracked.sync i

/-- Every run is tracked. -/
theorem tracked_run {config : Config} (on : config.replays = true) (clock : C) (choices : Choices)
    {actions : List (WriterAction count)} (faithful : ∀ r ∈ requests actions, Faithful r) :
    ∃ logs, (runFrom step (start config clock choices) actions).Tracked (requests actions) logs := by
  let I (past : List (WriterAction count)) (s : Writers count C) : Prop :=
    (∀ r ∈ requests past, Faithful r) → ∃ logs, s.Tracked (requests past) logs
  have run : I actions (runFrom step (start config clock choices) actions) := by
    refine runFrom_invariant (fun _ => ⟨_, tracked_start on clock choices⟩) (fun past s a before faithful => ?_) actions
    obtain ⟨logs, tracked⟩ := before fun r h => faithful r (mem_requests_snoc.mpr (Or.inl h))
    obtain ⟨logs', next, -⟩ := tracked.step fun r h => faithful r (mem_requests_snoc.mpr (Or.inr h))
    exact ⟨logs', next⟩
  exact run faithful

end Writers

end Oryx.Core
