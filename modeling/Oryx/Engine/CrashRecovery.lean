import Oryx.Wal.Format
import Oryx.Writer.Convergence
import Oryx.Engine.Engine

/-!
# Recovery after a crash

A crash leaves some prefix of every segment. A prefix that ends inside a frame
makes the replay of its segment fail; `Replay` passes the error on and `recover`
then applies nothing at all, so that one torn record empties the whole engine.
-/

namespace Oryx
set_option autoImplicit false
open Oryx.Library

section Crash

variable {count : Nat} [NeZero count] [Security] [Proto]

/-- The log after a sequence of `Publish` calls. -/
def Wal.publishAll (w : Wal count) (reqs : List Request) : Wal count :=
  reqs.foldl (fun w r => (w.publish r.key (hashFunc r.key) r).2) w

theorem Wal.holds_publishAll (bufferSize : UInt32) {reqs : List Request} (faithful : ∀ r ∈ reqs, Faithful r) :
    ((newWal (fun _ => []) bufferSize count).publishAll reqs).Holds (segmentLog reqs) := by
  let actions : List (LogAction count) := reqs.map .publish
  have same : published actions = reqs := by
    simp [actions, published, List.filterMap_map]
  have holds := Wal.holds_runFrom bufferSize (fun r member => faithful r (same ▸ member) :
    ∀ r ∈ published actions, Faithful r)
  rwa [same, runFrom, List.foldl_map] at holds

/-- The requests whose frames lie wholly in the first `cut` bytes of a segment. -/
def complete (log : List Request) (cut : Nat) : List Request := log.take (wholeCount (log.map payload) cut)

omit [Security] in
/-- What survives is the complete frames and perhaps a torn one. -/
theorem take_logBytes (log : List Request) (cut : Nat) :
    ∃ part, (logBytes log).take cut = logBytes (complete log cut) ++ part ∧
      (part = [] ∨ ∃ r ∈ log, Torn (payload r) part) := by
  obtain ⟨part, bytes, shape⟩ := take_frames (log.map payload) cut
  refine ⟨part, by rw [logBytes, bytes, logBytes, complete, List.map_take], shape.imp_right ?_⟩
  rintro ⟨p, member, torn⟩
  obtain ⟨r, inLog, rfl⟩ := List.mem_map.mp member
  exact ⟨r, inLog, torn⟩

/-- The files a crash leaves: each segment cut at an arbitrary offset. -/
def Wal.crash (w : Wal count) (cut : Fin count → Nat) (n : Nat) : Bytes :=
  if h : n < count then (w.segments ⟨n, h⟩).bytes.take (cut ⟨n, h⟩) else []

theorem bytes_crash {w : Wal count} {logs : Fin count → List Request} (holds : w.Holds logs) (cut : Fin count → Nat)
    (bufferSize : UInt32) (i : Fin count) :
    ((newWal (w.crash cut) bufferSize count).segments i).bytes = (logBytes (logs i)).take (cut i) := by
  simp [newWal, Wal.crash, WalSegment.bytes, ← holds.bytes]

/-- Cut at frame boundaries, the log holds the complete requests. -/
theorem Wal.Holds.crash {w : Wal count} {logs : Fin count → List Request} (holds : w.Holds logs)
    {cut : Fin count → Nat} (boundary : ∀ i, (logBytes (logs i)).take (cut i) = logBytes (complete (logs i) (cut i)))
    (bufferSize : UInt32) :
    (newWal (w.crash cut) bufferSize count).Holds fun i => complete (logs i) (cut i) where
  bytes i := by rw [bytes_crash holds, boundary]
  placed i r member := holds.placed i r (List.mem_of_mem_take member)
  faithful i r member := holds.faithful i r (List.mem_of_mem_take member)

/-- Cut inside a frame, the replay fails. -/
theorem Wal.Holds.crash_fails {w : Wal count} {logs : Fin count → List Request} (holds : w.Holds logs)
    {cut : Fin count → Nat} {i : Fin count}
    (inside : (logBytes (logs i)).take (cut i) ≠ logBytes (complete (logs i) (cut i)))
    (bufferSize : UInt32) (sched : List Nat) : ((newWal (w.crash cut) bufferSize count).replay sched).2 ≠ none := by
  obtain ⟨part, bytes, shape⟩ := take_logBytes (logs i) (cut i)
  rcases shape with none | ⟨r, member, torn⟩
  · exact absurd (by rw [bytes, none, List.append_nil]) inside
  · obtain ⟨err, read⟩ := replaySegment_torn ((bytes_crash holds cut bufferSize i).trans bytes)
      (fun r' h => holds.faithful i r' (List.mem_of_mem_take h)) (holds.faithful i r member) torn
    intro clean
    refine Wal.replay_error.mp clean i err ?_
    rw [read]
    simp

end Crash

namespace Core
open Oryx.Hashmap Oryx.Writer

section CrashRecovery

variable {count : Nat} {C : Type} [NeZero count] [Security] [Proto]

/-- Every key with a logged request has the value or tombstone of the one with the
greatest timestamp. -/
def KeepsLatest (eng : Engine count C) (logs : Fin count → List Request) : Prop :=
  ∀ r ∈ logs (Wal.segmentOf r.key),
    (∀ r' ∈ logs (Wal.segmentOf r.key), r'.key = r.key → r'.timestamp ≤ r.timestamp) →
      ∃ v, eng.sw.hm.load r.key (hashFunc r.key) = some v ∧ v.data = r.toValue.data ∧
        v.tombstone = r.toValue.tombstone ∧ v.timestamp = r.timestamp

/-- **Crash recovery**: the latest complete request of every key is recovered
exactly when the log is replayed and every segment was cut at a frame boundary, or
when no complete request is left to recover. -/
theorem crash_recovery_iff (config : Config) (clock : C) (bufferSize : UInt32) {reqs : List Request}
    (faithful : ∀ r ∈ reqs, Faithful r) (distinct : DistinctTimestamps reqs) (cut : Fin count → Nat) :
    (∀ choices, KeepsLatest
      (newEngine count config clock
        (.logOnly (((newWal (fun _ => []) bufferSize count).publishAll reqs).crash cut)) choices)
      fun i => complete (segmentLog reqs i) (cut i)) ↔
    (config.replays = true ∧
      ∀ i : Fin count, (logBytes (segmentLog reqs i)).take (cut i) = logBytes (complete (segmentLog reqs i) (cut i))) ∨
    ∀ i : Fin count, complete (segmentLog reqs i) (cut i) = [] := by
  have holds : ((newWal (fun _ => []) bufferSize count).publishAll reqs).Holds (segmentLog reqs) :=
    Wal.holds_publishAll bufferSize faithful
  have logged {i : Fin count} {r : Request} (member : r ∈ complete (segmentLog reqs i) (cut i)) : r ∈ reqs :=
    List.mem_of_mem_filter (List.mem_of_mem_take member)
  constructor
  · intro keeps
    by_contra neither
    obtain ⟨failing, some⟩ := not_or.mp neither
    obtain ⟨i, nonempty⟩ := not_forall.mp some
    obtain ⟨r, member⟩ := List.exists_mem_of_ne_nil _ nonempty
    have place : Wal.segmentOf r.key = i := holds.placed i r (List.mem_of_mem_take member)
    subst place
    obtain ⟨l, inLog, key, above⟩ := exists_latest member
    obtain ⟨v, found, -⟩ := keeps .plain l (by rwa [key]) (by rwa [key])
    rw [(newEngine_inv _ _ _ _).load_eq, hm_newEngine_fail, ShardedMap.cell_new] at found
    · cases found
    · intro on
      obtain ⟨j, inside⟩ := not_forall.mp fun all => failing ⟨on, all⟩
      exact holds.crash_fails inside _ _
  · rintro (⟨on, boundary⟩ | nothing) choices r member above
    · have cell := cell_newEngine_log on (holds.crash boundary config.walBufferSize) clock choices r.key
      rw [replaySlot_latest member above fun r' h key time => distinct r (logged member) r' (logged h) key time] at cell
      refine ⟨replayed r, ?_, replayed_eq r⟩
      rw [(newEngine_inv _ _ _ _).load_eq, cell]
      cases r <;> rfl
    · exact absurd (nothing (Wal.segmentOf r.key)) (List.ne_nil_of_mem member)

end CrashRecovery

open Reference Protobuf

/-- One write to each of two segments. -/
def twoWrites : List Request := [.set ⟨[97], [1], 1, [110]⟩, .set ⟨[101], [2], 2, [110]⟩]

theorem faithful_twoWrites : ∀ r ∈ twoWrites, Faithful r := by decide +kernel

/-- A crash that loses the second write altogether keeps the first. -/
theorem crash_recovery_iff_boundary :
    ∃ v, (newEngine 2 ⟨"oryx.snp", 4096, [110], false, false⟩ (MockStorageClock.mk 0)
      (.logOnly (((newWal (fun _ => []) 4096 2).publishAll twoWrites).crash fun i => if i = 0 then 0 else 100))
      .plain).sw.hm.load [97] (hashFunc [97]) = some v ∧ v.data = [1] ∧ v.tombstone = false ∧ v.timestamp = 1 :=
  (crash_recovery_iff ⟨"oryx.snp", 4096, [110], false, false⟩ (MockStorageClock.mk 0) 4096 faithful_twoWrites
    (by unfold DistinctTimestamps; decide) fun i => if i = 0 then 0 else 100).mpr
      (Or.inl ⟨by decide, by decide +kernel⟩) .plain (.set ⟨[97], [1], 1, [110]⟩) (by decide +kernel) (by decide +kernel)

/-- A crash that leaves three bytes of the second write, in segment 0, loses the
first one too, which is whole in segment 1. -/
theorem torn_segment_loses_other_segment :
    complete (segmentLog twoWrites (1 : Fin 2)) 100 = [.set ⟨[97], [1], 1, [110]⟩] ∧
      (newEngine 2 ⟨"oryx.snp", 4096, [110], false, false⟩ (MockStorageClock.mk 0)
        (.logOnly (((newWal (fun _ => []) 4096 2).publishAll twoWrites).crash fun i => if i = 0 then 3 else 100))
        .plain).sw.hm.load [97] (hashFunc [97]) = none := by
  decide +kernel

end Core

end Oryx
