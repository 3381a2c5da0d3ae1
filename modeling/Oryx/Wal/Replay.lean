import Oryx.Library.LastWriter
import Oryx.Library.OrderedMap
import Oryx.Wal.Log

/-!
# Replaying a log

What `Publish` appends and what `Replay` makes of it. A log holds a list of
requests per segment (`Wal.Holds`), each in the segment of its key. Replayed, the
results map keeps under every key the request of the highest timestamp, the first
one logged on a tie: a last-writer register ranked by the timestamp alone.
-/

namespace Oryx
set_option autoImplicit false
open Oryx.Library

/-! ## The results map -/

/-- What an event offers under key `k`. -/
def WalEvent.offer (k : Key) : WalEvent → Option Value
  | .update (some r) => if r.key = k then some (replayed r) else none
  | _ => none

theorem replayed_timestamp (r : Request) : (replayed r).timestamp = r.timestamp := by
  cases r <;> rfl

theorem getElem?_setResults (results : Results) (r : Request) (k : Key) :
    (setResults results (some r))[k]? =
      if r.key = k then LastWriter.adopt Value.timestamp results[k]? (replayed r) else results[k]? := by
  cases held : results[r.key]? with
  | none =>
    simp only [setResults, held, getElem?_insert_eq]
    by_cases here : r.key = k
    · subst here
      simp [held, LastWriter.adopt]
    · simp [here, Ne.symm here]
  | some existing =>
    simp only [setResults, held]
    by_cases here : r.key = k
    · subst here
      rw [if_pos rfl, held]
      simp only [LastWriter.adopt, replayed_timestamp]
      split
      · rw [getElem?_insert_eq, if_pos rfl]
      · exact held
    · rw [if_neg here]
      split
      · rw [getElem?_insert_eq, if_neg (Ne.symm here)]
      · rfl

/-- Under each key the replayed events act as offers to one register. -/
theorem getElem?_foldl_applyEvent (events : List WalEvent) (acc : Results × Option Error) (k : Key) :
    (events.foldl applyEvent acc).1[k]? =
      (events.filterMap (WalEvent.offer k)).foldl (LastWriter.adopt Value.timestamp) acc.1[k]? := by
  induction events generalizing acc with
  | nil => rfl
  | cons event rest ih =>
    rw [List.foldl_cons, ih]
    cases event with
    | fail err => rfl
    | update entry =>
      cases entry with
      | none => rfl
      | some r =>
        by_cases here : r.key = k
        · simp only [applyEvent, getElem?_setResults, List.filterMap_cons, WalEvent.offer, here, if_true,
            List.foldl_cons]
        · simp only [applyEvent, getElem?_setResults, List.filterMap_cons, WalEvent.offer, here, if_false]

/-- An error is reported exactly when some segment fails. -/
theorem foldl_applyEvent_error (events : List WalEvent) (acc : Results × Option Error) :
    (events.foldl applyEvent acc).2 = none ↔ acc.2 = none ∧ ∀ err, WalEvent.fail err ∉ events := by
  induction events generalizing acc with
  | nil => simp
  | cons event rest ih =>
    rw [List.foldl_cons, ih]
    cases event with
    | update entry => simp [applyEvent]
    | fail err =>
      simp only [applyEvent, Option.or_eq_none_iff, reduceCtorEq, and_false, false_and, List.mem_cons,
        WalEvent.fail.injEq, not_or, false_iff, not_and, not_forall]
      exact fun _ => ⟨err, fun h => absurd rfl h⟩

/-! ## The latest request of a key -/

/-- All but the node id of a request is recovered. -/
theorem replayed_eq (r : Request) :
    (replayed r).data = r.toValue.data ∧ (replayed r).tombstone = r.toValue.tombstone ∧
      (replayed r).timestamp = r.timestamp := by
  cases r <;> exact ⟨rfl, rfl, rfl⟩

/-- Some request of a key in a log has the greatest timestamp. -/
theorem exists_latest {log : List Request} {r : Request} (member : r ∈ log) :
    ∃ l ∈ log, l.key = r.key ∧ ∀ r' ∈ log, r'.key = r.key → r'.timestamp ≤ l.timestamp := by
  have inFilter : r ∈ log.filter fun r' => r'.key = r.key := by simp [member]
  obtain ⟨l, top, above⟩ := LastWriter.exists_top Request.timestamp inFilter
  simp only [List.mem_filter, decide_eq_true_eq] at top above
  exact ⟨l, top.1, top.2, fun r' inLog key => above r' ⟨inLog, key⟩⟩

/-- The record a log leaves under a key: the first of its latest requests. -/
def replaySlot (log : List Request) (k : Key) : Option Value :=
  ((log.filter fun r => r.key = k).map replayed).foldl (LastWriter.adopt Value.timestamp) none

theorem replaySlot_cases (log : List Request) (k : Key) :
    (replaySlot log k = none ∧ ∀ r ∈ log, r.key ≠ k) ∨
      ∃ r ∈ log, r.key = k ∧ (∀ r' ∈ log, r'.key = k → r'.timestamp ≤ r.timestamp) ∧
        replaySlot log k = some (replayed r) := by
  have top : LastWriter.Top Value.timestamp ((log.filter fun r => r.key = k).map replayed) (replaySlot log k) :=
    LastWriter.foldl_top Value.timestamp _
  cases slot : replaySlot log k with
  | none =>
    rw [slot] at top
    have empty : (log.filter fun r => r.key = k).map replayed = [] := top
    exact Or.inl ⟨rfl, by simpa using empty⟩
  | some v =>
    rw [slot] at top
    obtain ⟨inOffers, highest⟩ := top
    obtain ⟨r, inFilter, rfl⟩ := List.mem_map.mp inOffers
    obtain ⟨inLog, key⟩ : r ∈ log ∧ r.key = k := by simpa using inFilter
    refine Or.inr ⟨r, inLog, key, fun r' inLog' key' => ?_, rfl⟩
    have up := highest (replayed r') (List.mem_map_of_mem (by simp [inLog', key']))
    rwa [replayed_timestamp, replayed_timestamp] at up

/-- When its timestamp is its own, the latest request of a key is the one recovered. -/
theorem replaySlot_latest {log : List Request} {r : Request} (member : r ∈ log)
    (above : ∀ r' ∈ log, r'.key = r.key → r'.timestamp ≤ r.timestamp)
    (distinct : ∀ r' ∈ log, r'.key = r.key → r'.timestamp = r.timestamp → r' = r) :
    replaySlot log r.key = some (replayed r) := by
  rcases replaySlot_cases log r.key with ⟨-, absent⟩ | ⟨r', inLog, key, highest, slot⟩
  · exact absurd rfl (absent r member)
  · rw [slot, distinct r' inLog key (le_antisymm (above r' inLog key) (highest r member rfl))]

/-- A request names its timestamp: under one key no two different ones share it. -/
def DistinctTimestamps (reqs : List Request) : Prop :=
  ∀ r ∈ reqs, ∀ r' ∈ reqs, r'.key = r.key → r'.timestamp = r.timestamp → r' = r

/-- A request with a timestamp of its own is added. -/
theorem DistinctTimestamps.snoc {reqs : List Request} (distinct : DistinctTimestamps reqs) {r : Request}
    (own : ∀ r' ∈ reqs, r'.key = r.key → r'.timestamp ≠ r.timestamp) : DistinctTimestamps (reqs ++ [r]) := by
  intro r₁ member₁ r₂ member₂ key stamp
  rcases List.mem_append.mp member₁ with old₁ | last₁
  · rcases List.mem_append.mp member₂ with old₂ | last₂
    · exact distinct r₁ old₁ r₂ old₂ key stamp
    · obtain rfl := List.mem_singleton.mp last₂
      exact absurd stamp.symm (own r₁ old₁ key.symm)
  · obtain rfl := List.mem_singleton.mp last₁
    rcases List.mem_append.mp member₂ with old₂ | last₂
    · exact absurd stamp (own r₂ old₂ key)
    · exact List.mem_singleton.mp last₂

/-! ## Reading frames back -/

section Replay

variable [Proto]

/-- The bytes `Publish` frames. -/
def payload (r : Request) : Bytes := (marshal r).toOption.getD []

theorem Faithful.marshal_eq {r : Request} (faithful : Faithful r) : marshal r = .ok (payload r) := by
  obtain ⟨data, ok, -, -⟩ := faithful
  simp [payload, ok, Except.toOption]

theorem Faithful.small {r : Request} (faithful : Faithful r) : (payload r).length < 2 ^ 32 := by
  obtain ⟨data, ok, small, -⟩ := faithful
  simpa [payload, ok, Except.toOption] using small

theorem Faithful.unmarshal_eq {r : Request} (faithful : Faithful r) : unmarshal (payload r) = .ok (some r) := by
  obtain ⟨data, ok, -, back⟩ := faithful
  simpa [payload, ok, Except.toOption] using back

/-- The bytes of a list of logged requests. -/
def logBytes (log : List Request) : Bytes := frames (log.map payload)

@[simp] theorem logBytes_nil : logBytes [] = [] := rfl

@[simp] theorem logBytes_append (log log' : List Request) : logBytes (log ++ log') = logBytes log ++ logBytes log' := by
  simp [logBytes]

theorem logBytes_singleton (r : Request) : logBytes [r] = frame (payload r) := by
  simp [logBytes]

/-- A payload that fits a frame and that the codec reads as an entry. -/
structure Decodes (data : Bytes) (entry : Option Request) : Prop where
  small : data.length < 2 ^ 32
  unmarshal_eq : unmarshal data = .ok entry

theorem Faithful.decodes {r : Request} (faithful : Faithful r) : Decodes (payload r) (some r) :=
  ⟨faithful.small, faithful.unmarshal_eq⟩

theorem replayLoop_frame {data : Bytes} {entry : Option Request} (decodes : Decodes data entry) (fuel : Nat)
    (tail : Bytes) : replayLoop (fuel + 1) (frame data ++ tail) = .update entry :: replayLoop fuel tail := by
  have body := readFull_append (n := beNat (beBytes data.length)) (beNat_beBytes decodes.small).symm tail
  rw [replayLoop, readFull_frame]
  simp only [body, decodes.unmarshal_eq]

/-- Whole frames are read back one by one. -/
theorem replayLoop_frames {payloads : List Bytes} {entries : List (Option Request)}
    (decodes : List.Forall₂ Decodes payloads entries) (fuel : Nat) (tail : Bytes) :
    replayLoop (payloads.length + fuel) (frames payloads ++ tail) = entries.map .update ++ replayLoop fuel tail := by
  induction decodes with
  | nil => simp
  | @cons data entry rest _ here _ ih =>
    have more : (data :: rest).length + fuel = (rest.length + fuel) + 1 := by
      rw [List.length_cons]
      omega
    rw [more, frames_cons, List.append_assoc, replayLoop_frame here, ih, List.map_cons, List.cons_append]

theorem forall₂_decodes {log : List Request} (faithful : ∀ r ∈ log, Faithful r) :
    List.Forall₂ Decodes (log.map payload) (log.map some) := by
  rw [List.forall₂_map_left_iff, List.forall₂_map_right_iff]
  exact List.forall₂_same.mpr fun r member => (faithful r member).decodes

theorem replayLoop_logBytes {log : List Request} (faithful : ∀ r ∈ log, Faithful r) (fuel : Nat) (tail : Bytes) :
    replayLoop (log.length + fuel) (logBytes log ++ tail) =
      log.map (fun r => .update (some r)) ++ replayLoop fuel tail := by
  have read := replayLoop_frames (forall₂_decodes faithful) fuel tail
  rwa [List.length_map, List.map_map] at read

theorem replayLoop_nil (fuel : Nat) : replayLoop (fuel + 1) [] = [] := by
  rw [replayLoop, readFull_nil (by decide)]

/-- A part of a frame is an error. -/
theorem replayLoop_torn {r : Request} {part : Bytes} (fuel : Nat) (faithful : Faithful r)
    (torn : Torn (payload r) part) : ∃ err, replayLoop (fuel + 1) part = [.fail err] := by
  rcases torn.readFull faithful.small with torn | ⟨body, err, header, torn⟩
  · exact ⟨_, by simp only [replayLoop, torn]; rfl⟩
  · exact ⟨_, by simp only [replayLoop, header, torn]; rfl⟩

theorem length_le_logBytes (log : List Request) : log.length ≤ (logBytes log).length := by
  simpa [logBytes] using length_le_frames (log.map payload)

/-- A file of whole frames replays to exactly its requests. -/
theorem replaySegment_log {s : WalSegment} {log : List Request} (bytes : s.bytes = logBytes log)
    (faithful : ∀ r ∈ log, Faithful r) : replaySegment s = log.map fun r => .update (some r) := by
  obtain ⟨extra, fuel⟩ := Nat.exists_eq_add_of_le (length_le_logBytes log)
  have read := replayLoop_logBytes faithful (extra + 1) []
  rw [List.append_nil, replayLoop_nil, List.append_nil] at read
  rw [replaySegment, WalSegment.file_flush, bytes, fuel, Nat.add_assoc, read]

/-- A file that ends inside a frame replays to the requests before it, then fails. -/
theorem replaySegment_torn {s : WalSegment} {log : List Request} {r : Request} {part : Bytes}
    (bytes : s.bytes = logBytes log ++ part) (faithful : ∀ r ∈ log, Faithful r) (last : Faithful r)
    (torn : Torn (payload r) part) :
    ∃ err, replaySegment s = log.map (fun r => .update (some r)) ++ [.fail err] := by
  have enough : log.length ≤ (logBytes log ++ part).length := by
    rw [List.length_append]
    exact (length_le_logBytes log).trans (Nat.le_add_right _ _)
  obtain ⟨extra, fuel⟩ := Nat.exists_eq_add_of_le enough
  obtain ⟨err, fails⟩ := replayLoop_torn extra last torn
  refine ⟨err, ?_⟩
  rw [replaySegment, WalSegment.file_flush, bytes, fuel, Nat.add_assoc, replayLoop_logBytes faithful, fails]

/-! ## Logs -/

namespace Wal

variable {count : Nat}

theorem replay_error {w : Wal count} {sched : List Nat} :
    (w.replay sched).2 = none ↔ ∀ i err, WalEvent.fail err ∉ replaySegment (w.segments i) := by
  rw [replay, foldl_applyEvent_error]
  simp only [mem_interleave, List.mem_map, List.mem_finRange, true_and, not_exists, not_and]
  constructor
  · exact fun clean i err => clean err _ ⟨i, rfl⟩
  · rintro clean err _ ⟨i, rfl⟩
    exact clean i err

theorem replay_newWal (sched : List Nat) (bufferSize : UInt32) :
    (newWal (fun _ => []) bufferSize count).replay sched = (∅, none) := by
  have quiet (l : List WalEvent) (empty : l = []) : l.foldl applyEvent (∅, none) = (∅, none) := by
    subst empty
    rfl
  refine quiet _ (List.eq_nil_iff_forall_not_mem.mpr fun event member => ?_)
  obtain ⟨l, inList, found⟩ := mem_interleave.mp member
  obtain ⟨i, -, rfl⟩ := List.mem_map.mp inList
  have empty : replaySegment ((newWal (fun _ => []) bufferSize count).segments i) = [] :=
    replaySegment_log rfl (List.forall_mem_nil _)
  rw [empty] at found
  cases found

variable [NeZero count] [Security]

/-- The segment of a key. -/
def segmentOf (k : Key) : Fin count := segmentIndex (hashFunc k)

/-- The log holds the requests `logs i` in segment `i`, buffered bytes counted. -/
structure Holds (w : Wal count) (logs : Fin count → List Request) : Prop where
  bytes : ∀ i, (w.segments i).bytes = logBytes (logs i)
  placed : ∀ i, ∀ r ∈ logs i, segmentOf r.key = i
  faithful : ∀ i, ∀ r ∈ logs i, Faithful r

/-- The requests of a log with one more. -/
def logged (logs : Fin count → List Request) (r : Request) : Fin count → List Request :=
  Function.update logs (segmentOf r.key) (logs (segmentOf r.key) ++ [r])

omit [Proto] in
theorem mem_logged {logs : Fin count → List Request} {r r' : Request} {i : Fin count} :
    r' ∈ logged logs r i ↔ r' ∈ logs i ∨ r' = r ∧ segmentOf r.key = i := by
  by_cases here : i = segmentOf r.key
  · subst here
    simp [logged]
  · simp [logged, here, Ne.symm here]

theorem publish_eq {w : Wal count} {r : Request} (faithful : Faithful r) :
    w.publish r.key (hashFunc r.key) r =
      let s := (w.segments (segmentOf r.key)).write w.bufferSize (frame (payload r))
      (none, { w with segments := Function.update w.segments (segmentOf r.key) s }) := by
  simp only [publish, faithful.marshal_eq]
  rfl

/-- A published request is appended to its segment, whatever is flushed meanwhile. -/
theorem Holds.publish {w : Wal count} {logs : Fin count → List Request} (holds : w.Holds logs) {r : Request}
    (faithful : Faithful r) : (w.publish r.key (hashFunc r.key) r).2.Holds (logged logs r) := by
  rw [publish_eq faithful]
  refine ⟨fun i => ?_, fun i r' member => ?_, fun i r' member => ?_⟩
  · by_cases here : i = segmentOf r.key
    · subst here
      simp [logged, holds.bytes, logBytes_singleton]
    · simp [logged, here, holds.bytes]
  · rcases mem_logged.mp member with old | ⟨rfl, here⟩
    · exact holds.placed i r' old
    · exact here
  · rcases mem_logged.mp member with old | ⟨rfl, -⟩
    · exact holds.faithful i r' old
    · exact faithful

/-- Whether or not `Publish` can marshal the request, nothing else gets into the log. -/
theorem Holds.publish_readsBack {w : Wal count} {logs : Fin count → List Request} (holds : w.Holds logs) {r : Request}
    (reads : ReadsBack r) :
    ∃ logs', (w.publish r.key (hashFunc r.key) r).2.Holds logs' ∧ ∀ i, ∀ r' ∈ logs' i, r' ∈ logs i ∨ r' = r := by
  rcases reads.faithful with faithful | ⟨err, failed⟩
  · exact ⟨_, holds.publish faithful, fun i r' member => (mem_logged.mp member).imp_right And.left⟩
  · simp only [Wal.publish, failed]
    exact ⟨logs, holds, fun _ _ member => Or.inl member⟩

theorem Holds.sync {w : Wal count} {logs : Fin count → List Request} (holds : w.Holds logs) (i : Fin count) :
    (w.sync i).Holds logs := by
  refine ⟨fun j => ?_, holds.placed, holds.faithful⟩
  by_cases here : j = i
  · subst here
    simp [Wal.sync, holds.bytes]
  · simp [Wal.sync, here, holds.bytes]

/-- Stopping and reopening keeps the log, whatever buffer size is chosen. -/
theorem Holds.reopen {w : Wal count} {logs : Fin count → List Request} (holds : w.Holds logs) {files : Nat → Bytes}
    (kept : ∀ i : Fin count, files i = w.stop i) (bufferSize : UInt32) :
    (newWal files bufferSize count).Holds logs := by
  refine ⟨fun i => ?_, holds.placed, holds.faithful⟩
  rw [← holds.bytes i]
  simp [newWal, WalSegment.bytes, kept, Wal.stop]

/-- One segment cut back to the last of its requests. -/
theorem Holds.truncate {w : Wal count} {logs : Fin count → List Request} (holds : w.Holds logs) {i : Fin count}
    {before kept : List Request} (log : logs i = before ++ kept) {cut : WalSegment}
    (bytes : cut.bytes = logBytes kept) :
    { w with segments := Function.update w.segments i cut }.Holds (Function.update logs i kept) := by
  have part : ∀ j, ∀ r ∈ Function.update logs i kept j, r ∈ logs j := by
    intro j r member
    by_cases here : j = i
    · subst here
      rw [Function.update_self] at member
      rw [log]
      exact List.mem_append_right _ member
    · rwa [Function.update_of_ne here] at member
  refine ⟨fun j => ?_, fun j r member => holds.placed j r (part j r member),
    fun j r member => holds.faithful j r (part j r member)⟩
  by_cases here : j = i
  · subst here
    simpa only [Function.update_self] using bytes
  · simpa only [Function.update_of_ne here] using holds.bytes j

omit [NeZero count] [Security] in
/-- Segments of whole frames replay without an error. -/
theorem replay_ok {w : Wal count} {logs : Fin count → List Request}
    (bytes : ∀ i, (w.segments i).bytes = logBytes (logs i)) (faithful : ∀ i, ∀ r ∈ logs i, Faithful r) (sched : List Nat) :
    (w.replay sched).2 = none := by
  rw [replay_error]
  intro i err
  rw [replaySegment_log (bytes i) (faithful i)]
  simp

omit [NeZero count] [Security] in
/-- **Replay**: under a key whose requests are all in segment `j`, the register of those, in log order. -/
theorem getElem?_replay {w : Wal count} {logs : Fin count → List Request}
    (bytes : ∀ i, (w.segments i).bytes = logBytes (logs i)) (faithful : ∀ i, ∀ r ∈ logs i, Faithful r)
    (sched : List Nat) {k : Key} {j : Fin count} (only : ∀ i, ∀ r ∈ logs i, r.key = k → i = j) :
    (w.replay sched).1[k]? = replaySlot (logs j) k := by
  have here : ((List.finRange count).map fun i => replaySegment (w.segments i))[j.val]? =
      some ((logs j).map fun r => .update (some r)) := by
    simp [replaySegment_log (bytes _) (faithful _)]
  rw [replay, getElem?_foldl_applyEvent, filterMap_interleave sched here]
  · rw [replaySlot, List.filterMap_map, ← List.filterMap_eq_map, ← List.filterMap_eq_filter, List.filterMap_filterMap]
    congr 1
    refine List.filterMap_congr fun r _ => ?_
    by_cases same : r.key = k <;> simp [WalEvent.offer, same, Option.guard]
  · intro n l found distinct event member
    obtain ⟨i, rfl, rfl⟩ : ∃ i : Fin count, n = i.val ∧ l = replaySegment (w.segments i) := by
      obtain ⟨bound, rfl⟩ := List.getElem?_eq_some_iff.mp found
      simp only [List.length_map, List.length_finRange] at bound
      exact ⟨⟨n, bound⟩, rfl, by simp⟩
    rw [replaySegment_log (bytes i) (faithful i)] at member
    obtain ⟨r, logged, rfl⟩ := List.mem_map.mp member
    have other : r.key ≠ k := fun same => distinct (congrArg Fin.val (only i r logged same))
    simp [WalEvent.offer, other]

theorem Holds.replay_ok {w : Wal count} {logs : Fin count → List Request} (holds : w.Holds logs) (sched : List Nat) :
    (w.replay sched).2 = none :=
  Wal.replay_ok holds.bytes holds.faithful sched

theorem Holds.getElem?_replay {w : Wal count} {logs : Fin count → List Request} (holds : w.Holds logs)
    (sched : List Nat) (k : Key) :
    (w.replay sched).1[k]? = replaySlot (logs (segmentOf k)) k :=
  Wal.getElem?_replay holds.bytes holds.faithful sched fun i r logged same => by
    rw [← holds.placed i r logged, same]

end Wal

end Replay

end Oryx
