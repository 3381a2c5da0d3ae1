import Mathlib.Data.List.FinRange
import Oryx.Library.Runs
import Oryx.Security.Reference
import Oryx.Wal.Protobuf
import Oryx.Wal.Replay

/-!
# The format of a segment file

A segment's replay returns no error exactly when the file is a sequence of frames
whose payloads all decode (`segmentError_eq_none`), whatever the file holds and
whatever an earlier reader or writer left in the pooled buffers. A log written by
`Publish` alone is such a file in every segment, and the segments share out the
published requests.
-/

namespace Oryx
set_option autoImplicit false
open Oryx.Library

section Format

variable [Proto]

/-! ## What a replay returns -/

def WalEvent.error : WalEvent → Option Error
  | .update _ => none
  | .fail err => some err

/-- The error `replaySegment` returns. -/
def segmentError (s : WalSegment) : Option Error := (replaySegment s).findSome? WalEvent.error

/-- What the loop did with a file: it read whole frames that decode, and stopped at
the end of the file or at something else. -/
inductive Reads (bytes : Bytes) : List WalEvent → Prop
  | whole {payloads : List Bytes} {entries : List (Option Request)} (shape : bytes = frames payloads)
      (decodes : List.Forall₂ Decodes payloads entries) : Reads bytes (entries.map .update)
  | broken {payloads : List Bytes} {entries : List (Option Request)} {tail : Bytes} {err : Error}
      (shape : bytes = frames payloads ++ tail) (decodes : List.Forall₂ Decodes payloads entries)
      (stuck : ∀ fuel, replayLoop (fuel + 1) tail = [.fail err]) : Reads bytes (entries.map .update ++ [.fail err])

/-- One frame is read in front of what the rest of the loop reads. -/
theorem Reads.frame {data bytes : Bytes} {entry : Option Request} {events : List WalEvent} (reads : Reads bytes events)
    (decodes : Decodes data entry) : Reads (frame data ++ bytes) (.update entry :: events) := by
  cases reads with
  | whole shape later =>
    subst shape
    exact .whole (frames_cons data _).symm (.cons decodes later)
  | @broken payloads _ tail _ shape later stuck =>
    subst shape
    exact .broken (by rw [frames_cons, List.append_assoc]) (.cons decodes later) stuck

/-- Each round consumes a header, so a file's length is fuel enough. -/
theorem reads_replayLoop {fuel : Nat} {bytes : Bytes} (enough : bytes.length < fuel) :
    Reads bytes (replayLoop fuel bytes) := by
  induction fuel generalizing bytes with
  | zero => exact absurd enough (Nat.not_lt_zero _)
  | succ fuel ih =>
    cases head : readFull 4 bytes with
    | error err =>
      cases err with
      | eof =>
        obtain rfl := eq_nil_of_readFull head
        rw [replayLoop_nil]
        exact .whole frames_nil.symm .nil
      | unexpectedEOF =>
        have stuck (fuel : Nat) : replayLoop (fuel + 1) bytes = [.fail (readErrorText .unexpectedEOF)] := by
          rw [replayLoop, head]
        rw [stuck fuel]
        exact .broken rfl .nil stuck
    | ok part =>
      obtain ⟨header, body⟩ := part
      cases read : readFull (beNat header) body with
      | error err =>
        have stuck (fuel : Nat) : replayLoop (fuel + 1) bytes = [.fail (readErrorText err)] := by
          simp only [replayLoop, head, read]
        rw [stuck fuel]
        exact .broken rfl .nil stuck
      | ok part =>
        obtain ⟨data, rest⟩ := part
        cases decoded : unmarshal data with
        | error err =>
          have stuck (fuel : Nat) : replayLoop (fuel + 1) bytes = [.fail err] := by
            simp only [replayLoop, head, read, decoded]
          rw [stuck fuel]
          exact .broken rfl .nil stuck
        | ok entry =>
          obtain ⟨rfl, small⟩ := frame_of_readFull head read
          have decodes : Decodes data entry := ⟨small, decoded⟩
          rw [replayLoop_frame decodes]
          refine (ih ?_).frame decodes
          rw [List.length_append, length_frame] at enough
          omega

/-- And with any fuel beyond it the loop does the same. -/
theorem Reads.replayLoop_eq {bytes : Bytes} {events : List WalEvent} (reads : Reads bytes events) {fuel : Nat}
    (enough : bytes.length < fuel) : replayLoop fuel bytes = events := by
  cases reads with
  | @whole payloads _ shape decodes =>
    subst shape
    obtain ⟨extra, rfl⟩ : ∃ extra, fuel = payloads.length + (extra + 1) :=
      ⟨fuel - payloads.length - 1, by have := length_le_frames payloads; omega⟩
    have read := replayLoop_frames decodes (extra + 1) []
    rwa [replayLoop_nil, List.append_nil, List.append_nil] at read
  | @broken payloads _ tail _ shape decodes stuck =>
    subst shape
    obtain ⟨extra, rfl⟩ : ∃ extra, fuel = payloads.length + (extra + 1) := by
      rw [List.length_append] at enough
      exact ⟨fuel - payloads.length - 1, by have := length_le_frames payloads; omega⟩
    rw [replayLoop_frames decodes, stuck]

theorem reads_replaySegment (s : WalSegment) : Reads s.bytes (replaySegment s) :=
  reads_replayLoop (Nat.lt_succ_self _)

/-- A file of frames that decode is read to its end. -/
theorem replaySegment_frames {s : WalSegment} {payloads : List Bytes} {entries : List (Option Request)}
    (shape : s.bytes = frames payloads) (decodes : List.Forall₂ Decodes payloads entries) :
    replaySegment s = entries.map .update :=
  (Reads.whole shape decodes).replayLoop_eq (Nat.lt_succ_self _)

/-- **The format**: no error is returned exactly for frames that all decode. -/
theorem segmentError_eq_none (s : WalSegment) :
    segmentError s = none ↔ ∃ payloads entries, s.bytes = frames payloads ∧ List.Forall₂ Decodes payloads entries := by
  constructor
  · intro clean
    have reads := reads_replaySegment s
    rw [segmentError] at clean
    generalize replaySegment s = events at clean reads
    cases reads with
    | whole shape decodes => exact ⟨_, _, shape, decodes⟩
    | broken => simp [WalEvent.error] at clean
  · rintro ⟨payloads, entries, shape, decodes⟩
    rw [segmentError, replaySegment_frames shape decodes, List.findSome?_eq_none_iff]
    intro event member
    obtain ⟨entry, -, rfl⟩ := List.mem_map.mp member
    rfl

omit [Proto] in
/-- Entries reach the results map in file order. -/
theorem foldl_applyEvent_updates (entries : List (Option Request)) (acc : Results × Option Error) :
    (entries.map .update).foldl applyEvent acc = (entries.foldl setResults acc.1, acc.2) := by
  induction entries generalizing acc with
  | nil => rfl
  | cons entry rest ih =>
    rw [List.map_cons, List.foldl_cons, ih]
    rfl

/-! ## Pooled buffers -/

/-- `io.ReadFull` into the first `n` bytes of an array: the error, the array and the
bytes left to read. What is not overwritten stays. -/
def readInto (n : Nat) (array reader : Bytes) : Option ReadError × Bytes × Bytes :=
  (if n ≤ reader.length then none else if reader = [] then some .eof else some .unexpectedEOF,
    reader.take n ++ array.drop (reader.take n).length, reader.drop n)

omit [Proto] in
theorem length_readInto {n : Nat} {array : Bytes} (room : n ≤ array.length) (reader : Bytes) :
    (readInto n array reader).2.1.length = array.length := by
  simp only [readInto, List.length_append, List.length_take, List.length_drop]
  omega

omit [Proto] in
theorem readInto_of_ok {n : Nat} {reader front rest : Bytes} (read : readFull n reader = .ok (front, rest))
    (array : Bytes) : readInto n array reader = (none, front ++ array.drop n, rest) := by
  obtain ⟨rfl, rfl⟩ := readFull_eq_ok read
  simp [readInto]

omit [Proto] in
theorem readInto_of_error {n : Nat} {reader : Bytes} {err : ReadError} (read : readFull n reader = .error err)
    (array : Bytes) : (readInto n array reader).1 = some err := by
  rw [readFull] at read
  rw [readInto]
  split at read
  · cases read
  · rename_i short
    rw [if_neg short]
    split at read <;> rename_i empty <;> cases read <;> simp [empty]

/-- The arrays behind the header and the payload slices, as the pools hand them out. -/
structure ReadBuffers where
  header : Bytes
  payload : Bytes
  four : header.length = 4

namespace ReadBuffers

def readHeader (b : ReadBuffers) (reader : Bytes) : Option ReadError × ReadBuffers × Bytes :=
  let read := readInto 4 b.header reader
  (read.1, ⟨read.2.1, b.payload, (length_readInto b.four.ge reader).trans b.four⟩, read.2.2)

/-- A payload array that is too small is replaced first. -/
def readPayload (size : Nat) (b : ReadBuffers) (reader : Bytes) : Option ReadError × ReadBuffers × Bytes :=
  let array := if b.payload.length < size then List.replicate size 0 else b.payload
  let read := readInto size array reader
  (read.1, { b with payload := read.2.1 }, read.2.2)

omit [Proto] in
theorem readHeader_of_ok {reader header rest : Bytes} (read : readFull 4 reader = .ok (header, rest))
    (b : ReadBuffers) : ∃ b' : ReadBuffers, b.readHeader reader = (none, b', rest) ∧ b'.header = header := by
  have filled := readInto_of_ok read b.header
  rw [List.drop_eq_nil_of_le b.four.le, List.append_nil] at filled
  exact ⟨⟨header, b.payload, (readFull_eq_ok read).2⟩, by simp only [readHeader, filled], rfl⟩

omit [Proto] in
theorem readPayload_of_ok {size : Nat} {reader data rest : Bytes} (read : readFull size reader = .ok (data, rest))
    (b : ReadBuffers) :
    ∃ b' : ReadBuffers, b.readPayload size reader = (none, b', rest) ∧ b'.payload.take size = data := by
  simp only [readPayload, readInto_of_ok read]
  exact ⟨_, rfl, List.take_left' (readFull_eq_ok read).2⟩

omit [Proto] in
theorem readHeader_of_error {reader : Bytes} {err : ReadError} (read : readFull 4 reader = .error err)
    (b : ReadBuffers) : ∃ b' rest, b.readHeader reader = (some err, b', rest) :=
  ⟨_, _, Prod.ext (readInto_of_error read b.header) rfl⟩

omit [Proto] in
theorem readPayload_of_error {size : Nat} {reader : Bytes} {err : ReadError}
    (read : readFull size reader = .error err) (b : ReadBuffers) :
    ∃ b' rest, b.readPayload size reader = (some err, b', rest) :=
  ⟨_, _, Prod.ext (readInto_of_error read (if b.payload.length < size then List.replicate size 0 else b.payload)) rfl⟩

end ReadBuffers

/-- The loop of `replaySegment` over the pooled arrays, and the bytes it leaves unread. -/
def replayPooled : Nat → ReadBuffers → Bytes → List WalEvent × Bytes
  | 0, _, reader => ([], reader)
  | fuel + 1, buffers, reader =>
    match buffers.readHeader reader with
    | (some .eof, _, reader) => ([], reader)
    | (some err, _, reader) => ([.fail (readErrorText err)], reader)
    | (none, buffers, reader) =>
      let size := beNat buffers.header
      match buffers.readPayload size reader with
      | (some err, _, reader) => ([.fail (readErrorText err)], reader)
      | (none, buffers, reader) =>
        match unmarshal (buffers.payload.take size) with
        | .error err => ([.fail err], reader)
        | .ok entry =>
          let (events, unread) := replayPooled fuel buffers reader
          (.update entry :: events, unread)

/-- A frame is consumed, whatever the arrays held before. -/
theorem replayPooled_frame {data : Bytes} {entry : Option Request} (decodes : Decodes data entry) (fuel : Nat)
    (b : ReadBuffers) (tail : Bytes) :
    ∃ b', replayPooled (fuel + 1) b (frame data ++ tail) =
      (.update entry :: (replayPooled fuel b' tail).1, (replayPooled fuel b' tail).2) := by
  obtain ⟨b₁, head, header⟩ := ReadBuffers.readHeader_of_ok (readFull_frame data tail) b
  have body := readFull_append (n := beNat (beBytes data.length)) (beNat_beBytes decodes.small).symm tail
  obtain ⟨b₂, read, same⟩ := ReadBuffers.readPayload_of_ok body b₁
  refine ⟨b₂, ?_⟩
  simp only [replayPooled, head, header, read, same, decodes.unmarshal_eq]

/-- A file of frames that decode is consumed completely. -/
theorem replayPooled_frames {payloads : List Bytes} {entries : List (Option Request)}
    (decodes : List.Forall₂ Decodes payloads entries) (fuel : Nat) (b : ReadBuffers) :
    replayPooled (payloads.length + fuel + 1) b (frames payloads) = (entries.map .update, []) := by
  induction decodes generalizing b with
  | nil =>
    obtain ⟨b', head⟩ : ∃ b', b.readHeader [] = (some .eof, b', []) := ⟨_, rfl⟩
    simp only [frames_nil, replayPooled, head, List.map_nil]
  | @cons data _ rest _ here _ ih =>
    have more : (data :: rest).length + fuel + 1 = rest.length + fuel + 1 + 1 := by
      rw [List.length_cons]
      omega
    obtain ⟨b', step⟩ := replayPooled_frame here (rest.length + fuel + 1) b (frames rest)
    rw [more, frames_cons, step, ih b', List.map_cons]

/-- **Pooled buffers** make no difference to what is read. -/
theorem replayPooled_fst (fuel : Nat) (b : ReadBuffers) (reader : Bytes) :
    (replayPooled fuel b reader).1 = replayLoop fuel reader := by
  induction fuel generalizing b reader with
  | zero => rfl
  | succ fuel ih =>
    cases head : readFull 4 reader with
    | error err =>
      obtain ⟨b', rest, read⟩ := ReadBuffers.readHeader_of_error head b
      cases err <;> simp only [replayPooled, replayLoop, head, read]
    | ok part =>
      obtain ⟨header, body⟩ := part
      obtain ⟨b₁, read₁, rfl⟩ := ReadBuffers.readHeader_of_ok head b
      cases read : readFull (beNat b₁.header) body with
      | error err =>
        obtain ⟨b', rest, read₂⟩ := ReadBuffers.readPayload_of_error read b₁
        simp only [replayPooled, replayLoop, head, read, read₁, read₂]
      | ok part =>
        obtain ⟨data, rest⟩ := part
        obtain ⟨b₂, read₂, same⟩ := ReadBuffers.readPayload_of_ok read b₁
        cases decoded : unmarshal data with
        | error err => simp only [replayPooled, replayLoop, head, read, read₁, read₂, same, decoded]
        | ok entry => simp only [replayPooled, replayLoop, head, read, read₁, read₂, same, decoded, ih]

/-! ## What `Publish` writes -/

/-- What happens to an open log: a request is published, or a segment's
`backgroundSync` ticks. -/
inductive LogAction (count : Nat) where
  | publish (r : Request)
  | sync (i : Fin count)

/-- The requests among the actions, in order. -/
def published {count : Nat} (actions : List (LogAction count)) : List Request :=
  actions.filterMap fun
    | .publish r => some r
    | .sync _ => none

variable {count : Nat} [NeZero count] [Security]

/-- The requests that go to segment `i`. -/
def segmentLog (reqs : List Request) (i : Fin count) : List Request :=
  reqs.filter fun r => Wal.segmentOf r.key = i

omit [Proto] in
theorem segmentLog_append (reqs later : List Request) (i : Fin count) :
    segmentLog (reqs ++ later) i = segmentLog reqs i ++ segmentLog later i :=
  List.filter_append ..

omit [Proto] in
theorem mem_segmentLog {reqs : List Request} {i : Fin count} {r : Request} :
    r ∈ segmentLog reqs i ↔ r ∈ reqs ∧ Wal.segmentOf r.key = i := by
  simp [segmentLog]

namespace Wal

def act (w : Wal count) : LogAction count → Wal count
  | .publish r => (w.publish r.key (hashFunc r.key) r).2
  | .sync i => w.sync i

/-- A request is appended to its segment and to no other. -/
theorem bytes_publish (w : Wal count) {r : Request} (faithful : Faithful r) (i : Fin count) :
    ((w.publish r.key (hashFunc r.key) r).2.segments i).bytes =
      (w.segments i).bytes ++ logBytes (segmentLog [r] i) := by
  rw [publish_eq faithful]
  by_cases here : i = segmentOf r.key
  · subst here
    simp [segmentLog, logBytes_singleton]
  · simp [segmentLog, here, Ne.symm here]

omit [Proto] [NeZero count] [Security] in
theorem bytes_sync (w : Wal count) (j i : Fin count) : ((w.sync j).segments i).bytes = (w.segments i).bytes := by
  by_cases here : i = j
  · subst here
    simp [Wal.sync]
  · simp [Wal.sync, here]

/-- However the background flushes fall, each segment grows by its own requests. -/
theorem bytes_runFrom (w : Wal count) {actions : List (LogAction count)} (faithful : ∀ r ∈ published actions, Faithful r)
    (i : Fin count) :
    ((runFrom act w actions).segments i).bytes = (w.segments i).bytes ++ logBytes (segmentLog (published actions) i) := by
  induction actions using List.reverseRecOn with
  | nil => simp [published, segmentLog]
  | append_singleton past a ih =>
    have split : published (past ++ [a]) = published past ++ published [a] := List.filterMap_append ..
    rw [split] at faithful ⊢
    have before := ih fun r member => faithful r (List.mem_append_left _ member)
    rw [runFrom_snoc, segmentLog_append, logBytes_append, ← List.append_assoc, ← before]
    cases a with
    | publish r => exact bytes_publish _ (faithful r (List.mem_append_right _ List.mem_cons_self)) i
    | sync j => simpa [published, segmentLog, act] using bytes_sync (runFrom act w past) j i

/-- A new log that was only published to holds what was published. -/
theorem holds_runFrom (bufferSize : UInt32) {actions : List (LogAction count)}
    (faithful : ∀ r ∈ published actions, Faithful r) :
    (runFrom act (newWal (fun _ => []) bufferSize count) actions).Holds (segmentLog (published actions)) where
  bytes i := bytes_runFrom _ faithful i
  placed _ _ member := (mem_segmentLog.mp member).2
  faithful _ r member := faithful r (mem_segmentLog.mp member).1

end Wal

omit [Proto] in
/-- The segments share out the requests. -/
theorem segmentLog_perm (reqs : List Request) : ((List.finRange count).flatMap (segmentLog reqs)).Perm reqs :=
  flatMap_filter_perm (fun r : Request => Wal.segmentOf r.key) (List.nodup_finRange count) fun _ _ => List.mem_finRange _

omit [Proto] in
/-- A key's requests keep their order in its segment. -/
theorem segmentLog_key (reqs : List Request) (k : Key) :
    (segmentLog reqs (Wal.segmentOf k : Fin count)).filter (fun r => r.key = k) = reqs.filter fun r => r.key = k := by
  rw [segmentLog, List.filter_filter]
  refine List.filter_congr fun r _ => ?_
  by_cases here : r.key = k <;> simp [here]

/-- **The format of a log.** A segment file, whatever it holds, is read in a bounded
number of rounds; no error is returned exactly for a sequence of frames that all
decode, which is then consumed completely and folded into the results in file
order. What is published to a new log is found in its segments once each, a key's
requests in one segment and in order. -/
theorem wal_format (bufferSize : UInt32) {actions : List (LogAction count)}
    (faithful : ∀ r ∈ published actions, Faithful r) :
    (∀ s : WalSegment,
      (∀ fuel, s.bytes.length < fuel → ∀ b, (replayPooled fuel b s.bytes).1 = replaySegment s) ∧
      (segmentError s = none ↔
        ∃ payloads entries, s.bytes = frames payloads ∧ List.Forall₂ Decodes payloads entries) ∧
      ∀ payloads entries, s.bytes = frames payloads → List.Forall₂ Decodes payloads entries →
        (∀ fuel, s.bytes.length < fuel → ∀ b, (replayPooled fuel b s.bytes).2 = []) ∧
        ∀ acc, (replaySegment s).foldl applyEvent acc = (entries.foldl setResults acc.1, acc.2)) ∧
    let w := runFrom Wal.act (newWal (fun _ => []) bufferSize count) actions
    let log : Fin count → List Request := segmentLog (published actions)
    (∀ i, replaySegment (w.segments i) = (log i).map fun r => .update (some r)) ∧
    ((List.finRange count).flatMap log).Perm (published actions) ∧
    ∀ k, (∀ i, ∀ r ∈ log i, r.key = k → i = Wal.segmentOf k) ∧
      (log (Wal.segmentOf k)).filter (fun r => r.key = k) = (published actions).filter fun r => r.key = k := by
  refine ⟨fun s => ⟨fun fuel enough b => ?_, segmentError_eq_none s, ?_⟩, fun i => ?_, segmentLog_perm _,
    fun k => ⟨?_, segmentLog_key _ k⟩⟩
  · rw [replayPooled_fst, (reads_replaySegment s).replayLoop_eq enough]
  · intro payloads entries shape decodes
    refine ⟨fun fuel enough b => ?_, fun acc => ?_⟩
    · have fits := length_le_frames payloads
      obtain ⟨extra, rfl⟩ : ∃ extra, fuel = payloads.length + extra + 1 :=
        ⟨fuel - payloads.length - 1, by rw [shape] at enough; omega⟩
      rw [shape, replayPooled_frames decodes]
    · rw [replaySegment_frames shape decodes, foldl_applyEvent_updates]
  · have holds := Wal.holds_runFrom bufferSize faithful
    exact replaySegment_log (holds.bytes i) (holds.faithful i)
  · rintro i r member rfl
    exact (mem_segmentLog.mp member).2.symm

end Format

open Reference Protobuf

/-- Two keys in two segments; one of them is deleted again after a flush. -/
def setAndDelete : List (LogAction 2) :=
  [.publish (.set ⟨[97], [1], 1, [110]⟩), .publish (.set ⟨[101], [2], 2, [110]⟩), .sync 1,
    .publish (.delete ⟨[97], 3, [110]⟩)]

theorem wal_format_setAndDelete :
    let w := runFrom Wal.act (newWal (fun _ => []) 4096 2) setAndDelete
    replaySegment (w.segments 0) = [.update (some (.set ⟨[101], [2], 2, [110]⟩))] ∧
      replaySegment (w.segments 1) =
        [.update (some (.set ⟨[97], [1], 1, [110]⟩)), .update (some (.delete ⟨[97], 3, [110]⟩))] := by
  have faithful : ∀ r ∈ published setAndDelete, Faithful r := by decide +kernel
  have read := (wal_format 4096 faithful).2.1
  exact ⟨(read 0).trans (by decide +kernel), (read 1).trans (by decide +kernel)⟩

end Oryx
