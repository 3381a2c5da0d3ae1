import Oryx.Kv
import Oryx.Library.Framing
import Oryx.Library.Interleave

/-!
# The write-ahead log

`core/wal/wal.go`. The log is split into segments; a record goes to the segment
its key's hash selects, as one length-prefixed frame. A segment is its file and
the bytes its `bufio.Writer` has not handed to the file yet. No I/O call fails.
The protobuf codec of `WalEntry` is a parameter.
-/

namespace Oryx
set_option autoImplicit false
open Oryx.Library

/-- `wal.Waler`, as far as a writer uses it. -/
class Waler (W : Type) where
  publish : W → Key → HashKey → Request → Option Error × W

/-- The log of volatile mode: it keeps nothing. -/
structure NopWal where

instance : Waler NopWal where
  publish w _ _ _ := (none, w)

/-- Marshalling and unmarshalling of `WalEntry`. A message whose oneof is unset
unmarshals to `none`. -/
class Proto where
  marshal : Request → Except Error Bytes
  unmarshal : Bytes → Except Error (Option Request)

export Proto (marshal unmarshal)

/-- The codec is faithful on `r`: what it writes fits a frame and reads back. -/
def Faithful [Proto] (r : Request) : Prop :=
  ∃ data, marshal r = .ok data ∧ data.length < 2 ^ 32 ∧ unmarshal data = .ok (some r)

instance [Proto] (r : Request) : Decidable (Faithful r) :=
  decidable_of_iff (∃ data ∈ (marshal r).toOption, data.length < 2 ^ 32 ∧ (unmarshal data).toOption = some (some r)) <| by
    have ok {α : Type} (e : Except Error α) (x : α) : e.toOption = some x ↔ e = .ok x := by
      cases e <;> simp [Except.toOption]
    simp only [Faithful, Option.mem_def, ok]

/-- What the codec writes for `r`, if it writes anything, fits a frame and reads back. -/
def ReadsBack [Proto] (r : Request) : Prop :=
  ∀ data, marshal r = .ok data → data.length < 2 ^ 32 ∧ unmarshal data = .ok (some r)

theorem ReadsBack.faithful [Proto] {r : Request} (reads : ReadsBack r) :
    Faithful r ∨ ∃ err, marshal r = .error err := by
  cases written : marshal r with
  | error err => exact Or.inr ⟨err, rfl⟩
  | ok data => exact Or.inl ⟨data, written, reads data written⟩

theorem Faithful.readsBack [Proto] {r : Request} (faithful : Faithful r) : ReadsBack r := by
  obtain ⟨data, written, fits⟩ := faithful
  intro data' written'
  rw [written] at written'
  exact Except.ok.inj written' ▸ fits

/-! ## Segments -/

structure WalSegment where
  file : Bytes
  buffered : Bytes

namespace WalSegment

/-- Everything written to the segment so far, buffered bytes counted. -/
def bytes (s : WalSegment) : Bytes := s.file ++ s.buffered

def flush (s : WalSegment) : WalSegment := ⟨s.file ++ s.buffered, []⟩

/-- `bufio.Writer.Write` with a buffer of `size` bytes: what fits is buffered; with
an empty buffer a large write goes straight to the file; otherwise the buffer is
filled and flushed first. -/
def write (size : Nat) (s : WalSegment) (p : Bytes) : WalSegment :=
  let room := size - s.buffered.length
  if p.length ≤ room then ⟨s.file, s.buffered ++ p⟩
  else if s.buffered = [] then ⟨s.file ++ p, []⟩
  else
    let file := s.file ++ s.buffered ++ p.take room
    if (p.drop room).length ≤ size then ⟨file, p.drop room⟩ else ⟨file ++ p.drop room, []⟩

@[simp] theorem bytes_flush (s : WalSegment) : s.flush.bytes = s.bytes := by
  simp [bytes, flush]

@[simp] theorem file_flush (s : WalSegment) : s.flush.file = s.bytes := rfl

/-- However the buffer splits it, a write appends. -/
@[simp] theorem bytes_write (size : Nat) (s : WalSegment) (p : Bytes) : (s.write size p).bytes = s.bytes ++ p := by
  rw [write]
  split
  · simp [bytes]
  · split
    · rename_i empty
      simp [bytes, empty]
    · split <;> simp [bytes]

/-- One segment of `PrepareSnapshot`: its length and the flushed segment. -/
def prepareSnapshot (s : WalSegment) : Int × WalSegment := (s.flush.file.length, s.flush)

/-- `clearSegment`: drop the first `offset` bytes. -/
def clear (s : WalSegment) (offset : Int) : WalSegment :=
  if offset ≤ 0 ∨ s.flush.file.length ≤ offset then ⟨[], []⟩ else ⟨s.flush.file.drop offset.toNat, []⟩

/-- What `clear` leaves. An offset of zero empties the segment, whatever it holds. -/
theorem bytes_clear (s : WalSegment) (offset : Int) :
    (s.clear offset).bytes = if offset ≤ 0 then [] else s.bytes.drop offset.toNat := by
  by_cases zero : offset ≤ 0
  · rw [clear, if_pos (Or.inl zero), if_pos zero]
    rfl
  · by_cases past : (s.flush.file.length : Int) ≤ offset
    · have short : s.bytes.length ≤ offset.toNat := by
        rw [file_flush] at past
        omega
      rw [clear, if_pos (Or.inr past), if_neg zero, List.drop_eq_nil_of_le short]
      rfl
    · rw [clear, if_neg (not_or.mpr ⟨zero, past⟩), if_neg zero, bytes, file_flush, List.append_nil]

/-- Nothing is left of a segment nobody wrote to in between. -/
theorem clear_prepareSnapshot (s : WalSegment) : s.prepareSnapshot.2.clear s.prepareSnapshot.1 = ⟨[], []⟩ := by
  have same : s.flush.flush.file.length = s.flush.file.length := by rw [file_flush, bytes_flush, file_flush]
  exact if_pos (Or.inr (Int.ofNat_le.mpr same.le))

end WalSegment

/-! ## The log -/

structure Wal (count : Nat) where
  segments : Fin count → WalSegment
  bufferSize : Nat

/-- The buffer size `bufio.NewWriterSize` chooses. -/
def writerSize (bufferSize : UInt32) : Nat := if bufferSize = 0 then 4096 else bufferSize.toNat

/-- Open the segment files; a missing file is created empty. -/
def newWal (files : Nat → Bytes) (bufferSize : UInt32) (count : Nat) : Wal count where
  segments i := ⟨files i, []⟩
  bufferSize := writerSize bufferSize

/-- What a read of one segment reports, in order. -/
inductive WalEvent where
  /-- an unmarshalled entry, handed to `setResults` -/
  | update (entry : Option Request)
  /-- the error the segment's replay ends with -/
  | fail (err : Error)
  deriving DecidableEq, Repr

def readErrorText : ReadError → Error
  | .eof => ascii "EOF"
  | .unexpectedEOF => ascii "unexpected EOF"

/-- The loop of `replaySegment` over the unread bytes. Running out of bytes at a
header ends the segment; anywhere else it is an error. -/
def replayLoop [Proto] : Nat → Bytes → List WalEvent
  | 0, _ => []
  | fuel + 1, reader =>
    match readFull 4 reader with
    | .error .eof => []
    | .error err => [.fail (readErrorText err)]
    | .ok (header, reader) =>
      match readFull (beNat header) reader with
      | .error err => [.fail (readErrorText err)]
      | .ok (payload, reader) =>
        match unmarshal payload with
        | .error err => [.fail err]
        | .ok entry => .update entry :: replayLoop fuel reader

/-- Every round consumes a header, so the file's length bounds the rounds. -/
def replaySegment [Proto] (s : WalSegment) : List WalEvent :=
  replayLoop (s.flush.file.length + 1) s.flush.file

/-- The map that `Replay` fills. -/
abbrev Results := Std.TreeMap Key Value

/-- The record `setResults` builds from an entry. -/
def replayed : Request → Value
  | .set req => { data := req.value, timestamp := req.timestamp, tombstone := false, nodeID := [], itemHash := 0 }
  | .delete req => { data := [], timestamp := req.timestamp, tombstone := true, nodeID := [], itemHash := 0 }

def setResults (results : Results) : Option Request → Results
  | none => results
  | some r =>
    match results[r.key]? with
    | none => results.insert r.key (replayed r)
    | some existing => if existing.timestamp < r.timestamp then results.insert r.key (replayed r) else results

/-- One event of some segment reaches the shared results. -/
def applyEvent (acc : Results × Option Error) : WalEvent → Results × Option Error
  | .update entry => (setResults acc.1 entry, acc.2)
  | .fail err => (acc.1, acc.2.or (some err))

namespace Wal

variable {count : Nat}

/-- The index of `getSegment`. -/
def segmentIndex [NeZero count] (hash : HashKey) : Fin count := Fin.ofNat count hash.toNat

def publish [Proto] [NeZero count] (w : Wal count) (_key : Key) (hash : HashKey) (msg : Request) :
    Option Error × Wal count :=
  match marshal msg with
  | .error err => (some err, w)
  | .ok data =>
    let i := segmentIndex hash
    (none, { w with segments := Function.update w.segments i ((w.segments i).write w.bufferSize (frame data)) })

instance [Proto] [NeZero count] : Waler (Wal count) where
  publish := publish

/-- Replay all segments in parallel. The schedule says in which order their
entries reach the results map; the first error is kept. -/
def replay [Proto] (sched : List Nat) (w : Wal count) : Results × Option Error :=
  (interleave sched ((List.finRange count).map fun i => replaySegment (w.segments i))).foldl applyEvent (∅, none)

/-- One tick of a segment's `backgroundSync`. -/
def sync (w : Wal count) (i : Fin count) : Wal count :=
  { w with segments := Function.update w.segments i (w.segments i).flush }

/-- Flush and close; the files stay. -/
def stop (w : Wal count) : Fin count → Bytes := fun i => (w.segments i).flush.file

end Wal

end Oryx
