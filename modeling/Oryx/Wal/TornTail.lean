import Oryx.Wal.Format

/-!
# Publishing behind a torn record

`NewWal` opens the segment files for appending as they are. A file that a crash cut
inside a frame keeps the part of it, and the next record is written behind that
part: the replay after the next stop starts a round at the torn frame and takes the
new frame's first bytes for the rest of it. `torn_tail_iff` says that a record
published since is read where it was written exactly when there was no such part.
-/

namespace Oryx
set_option autoImplicit false
open Oryx.Library

section TornTail

variable [Proto]

/-! ## Rounds of the reading loop -/

/-- The rounds of `replayLoop` that decode an entry, each with the bytes it found
unread. -/
def rounds : Nat → Bytes → List (Bytes × Option Request)
  | 0, _ => []
  | fuel + 1, reader =>
    match readFull 4 reader with
    | .error _ => []
    | .ok (header, body) =>
      match readFull (beNat header) body with
      | .error _ => []
      | .ok (data, rest) =>
        match unmarshal data with
        | .error _ => []
        | .ok entry => (reader, entry) :: rounds fuel rest

/-- The entry of an event. -/
def WalEvent.entry : WalEvent → Option (Option Request)
  | .update entry => some entry
  | .fail _ => none

/-- The rounds are those of the replay. -/
theorem rounds_snd (fuel : Nat) (reader : Bytes) :
    (rounds fuel reader).map Prod.snd = (replayLoop fuel reader).filterMap WalEvent.entry := by
  induction fuel generalizing reader with
  | zero => rfl
  | succ fuel ih =>
    cases head : readFull 4 reader with
    | error err => cases err <;> simp [rounds, replayLoop, head, WalEvent.entry]
    | ok part =>
      obtain ⟨header, body⟩ := part
      cases read : readFull (beNat header) body with
      | error err => simp [rounds, replayLoop, head, read, WalEvent.entry]
      | ok part =>
        obtain ⟨data, rest⟩ := part
        cases decoded : unmarshal data <;> simp [rounds, replayLoop, head, read, decoded, WalEvent.entry, ih]

theorem rounds_frame {data : Bytes} {entry : Option Request} (decodes : Decodes data entry) (fuel : Nat) (tail : Bytes) :
    rounds (fuel + 1) (frame data ++ tail) = (frame data ++ tail, entry) :: rounds fuel tail := by
  have body := readFull_append (n := beNat (beBytes data.length)) (beNat_beBytes decodes.small).symm tail
  rw [rounds, readFull_frame]
  simp only [body, decodes.unmarshal_eq]

/-- A round is at its first bytes, or it is one of the rounds behind a frame. -/
theorem mem_rounds_succ {fuel : Nat} {reader : Bytes} {round : Bytes × Option Request}
    (member : round ∈ rounds (fuel + 1) reader) :
    ∃ data rest, reader = frame data ++ rest ∧ data.length < 2 ^ 32 ∧ (round.1 = reader ∨ round ∈ rounds fuel rest) := by
  rw [rounds] at member
  cases head : readFull 4 reader with
  | error err => simp [head] at member
  | ok part =>
    obtain ⟨header, body⟩ := part
    cases read : readFull (beNat header) body with
    | error err => simp [head, read] at member
    | ok part =>
      obtain ⟨data, rest⟩ := part
      obtain ⟨bytes, small⟩ := frame_of_readFull head read
      refine ⟨data, rest, bytes, small, ?_⟩
      cases decoded : unmarshal data with
      | error err => simp [head, read, decoded] at member
      | ok entry =>
        simp only [head, read, decoded, List.mem_cons] at member
        exact member.imp_left fun same => by rw [same]

/-- No round starts with more than there was. -/
theorem length_le_of_mem_rounds {fuel : Nat} {reader : Bytes} {round : Bytes × Option Request}
    (member : round ∈ rounds fuel reader) : round.1.length ≤ reader.length := by
  induction fuel generalizing reader with
  | zero => cases member
  | succ fuel ih =>
    obtain ⟨data, rest, rfl, -, here | later⟩ := mem_rounds_succ member
    · rw [here]
    · have := ih later
      rw [List.length_append]
      omega

/-- Whole frames in front only add rounds, -/
theorem mem_rounds_frames {payloads : List Bytes} {entries : List (Option Request)}
    (decodes : List.Forall₂ Decodes payloads entries) {fuel : Nat} {tail : Bytes} {round : Bytes × Option Request}
    (member : round ∈ rounds fuel tail) : round ∈ rounds (payloads.length + fuel) (frames payloads ++ tail) := by
  induction decodes with
  | nil => simpa using member
  | @cons data _ rest _ here _ ih =>
    have more : (data :: rest).length + fuel = rest.length + fuel + 1 := by
      rw [List.length_cons]
      omega
    rw [more, frames_cons, List.append_assoc, rounds_frame here]
    exact List.mem_cons_of_mem _ ih

/-- and these start with more unread. -/
theorem lt_or_mem_of_mem_rounds {payloads : List Bytes} {entries : List (Option Request)}
    (decodes : List.Forall₂ Decodes payloads entries) {fuel : Nat} {tail : Bytes} {round : Bytes × Option Request}
    (member : round ∈ rounds (payloads.length + fuel) (frames payloads ++ tail)) :
    tail.length < round.1.length ∨ round ∈ rounds fuel tail := by
  induction decodes with
  | nil => exact Or.inr (by simpa using member)
  | @cons data _ rest _ here _ ih =>
    have more : (data :: rest).length + fuel = rest.length + fuel + 1 := by
      rw [List.length_cons]
      omega
    rw [more, frames_cons, List.append_assoc, rounds_frame here, List.mem_cons] at member
    rcases member with rfl | later
    · left
      simp only [List.length_append, length_frame]
      omega
    · exact ih later

/-- Behind a torn frame no round starts where the next record was written. -/
theorem length_ne_of_torn {data part tail : Bytes} (torn : Torn data part) (small : data.length < 2 ^ 32) {fuel : Nat}
    {round : Bytes × Option Request} (member : round ∈ rounds fuel (part ++ tail)) : round.1.length ≠ tail.length := by
  cases fuel with
  | zero => cases member
  | succ fuel =>
    obtain ⟨read, rest, bytes, fits, here | later⟩ := mem_rounds_succ member
    · have nonempty := List.length_pos_iff.mpr torn.nonempty
      rw [here, List.length_append]
      omega
    · have passed := torn.passes small fits bytes
      have := length_le_of_mem_rounds later
      omega

/-- The rounds of one segment's replay. -/
def segmentRounds (s : WalSegment) : List (Bytes × Option Request) := rounds (s.bytes.length + 1) s.bytes

/-! ## Two lifetimes -/

/-- A file as a crash leaves it: frames that decode, then perhaps a part of another. -/
structure LeftByCrash (file : Bytes) (payloads : List Bytes) (part : Bytes) : Prop where
  bytes : file = frames payloads ++ part
  decodes : ∃ entries, List.Forall₂ Decodes payloads entries
  torn : part = [] ∨ ∃ data, data.length < 2 ^ 32 ∧ Torn data part

variable {count : Nat} [NeZero count] [Security]

/-- The log of the lifetime after the next: the files are opened, used, closed by
`Stop` and opened again. -/
def Wal.reopened (files : Nat → Bytes) (bufferSize : UInt32) (actions : List (LogAction count)) : Wal count :=
  let w := runFrom Wal.act (newWal files bufferSize count) actions
  newWal (fun n => if h : n < count then w.stop ⟨n, h⟩ else files n) bufferSize count

theorem Wal.bytes_reopened (files : Nat → Bytes) (bufferSize : UInt32) {actions : List (LogAction count)}
    (faithful : ∀ r ∈ published actions, Faithful r) (i : Fin count) :
    ((Wal.reopened files bufferSize actions).segments i).bytes =
      files i ++ logBytes (segmentLog (published actions) i) := by
  have bytes := Wal.bytes_runFrom (newWal files bufferSize count) faithful i
  simpa [Wal.reopened, newWal, WalSegment.bytes, Wal.stop] using bytes

/-- **Publishing after a crash**: every record published to segment `i` since the
reopening is read by the next replay at the place it was written to, exactly when
the crash left whole frames or nothing was published to that segment. -/
theorem torn_tail_iff (files : Nat → Bytes) (bufferSize : UInt32) {actions : List (LogAction count)}
    (faithful : ∀ r ∈ published actions, Faithful r) {i : Fin count} {payloads : List Bytes} {part : Bytes}
    (left : LeftByCrash (files i) payloads part) :
    (∀ before r later, segmentLog (published actions) i = before ++ r :: later →
      (logBytes (r :: later), some r) ∈ segmentRounds ((Wal.reopened files bufferSize actions).segments i)) ↔
    part = [] ∨ segmentLog (published actions) i = [] := by
  obtain ⟨bytes, ⟨entries, decodes⟩, torn⟩ := left
  have here := Wal.bytes_reopened files bufferSize faithful i
  rw [bytes, List.append_assoc] at here
  have sound : ∀ r ∈ segmentLog (published actions) i, Faithful r :=
    fun r member => faithful r (mem_segmentLog.mp member).1
  rw [segmentRounds, here]
  generalize segmentLog (published actions) i = log at sound
  have fits := length_le_frames payloads
  constructor
  · intro read
    by_contra neither
    obtain ⟨nonempty, some⟩ := not_or.mp neither
    obtain ⟨data, small, torn⟩ := torn.resolve_left nonempty
    obtain ⟨r, later, rfl⟩ := List.exists_cons_of_ne_nil some
    have member := read [] r later rfl
    obtain ⟨extra, fuel⟩ : ∃ extra, (frames payloads ++ (part ++ logBytes (r :: later))).length + 1 =
        payloads.length + extra := Nat.exists_eq_add_of_le (by rw [List.length_append]; omega)
    rw [fuel] at member
    rcases lt_or_mem_of_mem_rounds decodes member with before | after
    · simp only [List.length_append] at before
      omega
    · exact length_ne_of_torn torn small after rfl
  · rintro (rfl | rfl) before r later split
    · subst split
      have inFront : List.Forall₂ Decodes (payloads ++ before.map payload) (entries ++ before.map some) :=
        List.rel_append decodes (forall₂_decodes fun r' member => sound r' (List.mem_append_left _ member))
      have split : frames payloads ++ ([] ++ logBytes (before ++ r :: later)) =
          frames (payloads ++ before.map payload) ++ (frame (payload r) ++ logBytes later) := by
        simp [logBytes]
      have enough := length_le_frames (payloads ++ before.map payload)
      obtain ⟨extra, fuel⟩ : ∃ extra,
          (frames (payloads ++ before.map payload) ++ (frame (payload r) ++ logBytes later)).length + 1 =
            (payloads ++ before.map payload).length + (extra + 1) := by
        obtain ⟨extra, eq⟩ := Nat.exists_eq_add_of_le enough
        refine ⟨extra + (frame (payload r) ++ logBytes later).length, ?_⟩
        rw [List.length_append, eq]
        omega
      rw [split, fuel]
      refine mem_rounds_frames inFront ?_
      rw [rounds_frame (sound r (by simp)).decodes]
      exact List.mem_cons_self
    · exact absurd split (by simp)

end TornTail

open Reference Protobuf

/-- A record whole in the file, and one published after the crash. -/
def oldRecord : Request := .set ⟨[98], [1], 1, [110]⟩
def newRecord : Request := .set ⟨[97], [1], 2, [110]⟩

def afterCrash : List (LogAction 1) := [.publish newRecord]

/-- A file cut at a frame boundary: the record published behind it is found. -/
theorem torn_tail_iff_boundary :
    (logBytes [newRecord], some newRecord) ∈
      segmentRounds ((Wal.reopened (fun _ => logBytes [oldRecord]) 4096 afterCrash).segments 0) := by
  have faithful : ∀ r ∈ published afterCrash, Faithful r := by decide +kernel
  have whole : ∀ r ∈ [oldRecord], Faithful r := by decide +kernel
  have left : LeftByCrash (logBytes [oldRecord]) [payload oldRecord] [] :=
    ⟨rfl, ⟨_, forall₂_decodes whole⟩, Or.inl rfl⟩
  exact (torn_tail_iff (fun _ => logBytes [oldRecord]) 4096 faithful left).mpr (Or.inl rfl) [] newRecord []
    (by decide +kernel)

/-- One byte of a torn record stands in front of a whole one, and the replay does not
find it: the length it reads is made of bytes of both, and so is the next. -/
theorem torn_header_hides_record :
    LeftByCrash [0] [] [0] ∧
      replaySegment ((Wal.reopened (fun _ => [0]) 4096 afterCrash).segments 0) =
        [.update none, .fail (ascii "unexpected EOF")] := by
  refine ⟨⟨rfl, ⟨[], .nil⟩, Or.inr ⟨payload newRecord, ?_, ?_, ?_, ?_⟩⟩, ?_⟩ <;> decide +kernel

end Oryx
