import Mathlib.Data.List.Basic
import Mathlib.Tactic.Linarith

/-!
# Length-prefixed frames

A frame is a four-byte big-endian length followed by that many bytes. A reader
that asks for exactly `n` bytes (`readFull`) finds all of them, none, or fewer
than asked; read frame by frame, a stream of whole frames ends at a boundary, and
one cut inside a frame does not.
-/

namespace Oryx.Library
set_option autoImplicit false

/-- The low 32 bits of `n`, most significant byte first. -/
def beBytes (n : Nat) : List UInt8 :=
  [UInt8.ofNat (n / 2 ^ 24), UInt8.ofNat (n / 2 ^ 16), UInt8.ofNat (n / 2 ^ 8), UInt8.ofNat n]

/-- The number a big-endian byte string stands for. -/
def beNat (bytes : List UInt8) : Nat := bytes.foldl (fun acc x => acc * 256 + x.toNat) 0

theorem length_beBytes (n : Nat) : (beBytes n).length = 4 := rfl

theorem beNat_beBytes {n : Nat} (small : n < 2 ^ 32) : beNat (beBytes n) = n := by
  simp only [beNat, beBytes, List.foldl_cons, List.foldl_nil, UInt8.toNat_ofNat']
  omega

theorem beNat_lt {bytes : List UInt8} (four : bytes.length = 4) : beNat bytes < 2 ^ 32 := by
  obtain ⟨a, b, c, d, rfl⟩ := List.length_eq_four.mp four
  have bounds := And.intro (And.intro a.toNat_lt b.toNat_lt) (And.intro c.toNat_lt d.toNat_lt)
  simp only [beNat, List.foldl_cons, List.foldl_nil]
  omega

/-- Every four bytes are a length. -/
theorem beBytes_beNat {bytes : List UInt8} (four : bytes.length = 4) : beBytes (beNat bytes) = bytes := by
  obtain ⟨a, b, c, d, rfl⟩ := List.length_eq_four.mp four
  have bounds := And.intro (And.intro a.toNat_lt b.toNat_lt) (And.intro c.toNat_lt d.toNat_lt)
  simp only [beNat, beBytes, List.foldl_cons, List.foldl_nil, List.cons.injEq, and_true, ← UInt8.toNat_inj,
    UInt8.toNat_ofNat']
  omega

/-- Why a reader did not get the bytes it asked for. -/
inductive ReadError where
  | eof
  | unexpectedEOF
  deriving DecidableEq, Repr

/-- Read exactly `n` bytes: `eof` when there is no byte left, `unexpectedEOF` when
there are some but not enough. -/
def readFull (n : Nat) (bytes : List UInt8) : Except ReadError (List UInt8 × List UInt8) :=
  if n ≤ bytes.length then .ok (bytes.take n, bytes.drop n)
  else if bytes = [] then .error .eof
  else .error .unexpectedEOF

theorem readFull_append {n : Nat} {front : List UInt8} (here : front.length = n) (rest : List UInt8) :
    readFull n (front ++ rest) = .ok (front, rest) := by
  subst here
  simp [readFull]

theorem readFull_eq_ok {n : Nat} {bytes front rest : List UInt8} (read : readFull n bytes = .ok (front, rest)) :
    bytes = front ++ rest ∧ front.length = n := by
  rw [readFull] at read
  split at read
  · rename_i enough
    obtain ⟨rfl, rfl⟩ := Prod.mk.inj (Except.ok.inj read)
    exact ⟨(List.take_append_drop n bytes).symm, List.length_take_of_le enough⟩
  · split at read <;> cases read

/-- There is no byte left exactly when the reader says so. -/
theorem eq_nil_of_readFull {n : Nat} {bytes : List UInt8} (read : readFull n bytes = .error .eof) : bytes = [] := by
  rw [readFull] at read
  split at read
  · cases read
  · split at read
    · assumption
    · cases read

theorem readFull_nil {n : Nat} (pos : 0 < n) : readFull n [] = .error .eof := by
  simp [readFull, pos.ne']

/-- Fewer bytes than asked for, whatever they are, is an error. -/
theorem readFull_short {n : Nat} {bytes : List UInt8} (short : bytes.length < n) :
    ∃ err, readFull n bytes = .error err ∧ (bytes ≠ [] → err = .unexpectedEOF) := by
  by_cases empty : bytes = []
  · subst empty
    exact ⟨.eof, readFull_nil short, fun h => absurd rfl h⟩
  · exact ⟨.unexpectedEOF, by simp [readFull, Nat.not_le.mpr short, empty], fun _ => rfl⟩

/-- A payload behind its length. -/
def frame (payload : List UInt8) : List UInt8 := beBytes payload.length ++ payload

/-- A stream of frames. -/
def frames (payloads : List (List UInt8)) : List UInt8 := payloads.flatMap frame

@[simp] theorem length_frame (payload : List UInt8) : (frame payload).length = 4 + payload.length := by
  simp [frame, length_beBytes]

@[simp] theorem frames_nil : frames [] = [] := rfl

@[simp] theorem frames_cons (payload : List UInt8) (rest : List (List UInt8)) :
    frames (payload :: rest) = frame payload ++ frames rest := rfl

@[simp] theorem frames_append (payloads rest : List (List UInt8)) :
    frames (payloads ++ rest) = frames payloads ++ frames rest := by
  simp [frames]

theorem length_le_frames (payloads : List (List UInt8)) : payloads.length ≤ (frames payloads).length := by
  induction payloads with
  | nil => rfl
  | cons payload rest ih =>
    rw [frames_cons, List.length_append, length_frame, List.length_cons]
    omega

/-- The two reads of one frame: the length, then the payload. -/
theorem readFull_frame (payload rest : List UInt8) :
    readFull 4 (frame payload ++ rest) = .ok (beBytes payload.length, payload ++ rest) := by
  rw [frame, List.append_assoc]
  exact readFull_append (length_beBytes _) _

/-- Two reads that succeed have read a frame. -/
theorem frame_of_readFull {bytes header body payload rest : List UInt8} (head : readFull 4 bytes = .ok (header, body))
    (read : readFull (beNat header) body = .ok (payload, rest)) :
    bytes = frame payload ++ rest ∧ payload.length < 2 ^ 32 := by
  obtain ⟨rfl, four⟩ := readFull_eq_ok head
  obtain ⟨rfl, length⟩ := readFull_eq_ok read
  rw [frame, length, beBytes_beNat four, List.append_assoc]
  exact ⟨rfl, beNat_lt four⟩

/-- A stream says where its first frame ends. -/
theorem frame_append_inj {payload payload' rest rest' : List UInt8} (small : payload.length < 2 ^ 32)
    (small' : payload'.length < 2 ^ 32) (same : frame payload ++ rest = frame payload' ++ rest') :
    payload = payload' ∧ rest = rest' := by
  rw [frame, frame, List.append_assoc, List.append_assoc] at same
  obtain ⟨header, body⟩ := List.append_inj same (by rw [length_beBytes, length_beBytes])
  have length : payload.length = payload'.length := by
    rw [← beNat_beBytes small, header, beNat_beBytes small']
  exact List.append_inj body length

/-- And so where each of its frames is. -/
theorem mem_of_frames_eq {payloads before : List (List UInt8)} {payload after : List UInt8}
    (small : ∀ p ∈ payloads, p.length < 2 ^ 32) (smallBefore : ∀ p ∈ before, p.length < 2 ^ 32)
    (smallHere : payload.length < 2 ^ 32) (same : frames payloads = frames before ++ frame payload ++ after) :
    payload ∈ payloads := by
  induction payloads generalizing before with
  | nil =>
    have length := congrArg List.length same
    rw [List.length_append, List.length_append, length_frame, frames_nil, List.length_nil] at length
    omega
  | cons p rest ih =>
    obtain ⟨smallFirst, small⟩ := List.forall_mem_cons.mp small
    cases before with
    | nil =>
      obtain ⟨rfl, -⟩ := frame_append_inj smallFirst smallHere same
      exact List.mem_cons_self
    | cons q earlier =>
      obtain ⟨smallQ, smallBefore⟩ := List.forall_mem_cons.mp smallBefore
      rw [frames_cons, frames_cons, List.append_assoc, List.append_assoc] at same
      obtain ⟨-, same⟩ := frame_append_inj smallFirst smallQ same
      exact List.mem_cons_of_mem p (ih small smallBefore (by rwa [List.append_assoc]))

/-- How many frames of a stream lie wholly within its first `cut` bytes. -/
def wholeCount : List (List UInt8) → Nat → Nat
  | [], _ => 0
  | payload :: rest, cut =>
    if (frame payload).length ≤ cut then wholeCount rest (cut - (frame payload).length) + 1 else 0

/-- A proper, non-empty part of the frame of `payload`. -/
structure Torn (payload part : List UInt8) : Prop where
  nonempty : part ≠ []
  front : part <+: frame payload
  proper : part.length < (frame payload).length

/-- A prefix of a stream of frames is its whole frames, then nothing more or a
part of the next one. -/
theorem take_frames (payloads : List (List UInt8)) (cut : Nat) :
    ∃ part, (frames payloads).take cut = frames (payloads.take (wholeCount payloads cut)) ++ part ∧
      (part = [] ∨ ∃ payload ∈ payloads, Torn payload part) := by
  induction payloads generalizing cut with
  | nil => exact ⟨[], by simp, Or.inl rfl⟩
  | cons payload later ih =>
    by_cases past : (frame payload).length ≤ cut
    · obtain ⟨part, bytes, shape⟩ := ih (cut - (frame payload).length)
      refine ⟨part, ?_, shape.imp_right fun ⟨p, member, torn⟩ => ⟨p, List.mem_cons_of_mem _ member, torn⟩⟩
      rw [wholeCount, if_pos past, List.take_succ_cons, frames_cons, frames_cons, List.append_assoc, ← bytes,
        List.take_append, List.take_of_length_le past]
    · have inside : cut < (frame payload).length := Nat.not_le.mp past
      refine ⟨(frame payload).take cut, ?_, ?_⟩
      · rw [wholeCount, if_neg past, List.take_zero, frames_nil, List.nil_append, frames_cons,
          List.take_append_of_le_length inside.le]
      · by_cases zero : cut = 0
        · exact Or.inl (by rw [zero, List.take_zero])
        · refine Or.inr ⟨payload, List.mem_cons_self, ?_, List.take_prefix _ _, ?_⟩
          · intro empty
            have length := congrArg List.length empty
            rw [List.length_take, List.length_nil] at length
            omega
          · rw [List.length_take]
            omega

/-- A reader that starts at a part of a frame with something behind it passes the
start of what is behind it: the length it reads is of the torn frame, or made of
bytes of both. -/
theorem Torn.passes {payload part tail data rest : List UInt8} (torn : Torn payload part)
    (small : payload.length < 2 ^ 32) (fits : data.length < 2 ^ 32) (read : part ++ tail = frame data ++ rest) :
    rest.length < tail.length := by
  obtain ⟨-, ⟨missing, whole⟩, proper⟩ := torn
  have total := congrArg List.length read
  rw [List.length_append, List.length_append, length_frame] at total
  rw [length_frame] at proper
  by_cases header : part.length < 4
  · omega
  · have long : 4 ≤ part.length := Nat.not_lt.mp header
    have same : beBytes payload.length = beBytes data.length := by
      have torn := congrArg (List.take 4) whole
      have here := congrArg (List.take 4) read
      rw [List.take_append_of_le_length long, frame, List.take_left' (length_beBytes _)] at torn
      rw [List.take_append_of_le_length long, frame, List.append_assoc, List.take_left' (length_beBytes _)] at here
      exact torn.symm.trans here
    have length := congrArg beNat same
    rw [beNat_beBytes small, beNat_beBytes fits] at length
    omega

/-- Reading a proper, non-empty part of a frame fails, at its length or at its payload. -/
theorem Torn.readFull {payload part : List UInt8} (torn : Torn payload part) (small : payload.length < 2 ^ 32) :
    readFull 4 part = .error .unexpectedEOF ∨
      ∃ body err, readFull 4 part = .ok (beBytes payload.length, body) ∧
        readFull (beNat (beBytes payload.length)) body = .error err := by
  obtain ⟨nonempty, front, proper⟩ := torn
  by_cases header : part.length < 4
  · obtain ⟨err, fails, kind⟩ := readFull_short header
    rw [kind nonempty] at fails
    exact Or.inl fails
  · have long : 4 ≤ part.length := Nat.not_lt.mp header
    obtain ⟨rest, whole⟩ := front
    have split : part = beBytes payload.length ++ part.drop 4 := by
      have same : part.take 4 = beBytes payload.length := by
        have := congrArg (List.take 4) whole
        rwa [List.take_append_of_le_length long, frame, List.take_left' (length_beBytes _)] at this
      rw [← same, List.take_append_drop]
    have short : (part.drop 4).length < beNat (beBytes payload.length) := by
      rw [beNat_beBytes small, List.length_drop]
      rw [length_frame] at proper
      omega
    obtain ⟨err, fails, -⟩ := readFull_short short
    refine Or.inr ⟨part.drop 4, err, ?_, fails⟩
    have read := readFull_append (length_beBytes payload.length) (part.drop 4)
    rwa [← split] at read

end Oryx.Library
