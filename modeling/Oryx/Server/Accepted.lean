import Oryx.Server.Grammar

/-!
# What the parser accepts

The grammar of command frames from both sides: nothing else is accepted, and what a client
sends for a list of byte strings is read back. The numbers of the parser are Go `int`s,
which wrap at the word size; its overflow guard keeps them from doing so.
-/

namespace Oryx.Server
set_option autoImplicit false

open Outcome

section Wrapping

variable [Platform]

/-- A Go `int` after an operation that may wrap. -/
def wrapInt (x : Int) : Int := x.bmod (2 ^ Platform.wordSize)

/-- `parseDigits` with the arithmetic of Go. -/
def parseDigitsInt (n : Int) : Bytes → Except Error Int
  | [] => .ok n
  | c :: rest =>
    if c < 48 ∨ c > 57 then .error (ascii "invalid digit")
    else
      let digit : Int := (c - 48).toNat
      if n > (wrapInt (maxInt - digit)).tdiv 10 then .error (ascii "integer overflow")
      else parseDigitsInt (wrapInt (wrapInt (n * 10) + digit)) rest

def parseFastIntInt (b : Bytes) : Except Error Int :=
  if b.length = 0 then .error (ascii "empty int") else parseDigitsInt 0 b

theorem wrapInt_eq {x : Int} (low : 0 ≤ x) (high : x ≤ maxInt) : wrapInt x = x := by
  rcases Platform.word with word | word
  · simp only [maxInt, word] at high
    rw [wrapInt, word]
    exact Int.bmod_eq_of_le (by omega) (by omega)
  · simp only [maxInt, word] at high
    rw [wrapInt, word]
    exact Int.bmod_eq_of_le (by omega) (by omega)

/-- **No wrap-around**: the digits come to the same number, or the same error, in unbounded
arithmetic. -/
theorem parseDigitsInt_eq {n : Nat} (fits : n ≤ maxInt) (d : Bytes) :
    parseDigitsInt n d = (parseDigits n d).map fun m => (m : Int) := by
  have nine := nine_le_maxInt
  induction d generalizing n with
  | nil => rfl
  | cons c rest ih =>
    rw [parseDigitsInt, parseDigits]
    split
    · rfl
    · rename_i digit
      obtain ⟨low, high⟩ := not_or.mp digit
      rw [UInt8.not_lt, UInt8.le_iff_toNat_le, show (48 : UInt8).toNat = 48 from rfl] at low
      rw [gt_iff_lt, UInt8.not_lt, UInt8.le_iff_toNat_le, show (57 : UInt8).toNat = 57 from rfl] at high
      have value : (c - 48).toNat = c.toNat - 48 := UInt8.toNat_sub_of_le _ _ (UInt8.le_iff_toNat_le.mpr low)
      have guard : (wrapInt ((maxInt : Int) - ((c - 48).toNat : Int))).tdiv 10 =
          (((maxInt - (c.toNat - 48)) / 10 : Nat) : Int) := by
        rw [value, wrapInt_eq (by omega) (by omega), ← Int.natCast_sub (by omega)]
        rfl
      simp only [guard, gt_iff_lt, Int.ofNat_lt]
      split
      · rfl
      · rename_i room
        have tens : wrapInt ((n : Int) * 10) = ((n * 10 : Nat) : Int) := by
          rw [wrapInt_eq (by omega) (by omega)]
          rfl
        have next : wrapInt (((n * 10 : Nat) : Int) + ((c - 48).toNat : Int)) =
            ((n * 10 + (c.toNat - 48) : Nat) : Int) := by
          rw [value, wrapInt_eq (by omega) (by omega)]
          rfl
        rw [tens, next]
        exact ih (by omega)

theorem parseFastIntInt_eq (b : Bytes) : parseFastIntInt b = (parseFastInt b).map fun m => (m : Int) := by
  rw [parseFastIntInt, parseFastInt]
  split
  · rfl
  · exact parseDigitsInt_eq (Nat.zero_le _) b

end Wrapping

/-! ## Decimal numerals -/

theorem toNat_ofNat_digit {c : Char} (digit : c.isDigit = true) :
    (UInt8.ofNat c.toNat).toNat = c.toNat ∧ 48 ≤ c.toNat ∧ c.toNat ≤ 57 := by
  simp only [Char.isDigit, Bool.and_eq_true, decide_eq_true_eq, ge_iff_le, UInt32.le_iff_toNat_le] at digit
  have low : 48 ≤ c.toNat := digit.1
  have high : c.toNat ≤ 57 := digit.2
  exact ⟨by rw [UInt8.toNat_ofNat']; omega, low, high⟩

theorem digitsValue_map {l : List Char} (digits : ∀ c ∈ l, c.isDigit = true) (n : Nat) :
    digitsValue n (l.map fun c => UInt8.ofNat c.toNat) = Nat.ofDigitChars 10 l n := by
  induction l generalizing n with
  | nil => rfl
  | cons c rest ih =>
    obtain ⟨here, later⟩ := List.forall_mem_cons.mp digits
    have value := (toNat_ofNat_digit here).1
    have step : n * 10 + ((UInt8.ofNat c.toNat).toNat - 48) = 10 * n + (c.toNat - '0'.toNat) := by
      rw [value, Nat.mul_comm]
      rfl
    rw [List.map_cons, digitsValue, List.foldl_cons, ← digitsValue, step, ih later]
    rfl

/-- What a number prints as. -/
theorem decimal_spec (n : Nat) :
    decimal n ≠ [] ∧ (∀ c ∈ decimal n, 48 ≤ c ∧ c ≤ 57) ∧ digitsValue 0 (decimal n) = n := by
  have digits : ∀ c ∈ Nat.toDigits 10 n, c.isDigit = true := fun c member =>
    Nat.isDigit_of_mem_toDigits (by decide) (by decide) member
  refine ⟨?_, ?_, ?_⟩
  · simp [decimal, Nat.toDigits_ne_nil]
  · intro b member
    obtain ⟨c, printed, rfl⟩ := List.mem_map.mp member
    obtain ⟨value, low, high⟩ := toNat_ofNat_digit (digits c printed)
    rw [UInt8.le_iff_toNat_le, UInt8.le_iff_toNat_le, value]
    exact ⟨low, high⟩
  · rw [decimal, digitsValue_map digits, Nat.ofDigitChars_ten_toDigits]

theorem numeral_decimal [Platform] {n : Nat} (fits : n ≤ maxInt) : Numeral (decimal n) n :=
  ⟨(decimal_spec n).1, (decimal_spec n).2.1, (decimal_spec n).2.2, fits⟩

/-! ## Commands as clients send them -/

section Clients

variable [Platform]

/-- A byte slice of Go, whose length is an `int`. -/
abbrev GoBytes := {b : Bytes // b.length ≤ maxInt}

/-- The array of bulk strings that a client sends for a command. -/
def encodeArgs (args : List GoBytes) : Bytes :=
  header 42 (decimal args.length) ++
    args.flatMap fun a => header 36 (decimal a.val.length) ++ a.val ++ [13, 10]

theorem maxArgs_le_maxInt : maxArgs ≤ maxInt := by
  rcases Platform.word with word | word <;> simp [maxInt, maxArgs, word]

/-- The bulk string with the shortest numeral. -/
def Bulk.ofBytes (b : GoBytes) : Bulk := ⟨decimal b.val.length, b.val, numeral_decimal b.property⟩

/-- A command is a frame. -/
def Frame.ofArgs (args : List GoBytes) (few : args.length ≤ maxArgs) : Frame where
  digits := decimal args.length
  bulks := args.map Bulk.ofBytes
  count := by
    rw [List.length_map]
    exact numeral_decimal (few.trans maxArgs_le_maxInt)
  limit := by rwa [List.length_map]

theorem encode_ofArgs (args : List GoBytes) (few : args.length ≤ maxArgs) :
    (Frame.ofArgs args few).encode = encodeArgs args := by
  simp [Frame.encode, Frame.ofArgs, encodeArgs, encodeBulks, List.flatMap_map, Bulk.encode, Bulk.ofBytes]

theorem args_ofArgs (args : List GoBytes) (few : args.length ≤ maxArgs) :
    (Frame.ofArgs args few).args = args.map Subtype.val := by
  simp [Frame.args, Frame.ofArgs, Bulk.ofBytes, Function.comp_def]

/-- **The parser and its grammar**: no index is out of range; a result is returned exactly for
the bytes that start with a frame, with its arguments and its length, and `false` for all
others; what a client sends for at most 1024 byte strings is read back, whatever follows;
and the numbers never wrap. -/
theorem parser_accepts_grammar (data : Bytes) :
    parseRESPFrame data ≠ panic ∧
      (∀ args read, parseRESPFrame data = ok (args, read) ↔
        ∃ f : Frame, f.args = args ∧ f.encode <+: data ∧ read = f.encode.length) ∧
      (parseRESPFrame data = refused ↔ ¬∃ f : Frame, f.encode <+: data) ∧
      (∀ args : List GoBytes, args.length ≤ maxArgs →
        parseRESPFrame (encodeArgs args ++ data) = ok (args.map Subtype.val, (encodeArgs args).length)) ∧
      parseFastIntInt data = (parseFastInt data).map fun n => (n : Int) := by
  have accepts (args : List Bytes) (read : Nat) : parseRESPFrame data = ok (args, read) ↔
      ∃ f : Frame, f.args = args ∧ f.encode <+: data ∧ read = f.encode.length := by
    rw [parseRESPFrame_eq_ok]
    constructor
    · rintro ⟨f, rest, same, whole, length⟩
      exact ⟨f, same, ⟨rest, whole.symm⟩, length⟩
    · rintro ⟨f, same, ⟨rest, whole⟩, length⟩
      exact ⟨f, rest, same, whole.symm, length⟩
  refine ⟨parseRESPFrame_ne_panic, accepts, ?_, fun args few => ?_, parseFastIntInt_eq data⟩
  · constructor
    · rintro refused ⟨f, start⟩
      rw [(accepts f.args f.encode.length).mpr ⟨f, rfl, start, rfl⟩] at refused
      cases refused
    · intro none
      cases outcome : parseRESPFrame data with
      | panic => exact absurd outcome parseRESPFrame_ne_panic
      | refused => rfl
      | ok result =>
        obtain ⟨f, _, start, _⟩ := (accepts result.1 result.2).mp outcome
        exact absurd ⟨f, start⟩ none
  · refine parseRESPFrame_eq_ok.mpr ⟨Frame.ofArgs args few, data, args_ofArgs args few, ?_, ?_⟩
    · rw [encode_ofArgs]
    · rw [encode_ofArgs]

end Clients

end Oryx.Server
