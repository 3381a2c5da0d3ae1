import Oryx.Server.Resp
import Mathlib.Tactic.Linarith

/-!
# The grammar of command frames

Frames as values that can only be well formed, their bytes, and the parser's side of
it: `parseRESPFrame` accepts exactly the byte strings that start with a frame, gives
back its arguments and its length, and never indexes out of range.
-/

namespace Oryx.Server
set_option autoImplicit false

open Outcome

/-- The value of a run of decimal digits, continuing from `n`. -/
def digitsValue (n : Nat) (d : Bytes) : Nat := d.foldl (fun n c => n * 10 + (c.toNat - 48)) n

/-- `d` is a decimal numeral of value `n`; leading zeros are allowed. -/
structure Numeral [Platform] (d : Bytes) (n : Nat) : Prop where
  nonempty : d ≠ []
  digit : ∀ c ∈ d, 48 ≤ c ∧ c ≤ 57
  value : digitsValue 0 d = n
  fits : n ≤ maxInt

/-- A bulk string with the digits its length is written in. -/
structure Bulk [Platform] where
  digits : Bytes
  payload : Bytes
  length : Numeral digits payload.length

/-- A command frame: an array of bulk strings. -/
structure Frame [Platform] where
  digits : Bytes
  bulks : List Bulk
  count : Numeral digits bulks.length
  limit : bulks.length ≤ maxArgs

/-- A header line. -/
def header (tag : UInt8) (digits : Bytes) : Bytes := tag :: (digits ++ [13, 10])

section Grammar

variable [Platform]

/-- The length behind `$` and the payload, each line with its CRLF. -/
def Bulk.encode (b : Bulk) : Bytes := header 36 b.digits ++ b.payload ++ [13, 10]

def encodeBulks (bulks : List Bulk) : Bytes := bulks.flatMap Bulk.encode

/-- The number of arguments behind `*`, and the bulk strings. -/
def Frame.encode (f : Frame) : Bytes := header 42 f.digits ++ encodeBulks f.bulks

/-- What the server is asked to do. -/
def Frame.args (f : Frame) : List Bytes := f.bulks.map Bulk.payload

/-- The bytes of frames one after another. -/
def stream (frames : List Frame) : Bytes := frames.flatMap Frame.encode

omit [Platform] in
@[simp] theorem length_header (tag : UInt8) (d : Bytes) : (header tag d).length = d.length + 3 := by
  simp [header]

@[simp] theorem encodeBulks_nil : encodeBulks [] = [] := rfl

@[simp] theorem encodeBulks_cons (b : Bulk) (bulks : List Bulk) :
    encodeBulks (b :: bulks) = b.encode ++ encodeBulks bulks := rfl

@[simp] theorem stream_nil : stream [] = [] := rfl

@[simp] theorem stream_cons (f : Frame) (frames : List Frame) :
    stream (f :: frames) = f.encode ++ stream frames := rfl

theorem encode_ne_nil (f : Frame) : f.encode ≠ [] := by simp [Frame.encode, header]

/-! ## Numbers -/

/-- A single digit never overflows. -/
theorem nine_le_maxInt : 9 ≤ maxInt := by
  rcases Platform.word with word | word <;> simp [maxInt, word]

omit [Platform] in
/-- Reading on does not make a number smaller. -/
theorem le_digitsValue (n : Nat) (d : Bytes) : n ≤ digitsValue n d := by
  induction d generalizing n with
  | nil => exact le_rfl
  | cons c rest ih =>
    have step := ih (n * 10 + (c.toNat - 48))
    rw [digitsValue] at step ⊢
    rw [List.foldl_cons]
    omega

/-- The overflow guard stops exactly the numbers above the largest `int`. -/
theorem parseDigits_eq_ok {n m : Nat} {d : Bytes} (fits : n ≤ maxInt) :
    parseDigits n d = .ok m ↔ (∀ c ∈ d, 48 ≤ c ∧ c ≤ 57) ∧ digitsValue n d = m ∧ m ≤ maxInt := by
  have nine := nine_le_maxInt
  induction d generalizing n with
  | nil =>
    simp only [parseDigits, digitsValue, List.foldl_nil, Except.ok.injEq, List.not_mem_nil, false_implies,
      implies_true, true_and]
    constructor
    · rintro rfl
      exact ⟨rfl, fits⟩
    · exact fun h => h.1
  | cons c rest ih =>
    rw [parseDigits, List.forall_mem_cons]
    by_cases digit : 48 ≤ c ∧ c ≤ 57
    · have low := UInt8.le_iff_toNat_le.mp digit.1
      have high := UInt8.le_iff_toNat_le.mp digit.2
      have low48 : (48 : UInt8).toNat = 48 := rfl
      have high57 : (57 : UInt8).toNat = 57 := rfl
      have bad : ¬(c < 48 ∨ c > 57) := by
        rintro (below | above)
        · exact absurd digit.1 (UInt8.not_le.mpr below)
        · exact absurd digit.2 (UInt8.not_le.mpr above)
      rw [if_neg bad]
      by_cases overflow : n > (maxInt - (c.toNat - 48)) / 10
      · rw [if_pos overflow]
        have grows := le_digitsValue (n * 10 + (c.toNat - 48)) rest
        constructor
        · intro failed
          cases failed
        · rintro ⟨_, value, bound⟩
          rw [digitsValue, List.foldl_cons, ← digitsValue] at value
          omega
      · have next : n * 10 + (c.toNat - 48) ≤ maxInt := by omega
        rw [if_neg overflow]
        refine (ih next).trans ?_
        simp [digit, digitsValue]
    · have bad : c < 48 ∨ c > 57 := by
        rcases not_and_or.mp digit with below | above
        · exact Or.inl (UInt8.not_le.mp below)
        · exact Or.inr (UInt8.not_le.mp above)
      rw [if_pos bad]
      simp [digit]

/-- The numbers that are read are exactly the numerals. -/
theorem parseFastInt_eq_ok {d : Bytes} {n : Nat} : parseFastInt d = .ok n ↔ Numeral d n := by
  rw [parseFastInt]
  by_cases empty : d = []
  · subst empty
    constructor
    · intro failed
      cases failed
    · intro numeral
      exact absurd rfl numeral.nonempty
  · have long : d.length ≠ 0 := fun zero => empty (List.length_eq_zero_iff.mp zero)
    rw [if_neg long, parseDigits_eq_ok (Nat.zero_le _)]
    exact ⟨fun h => ⟨empty, h.1, h.2.1, h.2.2⟩, fun h => ⟨h.digit, h.value, h.fits⟩⟩

/-! ## Outcomes -/

section Outcomes

variable {α β : Type}

omit [Platform] in
theorem bind_eq_ok {x : Outcome α} {f : α → Outcome β} {b : β} :
    x.bind f = ok b ↔ ∃ a, x = ok a ∧ f a = ok b := by
  cases x <;> simp [Outcome.bind]

omit [Platform] in
/-- A sequence panics only if one of its steps does. -/
theorem bind_ne_panic {x : Outcome α} {f : α → Outcome β} (first : x ≠ panic)
    (later : ∀ a, x = ok a → f a ≠ panic) : x.bind f ≠ panic := by
  cases x with
  | panic => exact absurd rfl first
  | refused => simp [Outcome.bind]
  | ok a => exact later a rfl

omit [Platform] in
theorem check_eq_ok {p : Prop} [Decidable p] {u : Unit} : check p = ok u ↔ p := by
  by_cases holds : p <;> simp [check, holds]

omit [Platform] in
theorem check_ne_panic {p : Prop} [Decidable p] : check p ≠ panic := by
  by_cases holds : p <;> simp [check, holds]

omit [Platform] in
theorem ofIndex_eq_ok {x : Option α} {a : α} : ofIndex x = ok a ↔ x = some a := by
  cases x <;> simp [ofIndex]

omit [Platform] in
/-- An index inside its slice does not panic. -/
theorem ofIndex_ne_panic {data : List α} {i : Nat} (bound : i < data.length) : ofIndex data[i]? ≠ panic := by
  simp [List.getElem?_eq_getElem bound, ofIndex]

omit [Platform] in
/-- A part is cut out exactly where its bounds are in order. -/
theorem slice_eq_ok {data : Bytes} {lo hi : Nat} {part : Bytes} :
    slice data lo hi = ok part ↔ lo ≤ hi ∧ hi ≤ data.length ∧ part = (data.take hi).drop lo := by
  rw [slice]
  by_cases bounds : lo ≤ hi ∧ hi ≤ data.length
  · simp [bounds, eq_comm]
  · rw [if_neg bounds]
    simp only [reduceCtorEq, false_iff]
    exact fun h => bounds ⟨h.1, h.2.1⟩

end Outcomes

/-! ## Headers -/

/-- The first newline after a header's tag and digits is the header's own. -/
theorem findIdx?_header {tag : UInt8} {d rest : Bytes} {n : Nat} (numeral : Numeral d n) (other : tag ≠ 10) :
    (header tag d ++ rest).findIdx? (· = 10) = some (d.length + 2) := by
  have digits : ∀ c ∈ d, c ≠ 10 := by
    rintro c member rfl
    exact absurd (numeral.digit _ member).1 (by decide)
  have none_before : (tag :: (d ++ [13])).findIdx? (· = (10 : UInt8)) = none := by
    rw [List.findIdx?_eq_none_iff]
    simp only [List.mem_cons, List.mem_append, List.not_mem_nil, or_false, decide_eq_false_iff_not]
    rintro c (rfl | member | rfl)
    · exact other
    · exact digits c member
    · decide
  have split : header tag d ++ rest = (tag :: (d ++ [13])) ++ 10 :: rest := by simp [header]
  rw [split, List.findIdx?_append, none_before]
  simp [List.findIdx?_cons]

omit [Platform] in
theorem drop_eq_cons {data : Bytes} {i : Nat} {c : UInt8} (here : data[i]? = some c) :
    data.drop i = c :: data.drop (i + 1) := by
  obtain ⟨bound, rfl⟩ := List.getElem?_eq_some_iff.mp here
  exact List.drop_eq_getElem_cons bound

omit [Platform] in
/-- Cutting a part out of a list and gluing it back. -/
theorem drop_eq_slice_append {data : Bytes} {lo hi : Nat} (order : lo ≤ hi) :
    data.drop lo = (data.take hi).drop lo ++ data.drop hi := by
  rw [List.drop_take, ← Nat.add_sub_of_le order, ← List.drop_drop, Nat.add_sub_cancel_left]
  exact (List.take_append_drop _ _).symm

/-- What is read as a header is one. -/
theorem header_of_parseHeader {tag : UInt8} {data : Bytes} {read n next : Nat}
    (parsed : parseHeader tag data read = ok (n, next)) :
    ∃ d rest, Numeral d n ∧ data.drop read = header tag d ++ rest ∧ next = read + (header tag d).length := by
  simp only [parseHeader, bind_eq_ok, check_eq_ok, ofIndex_eq_ok] at parsed
  obtain ⟨_, inside, first, at_read, _, rfl, parsed⟩ := parsed
  cases newline : (data.drop read).findIdx? (· = 10) with
  | none => simp [newline] at parsed
  | some idx =>
    simp only [newline, bind_eq_ok, check_eq_ok, ofIndex_eq_ok, slice_eq_ok, not_lt] at parsed
    obtain ⟨_, two, last, at_last, _, rfl, digits, ⟨order, bound, rfl⟩, parsed⟩ := parsed
    cases number : parseFastInt ((data.take (read + idx - 1)).drop (read + 1)) with
    | error err => simp [number] at parsed
    | ok m =>
      simp only [number, Outcome.ok.injEq, Prod.mk.injEq] at parsed
      obtain ⟨rfl, rfl⟩ := parsed
      obtain ⟨here, is_newline, _⟩ := List.findIdx?_eq_some_iff_getElem.mp newline
      have at_newline : data[read + idx]? = some 10 := by
        rw [← List.getElem?_drop, List.getElem?_eq_getElem here]
        simpa using is_newline
      have line : data.drop (read + idx - 1) = 13 :: 10 :: data.drop (read + idx + 1) := by
        rw [drop_eq_cons at_last, Nat.sub_add_cancel (by omega), drop_eq_cons at_newline]
      refine ⟨_, data.drop (read + idx + 1), parseFastInt_eq_ok.mp number, ?_, ?_⟩
      · rw [drop_eq_cons at_read, drop_eq_slice_append order, line]
        simp [header]
      · rw [length_header, List.length_drop, List.length_take_of_le bound]
        omega

/-- A header is read wherever it stands. -/
theorem parseHeader_of_header {tag : UInt8} (other : tag ≠ 10) {data d rest : Bytes} {read n : Nat}
    (numeral : Numeral d n) (here : data.drop read = header tag d ++ rest) :
    parseHeader tag data read = ok (n, read + (header tag d).length) := by
  have long := congrArg List.length here
  rw [List.length_drop, List.length_append, length_header] at long
  have at_ (j : Nat) : data[read + j]? = (header tag d ++ rest)[j]? := by rw [← here, List.getElem?_drop]
  have at_tag : data[read]? = some tag := at_ 0
  have at_last : data[read + (d.length + 2) - 1]? = some 13 := by
    have cr := at_ (d.length + 1)
    simpa [header] using cr
  have digits : (data.take (read + (d.length + 2) - 1)).drop (read + 1) = d := by
    rw [List.drop_take, ← List.drop_drop, here]
    have width : read + (d.length + 2) - 1 - (read + 1) = d.length := by omega
    rw [width]
    simp [header]
  simp only [parseHeader, bind_eq_ok, check_eq_ok, ofIndex_eq_ok]
  refine ⟨(), by omega, tag, at_tag, (), rfl, ?_⟩
  rw [here, findIdx?_header numeral other]
  simp only [bind_eq_ok, check_eq_ok, ofIndex_eq_ok, slice_eq_ok, not_lt]
  refine ⟨(), by omega, 13, at_last, (), rfl, d, ⟨by omega, by omega, digits.symm⟩, ?_⟩
  rw [parseFastInt_eq_ok.mpr numeral]
  simp [Nat.add_assoc]

/-- Every index that a header is read with was compared with the length before. -/
theorem parseHeader_ne_panic {tag : UInt8} {data : Bytes} {read : Nat} : parseHeader tag data read ≠ panic := by
  refine bind_ne_panic check_ne_panic fun _ inside => ?_
  have inside := check_eq_ok.mp inside
  refine bind_ne_panic (ofIndex_ne_panic inside) fun first at_read => bind_ne_panic check_ne_panic fun _ _ => ?_
  cases newline : (data.drop read).findIdx? (· = 10) with
  | none => simp
  | some idx =>
    obtain ⟨here, _, _⟩ := List.findIdx?_eq_some_iff_getElem.mp newline
    rw [List.length_drop] at here
    refine bind_ne_panic check_ne_panic fun _ two => ?_
    have two := check_eq_ok.mp two
    refine bind_ne_panic (ofIndex_ne_panic (by omega)) fun last _ => bind_ne_panic check_ne_panic fun _ _ => ?_
    refine bind_ne_panic ?_ fun digits _ => ?_
    · rw [slice, if_pos ⟨by omega, by omega⟩]
      simp
    · cases parseFastInt digits <;> simp

/-! ## Frames -/

/-- What is read as a bulk string is one. -/
theorem bulk_of_parseBulk {data : Bytes} {read next : Nat} {arg : Bytes}
    (parsed : parseBulk data read = ok (arg, next)) :
    ∃ (b : Bulk) (rest : Bytes), b.payload = arg ∧ data.drop read = b.encode ++ rest ∧
      next = read + b.encode.length := by
  simp only [parseBulk, bind_eq_ok, check_eq_ok, ofIndex_eq_ok, slice_eq_ok, Outcome.ok.injEq, Prod.mk.injEq]
    at parsed
  obtain ⟨⟨bulkLen, bulkStart⟩, read_header, _, room, cr, at_cr, _, rfl, lf, at_lf, _, rfl, payload,
    ⟨order, bound, cut⟩, rfl, rfl⟩ := parsed
  obtain ⟨d, rest, numeral, here, start⟩ := header_of_parseHeader read_header
  simp only at at_cr at_lf order bound cut start
  have body : rest = data.drop bulkStart := by
    rw [start, ← List.drop_drop, here, List.drop_left]
  have long : payload.length = bulkLen := by
    rw [cut, List.length_drop, List.length_take_of_le bound, Nat.add_sub_cancel_left]
  refine ⟨⟨d, payload, long.symm ▸ numeral⟩, data.drop (bulkStart + bulkLen + 2), rfl, ?_, ?_⟩
  · rw [here, body, drop_eq_slice_append order, ← cut, drop_eq_cons at_cr, drop_eq_cons at_lf]
    simp [Bulk.encode]
  · simp only [Bulk.encode, List.length_append, long, start, List.length_cons, List.length_nil]
    omega

/-- A bulk string is read wherever it stands. -/
theorem parseBulk_of_bulk {b : Bulk} {data rest : Bytes} {read : Nat} (here : data.drop read = b.encode ++ rest) :
    parseBulk data read = ok (b.payload, read + b.encode.length) := by
  obtain ⟨d, payload, numeral⟩ := b
  simp only [Bulk.encode, List.append_assoc] at here
  have read_header : parseHeader 36 data read = ok (payload.length, read + (header 36 d).length) :=
    parseHeader_of_header (by decide) numeral here
  generalize start : read + (header 36 d).length = bulkStart at read_header
  have body : data.drop bulkStart = payload ++ 13 :: 10 :: rest := by
    rw [← start, ← List.drop_drop, here, List.drop_left]
    rfl
  have long := congrArg List.length body
  rw [List.length_drop, List.length_append, List.length_cons, List.length_cons] at long
  have at_ (j : Nat) : data[bulkStart + j]? = (payload ++ 13 :: 10 :: rest)[j]? := by
    rw [← body, List.getElem?_drop]
  have cut : (data.take (bulkStart + payload.length)).drop bulkStart = payload := by
    rw [List.drop_take, body, Nat.add_sub_cancel_left, List.take_left]
  simp only [parseBulk, bind_eq_ok, check_eq_ok, ofIndex_eq_ok, slice_eq_ok, Outcome.ok.injEq, Prod.mk.injEq]
  refine ⟨(payload.length, bulkStart), read_header, (), by omega, 13, by simp [at_], (), rfl, 10,
    by simp [Nat.add_assoc, at_], (), rfl, payload, ⟨by omega, by omega, cut.symm⟩, rfl, ?_⟩
  simp only [Bulk.encode, List.length_append, List.length_cons, List.length_nil, ← start]
  omega

/-- The payload and its CRLF are indexed only where there is room for both. -/
theorem parseBulk_ne_panic {data : Bytes} {read : Nat} : parseBulk data read ≠ panic := by
  refine bind_ne_panic parseHeader_ne_panic fun header read_header => ?_
  refine bind_ne_panic check_ne_panic fun _ room => ?_
  have room := check_eq_ok.mp room
  refine bind_ne_panic (ofIndex_ne_panic (by omega)) fun cr _ => bind_ne_panic check_ne_panic fun _ _ => ?_
  refine bind_ne_panic (ofIndex_ne_panic (by omega)) fun lf _ => bind_ne_panic check_ne_panic fun _ _ => ?_
  refine bind_ne_panic ?_ fun arg _ => by simp
  rw [slice, if_pos ⟨by omega, by omega⟩]
  simp

/-- The loop reads as many bulk strings as the header has announced, and stops behind the last. -/
theorem parseBulks_eq_ok {data : Bytes} {left read next : Nat} {argBuf args : List Bytes} :
    parseBulks data left read argBuf = ok (args, next) ↔
      ∃ (bulks : List Bulk) (rest : Bytes), bulks.length = left ∧ args = argBuf ++ bulks.map Bulk.payload ∧
        data.drop read = encodeBulks bulks ++ rest ∧ next = read + (encodeBulks bulks).length := by
  induction left generalizing read argBuf with
  | zero =>
    simp only [parseBulks, Outcome.ok.injEq, Prod.mk.injEq, List.length_eq_zero_iff]
    constructor
    · rintro ⟨rfl, rfl⟩
      exact ⟨[], data.drop read, rfl, by simp, by simp, by simp⟩
    · rintro ⟨bulks, rest, rfl, rfl, _, rfl⟩
      exact ⟨by simp, by simp⟩
  | succ left ih =>
    simp only [parseBulks, bind_eq_ok, Prod.exists, ih]
    constructor
    · rintro ⟨arg, middle, read_bulk, bulks, rest, count, rfl, later, rfl⟩
      obtain ⟨b, tail, rfl, here, rfl⟩ := bulk_of_parseBulk read_bulk
      have tail_eq : tail = encodeBulks bulks ++ rest := by
        rw [← later, ← List.drop_drop, here, List.drop_left]
      refine ⟨b :: bulks, rest, by simp [count], by simp, by simp [here, tail_eq], ?_⟩
      rw [encodeBulks_cons, List.length_append, Nat.add_assoc]
    · rintro ⟨bulks, rest, count, rfl, here, rfl⟩
      obtain ⟨b, bulks, rfl⟩ := List.exists_cons_of_length_eq_add_one count
      rw [encodeBulks_cons, List.append_assoc] at here
      refine ⟨b.payload, read + b.encode.length, parseBulk_of_bulk here, bulks, rest,
        by simpa using count, by simp, ?_, ?_⟩
      · rw [← List.drop_drop, here, List.drop_left]
      · rw [encodeBulks_cons, List.length_append, Nat.add_assoc]

theorem parseBulks_ne_panic {data : Bytes} {left read : Nat} {argBuf : List Bytes} :
    parseBulks data left read argBuf ≠ panic := by
  induction left generalizing read argBuf with
  | zero => simp [parseBulks]
  | succ left ih => exact bind_ne_panic parseBulk_ne_panic fun bulk _ => ih

/-- **The grammar**: the parser accepts exactly what starts with a frame. -/
theorem parseRESPFrame_eq_ok {data : Bytes} {args : List Bytes} {read : Nat} :
    parseRESPFrame data = ok (args, read) ↔
      ∃ (f : Frame) (rest : Bytes), f.args = args ∧ data = f.encode ++ rest ∧ read = f.encode.length := by
  simp only [parseRESPFrame, bind_eq_ok, check_eq_ok, Prod.exists, parseBulks_eq_ok, not_lt]
  constructor
  · rintro ⟨numArgs, start, read_header, _, limit, bulks, rest, rfl, rfl, here, rfl⟩
    obtain ⟨d, body, numeral, whole, rfl⟩ := header_of_parseHeader read_header
    rw [List.drop_zero] at whole
    rw [Nat.zero_add, whole, List.drop_left] at here
    refine ⟨⟨d, bulks, numeral, limit⟩, rest, rfl, ?_, ?_⟩
    · rw [whole, here, Frame.encode, List.append_assoc]
    · rw [Frame.encode, List.length_append, Nat.zero_add]
  · rintro ⟨⟨d, bulks, numeral, limit⟩, rest, rfl, rfl, rfl⟩
    have whole : (Frame.encode ⟨d, bulks, numeral, limit⟩ ++ rest).drop 0 =
        header 42 d ++ (encodeBulks bulks ++ rest) := by
      simp [Frame.encode]
    refine ⟨bulks.length, 0 + (header 42 d).length, parseHeader_of_header (by decide) numeral whole, (), limit,
      bulks, rest, rfl, rfl, ?_, ?_⟩
    · rw [← List.drop_drop, whole, List.drop_left]
    · rw [Frame.encode, List.length_append, Nat.zero_add]

/-- **No input makes the parser panic.** -/
theorem parseRESPFrame_ne_panic {data : Bytes} : parseRESPFrame data ≠ panic :=
  bind_ne_panic parseHeader_ne_panic fun _ _ => bind_ne_panic check_ne_panic fun _ _ => parseBulks_ne_panic

end Grammar

end Oryx.Server
