import Oryx.Wal.Replay

/-!
# The wire format of log entries

The protobuf encoding of `WalEntry` (`api/oryx.proto`) as the Go runtime writes and reads
it, for evaluating the model on concrete requests. Fields are written in number order with
default values left out, and the oneof is always sent. A reader merges the fields in the
order they come: the last value of a field counts, a message that comes again is merged
into the first, a field that is unknown or has another wire type is skipped. Strings that
are not UTF-8 are refused both ways. The development is parametric in the codec (`Proto`);
the runtime's bound on the nesting of unknown groups is left out.
-/

namespace Oryx.Protobuf
set_option autoImplicit false

/-! ## Writing -/

/-- Base-128 digits, least significant first. -/
def varint : Nat → Nat → Bytes
  | 0, _ => []
  | fuel + 1, n => if n < 128 then [UInt8.ofNat n] else UInt8.ofNat (n % 128 + 128) :: varint fuel (n / 128)

/-- A length-delimited field. -/
def delimited (num : Nat) (body : Bytes) : Bytes := varint 10 (num * 8 + 2) ++ varint 10 body.length ++ body

def bytesField (num : Nat) (b : Bytes) : Bytes := if b = [] then [] else delimited num b

def int64Field (num : Nat) (x : Int64) : Bytes :=
  if x = 0 then [] else varint 10 (num * 8) ++ varint 10 x.toUInt64.toNat

/-- The check of a `string` field. -/
def utf8 (s : Bytes) : Except Error Bytes :=
  if s.toByteArray.validateUTF8 then .ok s else .error (ascii "string field contains invalid UTF-8")

def stringField (num : Nat) (s : Bytes) : Except Error Bytes := (utf8 s).map (bytesField num)

def encodeSet (req : SetRequest) : Except Error Bytes := do
  let key ← stringField 1 req.key
  let nodeId ← stringField 4 req.nodeId
  return key ++ bytesField 2 req.value ++ int64Field 3 req.timestamp ++ nodeId

def encodeDelete (req : DeleteRequest) : Except Error Bytes := do
  let key ← stringField 1 req.key
  let nodeId ← stringField 3 req.nodeId
  return key ++ int64Field 2 req.timestamp ++ nodeId

def encodeEntry : Request → Except Error Bytes
  | .set req => (encodeSet req).map (delimited 1)
  | .delete req => (encodeDelete req).map (delimited 2)

/-! ## Reading -/

/-- The next varint and what follows it; a tenth byte has one bit left to fill. -/
def readVarint : Nat → Bytes → Option (Nat × Bytes)
  | 0, _ => none
  | _, [] => none
  | fuel + 1, b :: rest =>
    if b < 128 then if fuel = 0 ∧ 2 ≤ b then none else some (b.toNat, rest)
    else (readVarint fuel rest).map fun p => (b.toNat - 128 + 128 * p.1, p.2)

/-- A field's value, by wire type. -/
inductive Wire where
  | varint (n : Nat)
  | bytes (b : Bytes)
  /-- a fixed-width number or a group, which none of the messages has -/
  | foreign

/-- A value that is not a group, and what follows it. -/
def readValue (wireType : Nat) (b : Bytes) : Option (Wire × Bytes) :=
  match wireType with
  | 0 => (readVarint 10 b).map fun (n, b) => (.varint n, b)
  | 1 => if b.length < 8 then none else some (.foreign, b.drop 8)
  | 2 => (readVarint 10 b).bind fun (n, b) => if b.length < n then none else some (.bytes (b.take n), b.drop n)
  | 5 => if b.length < 4 then none else some (.foreign, b.drop 4)
  | _ => none

/-- What follows the groups that are open, the innermost first. -/
def skipGroups : Nat → List Nat → Bytes → Option Bytes
  | _, [], b => some b
  | 0, _ :: _, _ => none
  | fuel + 1, num :: outer, b =>
    (readVarint 10 b).bind fun (tag, b) =>
      if tag / 8 = 0 ∨ 2 ^ 31 ≤ tag / 8 then none
      else if tag % 8 = 3 then skipGroups fuel (tag / 8 :: num :: outer) b
      else if tag % 8 = 4 then if tag / 8 = num then skipGroups fuel outer b else none
      else (readValue (tag % 8) b).bind fun p => skipGroups fuel (num :: outer) p.2

/-- The next field, its number and its value, and what follows it. -/
def readField (b : Bytes) : Option ((Nat × Wire) × Bytes) :=
  (readVarint 10 b).bind fun (tag, b) =>
    if tag / 8 = 0 ∨ 2 ^ 29 ≤ tag / 8 then none
    else if tag % 8 = 3 then (skipGroups b.length [tag / 8] b).map fun b => ((tag / 8, .foreign), b)
    else (readValue (tag % 8) b).map fun p => ((tag / 8, p.1), p.2)

/-- The fields of a message in the order they come, each merged into what was read before. -/
def readMessage {α : Type} (merge : α → Nat × Wire → Except Error α) : Nat → α → Bytes → Except Error α
  | _, message, [] => .ok message
  | 0, _, _ :: _ => .error (ascii "proto: cannot parse invalid wire-format data")
  | fuel + 1, message, byte :: rest =>
    match readField (byte :: rest) with
    | none => .error (ascii "proto: cannot parse invalid wire-format data")
    | some (field, b) => (merge message field).bind fun merged => readMessage merge fuel merged b

def int64OfVarint (n : Nat) : Int64 := (UInt64.ofNat n).toInt64

def setField (req : SetRequest) : Nat × Wire → Except Error SetRequest
  | (1, .bytes b) => (utf8 b).map fun key => { req with key }
  | (2, .bytes b) => .ok { req with value := b }
  | (3, .varint n) => .ok { req with timestamp := int64OfVarint n }
  | (4, .bytes b) => (utf8 b).map fun nodeId => { req with nodeId }
  | _ => .ok req

def deleteField (req : DeleteRequest) : Nat × Wire → Except Error DeleteRequest
  | (1, .bytes b) => (utf8 b).map fun key => { req with key }
  | (2, .varint n) => .ok { req with timestamp := int64OfVarint n }
  | (3, .bytes b) => (utf8 b).map fun nodeId => { req with nodeId }
  | _ => .ok req

/-- What the oneof holds so far, as a set and as a delete. -/
def setSoFar : Option Request → SetRequest
  | some (.set req) => req
  | _ => ⟨[], [], 0, []⟩

@[inherit_doc setSoFar]
def deleteSoFar : Option Request → DeleteRequest
  | some (.delete req) => req
  | _ => ⟨[], 0, []⟩

def entryField (entry : Option Request) : Nat × Wire → Except Error (Option Request)
  | (1, .bytes b) => (readMessage setField b.length (setSoFar entry) b).map fun req => some (.set req)
  | (2, .bytes b) => (readMessage deleteField b.length (deleteSoFar entry) b).map fun req => some (.delete req)
  | _ => .ok entry

def decodeEntry (b : Bytes) : Except Error (Option Request) := readMessage entryField b.length none b

scoped instance proto : Proto where
  marshal := encodeEntry
  unmarshal := decodeEntry

-- an unknown fixed32 field is skipped, a field with number zero and a string that is not UTF-8 are refused
example : decodeEntry [10, 3, 10, 1, 107, 29, 0, 0, 0, 0] = .ok (some (.set ⟨[107], [], 0, []⟩)) := by rfl
example : (decodeEntry [2, 0]).isOk = false ∧ (encodeEntry (.delete ⟨[255], 1, []⟩)).isOk = false := by
  decide +kernel

end Oryx.Protobuf
