import Mathlib.Data.List.Lex
import Mathlib.Data.Prod.Lex
import Mathlib.Order.Std

/-!
# Keys, records and requests

`kv/types.go`, the request messages of `api/oryx.proto` and the hash functions of
`security/utils.go`. Go strings and byte slices are lists of bytes; a nil and an
empty slice are the same list, since no modelled function tells them apart. The
three hash functions come from third-party packages and are parameters of the
model, collected in the class `Security`.
-/

namespace Oryx
set_option autoImplicit false

abbrev Bytes := List UInt8

abbrev Key := Bytes

/-- The bytes of an ASCII text. -/
def ascii (text : String) : Bytes := text.toList.map fun c => UInt8.ofNat c.toNat

/-- A number in decimal, as `strconv` and `fmt` print it. -/
def decimal (n : Nat) : Bytes := (Nat.toDigits 10 n).map fun c => UInt8.ofNat c.toNat

abbrev HashKey := UInt64

abbrev NodeID := Bytes

/-- The text of a Go error, the bytes of a Go string. -/
abbrev Error := Bytes

/-- A record of the database with its last-write-wins metadata. -/
structure Value where
  nodeID : Bytes
  data : Bytes
  timestamp : Int64
  tombstone : Bool
  itemHash : UInt64
  deriving DecidableEq, Repr

/-- `Load` and the snapshot do not carry the internal item hash. -/
def Value.blank (v : Value) : Value := { v with itemHash := 0 }

theorem Value.blank_inj {v w : Value} (same : v.blank = w.blank) (hash : v.itemHash = w.itemHash) :
    v = w := by
  cases v
  cases w
  simp only [Value.blank, Value.mk.injEq] at same
  simp only at hash
  simp [same, hash]

structure SetRequest where
  key : Key
  value : Bytes
  timestamp : Int64
  nodeId : Bytes
  deriving DecidableEq, Repr

structure DeleteRequest where
  key : Key
  timestamp : Int64
  nodeId : Bytes
  deriving DecidableEq, Repr

/-- The oneof of `WalEntry`, and the requests a `StateWriter` applies. -/
inductive Request where
  | set (req : SetRequest)
  | delete (req : DeleteRequest)
  deriving DecidableEq, Repr

def Request.key : Request → Key
  | .set req => req.key
  | .delete req => req.key

/-- The `kv.Value` that `ApplySet` and `ApplyDelete` build from a request. -/
def Request.toValue : Request → Value
  | .set req => { data := req.value, timestamp := req.timestamp, nodeID := req.nodeId, tombstone := false, itemHash := 0 }
  | .delete req => { data := [], timestamp := req.timestamp, nodeID := req.nodeId, tombstone := true, itemHash := 0 }

def Request.timestamp : Request → Int64
  | .set req => req.timestamp
  | .delete req => req.timestamp

theorem Request.toValue_timestamp (r : Request) : r.toValue.timestamp = r.timestamp := by
  cases r <;> rfl

/-- The hash functions of `security/utils.go`: `hashFunc` and `hashBytes` are
xxhash of a string and of a byte slice, `hashFuncSecure` is the first eight bytes
of SHA-256. -/
class Security where
  hashFunc : Bytes → HashKey
  hashBytes : Bytes → UInt64
  hashFuncSecure : Bytes → UInt64

export Security (hashFunc hashBytes hashFuncSecure)

/-! ## Orders of the machine types

Go compares `int64` as signed and strings bytewise; both are core's `<`. -/

instance lawfulBEqBytes : LawfulBEq Bytes := inferInstance

instance linearOrderUInt8 : LinearOrder UInt8 where
  le_refl := Std.le_refl
  le_trans _ _ _ := Std.le_trans
  le_antisymm _ _ := Std.le_antisymm
  le_total _ _ := Std.le_total
  lt_iff_le_not_ge _ _ := Std.lt_iff_le_and_not_ge
  toDecidableLE := inferInstance

instance linearOrderUInt64 : LinearOrder UInt64 where
  le_refl := Std.le_refl
  le_trans _ _ _ := Std.le_trans
  le_antisymm _ _ := Std.le_antisymm
  le_total _ _ := Std.le_total
  lt_iff_le_not_ge _ _ := Std.lt_iff_le_and_not_ge
  toDecidableLE := inferInstance

instance linearOrderInt64 : LinearOrder Int64 where
  le_refl := Std.le_refl
  le_trans _ _ _ := Std.le_trans
  le_antisymm _ _ := Std.le_antisymm
  le_total _ _ := Std.le_total
  lt_iff_le_not_ge _ _ := Std.lt_iff_le_and_not_ge
  toDecidableLE := inferInstance

end Oryx
