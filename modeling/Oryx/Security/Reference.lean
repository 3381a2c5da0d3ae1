import Mathlib.Algebra.Group.Nat.Defs
import Mathlib.Algebra.GroupWithZero.Nat
import Oryx.Kv

/-!
# The published hash functions

`security/utils.go` calls XXH64 with seed 0 and SHA-256. The development is
parametric in them (`Security`); this instance computes the published algorithms,
for evaluating the model on concrete keys.
-/

namespace Oryx.Reference
set_option autoImplicit false

/-! ## XXH64 -/

def prime1 : UInt64 := 11400714785074694791
def prime2 : UInt64 := 14029467366897019727
def prime3 : UInt64 := 1609587929392839161
def prime4 : UInt64 := 9650029242287828579
def prime5 : UInt64 := 2870177450012600261

def rotl (x k : UInt64) : UInt64 := (x <<< k) ||| (x >>> (64 - k))

/-- A little-endian word. -/
def littleEndian (b : Bytes) : UInt64 := b.foldr (fun x acc => (acc <<< 8) ||| x.toUInt64) 0

/-- One lane takes in one word. -/
def round (acc input : UInt64) : UInt64 := rotl (acc + input * prime2) 31 * prime1

/-- A lane is folded into the hash. -/
def mergeRound (acc val : UInt64) : UInt64 := (acc ^^^ round 0 val) * prime1 + prime4

/-- The final mixing. -/
def avalanche (h : UInt64) : UInt64 :=
  let h := (h ^^^ (h >>> 33)) * prime2
  let h := (h ^^^ (h >>> 29)) * prime3
  h ^^^ (h >>> 32)

/-- The four accumulators over the whole 32-byte stripes, and the bytes left. -/
def stripes : Nat → UInt64 → UInt64 → UInt64 → UInt64 → Bytes → UInt64 × Bytes
  | 0, v1, v2, v3, v4, b =>
    let h := rotl v1 1 + rotl v2 7 + rotl v3 12 + rotl v4 18
    (mergeRound (mergeRound (mergeRound (mergeRound h v1) v2) v3) v4, b)
  | n + 1, v1, v2, v3, v4, b =>
    stripes n (round v1 (littleEndian (b.take 8))) (round v2 (littleEndian ((b.drop 8).take 8)))
      (round v3 (littleEndian ((b.drop 16).take 8))) (round v4 (littleEndian ((b.drop 24).take 8))) (b.drop 32)

/-- The whole words behind the stripes, and the bytes left. -/
def words : Nat → UInt64 → Bytes → UInt64 × Bytes
  | 0, h, b => (h, b)
  | n + 1, h, b => words n (rotl (h ^^^ round 0 (littleEndian (b.take 8))) 27 * prime1 + prime4) (b.drop 8)

def xxh64 (b : Bytes) : UInt64 :=
  let (h, tail) :=
    if b.length ≥ 32 then stripes (b.length / 32) (prime1 + prime2) prime2 0 (0 - prime1) b else (prime5, b)
  let (h, tail) := words (tail.length / 8) (h + UInt64.ofNat b.length) tail
  let (h, tail) :=
    if tail.length ≥ 4 then
      (rotl (h ^^^ littleEndian (tail.take 4) * prime1) 23 * prime2 + prime3, tail.drop 4)
    else (h, tail)
  avalanche (tail.foldl (fun h x => rotl (h ^^^ x.toUInt64 * prime5) 11 * prime1) h)

example : xxh64 [97] = 0xd24ec4f1a98c6e5b := by decide

/-! ## SHA-256 -/

def roundConstants : List UInt32 :=
  [0x428a2f98, 0x71374491, 0xb5c0fbcf, 0xe9b5dba5, 0x3956c25b, 0x59f111f1, 0x923f82a4, 0xab1c5ed5,
   0xd807aa98, 0x12835b01, 0x243185be, 0x550c7dc3, 0x72be5d74, 0x80deb1fe, 0x9bdc06a7, 0xc19bf174,
   0xe49b69c1, 0xefbe4786, 0x0fc19dc6, 0x240ca1cc, 0x2de92c6f, 0x4a7484aa, 0x5cb0a9dc, 0x76f988da,
   0x983e5152, 0xa831c66d, 0xb00327c8, 0xbf597fc7, 0xc6e00bf3, 0xd5a79147, 0x06ca6351, 0x14292967,
   0x27b70a85, 0x2e1b2138, 0x4d2c6dfc, 0x53380d13, 0x650a7354, 0x766a0abb, 0x81c2c92e, 0x92722c85,
   0xa2bfe8a1, 0xa81a664b, 0xc24b8b70, 0xc76c51a3, 0xd192e819, 0xd6990624, 0xf40e3585, 0x106aa070,
   0x19a4c116, 0x1e376c08, 0x2748774c, 0x34b0bcb5, 0x391c0cb3, 0x4ed8aa4a, 0x5b9cca4f, 0x682e6ff3,
   0x748f82ee, 0x78a5636f, 0x84c87814, 0x8cc70208, 0x90befffa, 0xa4506ceb, 0xbef9a3f7, 0xc67178f2]

def rotr (x k : UInt32) : UInt32 := (x >>> k) ||| (x <<< (32 - k))

/-- The eight working variables. -/
structure Work where
  a : UInt32
  b : UInt32
  c : UInt32
  d : UInt32
  e : UInt32
  f : UInt32
  g : UInt32
  h : UInt32

/-- The initial hash value. -/
def Work.initial : Work where
  a := 0x6a09e667
  b := 0xbb67ae85
  c := 0x3c6ef372
  d := 0xa54ff53a
  e := 0x510e527f
  f := 0x9b05688c
  g := 0x1f83d9ab
  h := 0x5be0cd19

def Work.add (x y : Work) : Work :=
  ⟨x.a + y.a, x.b + y.b, x.c + y.c, x.d + y.d, x.e + y.e, x.f + y.f, x.g + y.g, x.h + y.h⟩

/-- One round with its constant and its schedule word. -/
def Work.round (x : Work) (k w : UInt32) : Work :=
  let s1 := rotr x.e 6 ^^^ rotr x.e 11 ^^^ rotr x.e 25
  let ch := (x.e &&& x.f) ^^^ (~~~x.e &&& x.g)
  let temp1 := x.h + s1 + ch + k + w
  let s0 := rotr x.a 2 ^^^ rotr x.a 13 ^^^ rotr x.a 22
  let maj := (x.a &&& x.b) ^^^ (x.a &&& x.c) ^^^ (x.b &&& x.c)
  ⟨temp1 + (s0 + maj), x.a, x.b, x.c, x.d + temp1, x.e, x.f, x.g⟩

/-- The next schedule word from the last sixteen. -/
def extend (w : List UInt32) : UInt32 :=
  let w1 := w.getD 1 0
  let w14 := w.getD 14 0
  let s0 := rotr w1 7 ^^^ rotr w1 18 ^^^ (w1 >>> 3)
  let s1 := rotr w14 17 ^^^ rotr w14 19 ^^^ (w14 >>> 10)
  w.getD 0 0 + s0 + w.getD 9 0 + s1

/-- The rounds of one block, over a window of sixteen schedule words. -/
def rounds : List UInt32 → List UInt32 → Work → Work
  | [], _, x => x
  | k :: ks, w, x => rounds ks (w.tail ++ [extend w]) (x.round k (w.headD 0))

def bigEndian32 (b : Bytes) : UInt32 := b.foldl (fun acc x => (acc <<< 8) ||| x.toUInt32) 0

/-- The first sixteen schedule words. -/
def blockWords (block : Bytes) : List UInt32 :=
  (List.range 16).map fun i => bigEndian32 ((block.drop (4 * i)).take 4)

/-- The compression of the blocks one after the other. -/
def blocks : Nat → Bytes → Work → Work
  | 0, _, x => x
  | n + 1, b, x => blocks n (b.drop 64) (x.add (rounds roundConstants (blockWords (b.take 64)) x))

/-- A one bit, zeros up to the last eight bytes of a block, and the length in bits. -/
def pad (b : Bytes) : Bytes :=
  b ++ [0x80] ++ List.replicate ((119 - b.length % 64) % 64) 0 ++
    (List.range 8).map fun i => UInt8.ofNat (b.length * 8 / 256 ^ (7 - i))

/-- The first eight bytes of SHA-256, big-endian. -/
def sha256Head (b : Bytes) : UInt64 :=
  let x := blocks ((pad b).length / 64) (pad b) Work.initial
  (x.a.toUInt64 <<< 32) ||| x.b.toUInt64

scoped instance security : Security where
  hashFunc := xxh64
  hashBytes := xxh64
  hashFuncSecure := sha256Head

/-! The segment counts and goroutine counts of the concrete runs. -/

scoped instance neZeroOne : NeZero 1 := ⟨Nat.succ_ne_zero 0⟩

scoped instance neZeroTwo : NeZero 2 := ⟨Nat.succ_ne_zero 1⟩

scoped instance neZeroThree : NeZero 3 := ⟨Nat.succ_ne_zero 2⟩

end Oryx.Reference
