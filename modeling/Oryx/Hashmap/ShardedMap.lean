import Mathlib.Logic.Function.Basic
import Mathlib.Tactic.Linarith
import Oryx.Kv

/-!
# The sharded map

`core/hashmap/shardedmap.go`: 128 shards of 64 sub-buckets, each a persistent
radix tree from keys to `valWrapper` cells, with rolling digests and counts. A
tree is an ordered finite map (`go-immutable-radix` iterates in key order). The
cells live in `wrappers`, addressed by allocation order: an update of a known key
swaps the pointer in its cell and leaves every tree as it is, so trees copied
earlier see the new value too.
-/

namespace Oryx.Hashmap
set_option autoImplicit false

abbrev ShardID := Int32

abbrev Digest := UInt64

def subBucketCount : Nat := 64

def shardCount : Nat := 128

/-- A persistent tree of cell addresses. -/
abbrev RadixTree := Std.TreeMap Key Nat

structure Shard where
  buckets : Fin subBucketCount → RadixTree
  readBuckets : Fin subBucketCount → Option RadixTree
  subDigests : Fin subBucketCount → Digest
  subCounts : Fin subBucketCount → UInt32
  shardDigest : Digest
  shardCount : UInt32

structure ShardedMap where
  shards : Fin shardCount → Shard
  wrappers : List Value

def newShardedMap : ShardedMap where
  shards _ :=
    { buckets := fun _ => ∅
      readBuckets := fun _ => some ∅
      subDigests := fun _ => 0
      subCounts := fun _ => 0
      shardDigest := 0
      shardCount := 0 }
  wrappers := []

/-- `hash % ShardCount`. -/
def shardIndex (hash : HashKey) : Fin shardCount :=
  ⟨(hash % 128).toNat, by simp only [shardCount, UInt64.toNat_mod]; exact Nat.mod_lt _ (by decide)⟩

/-- `(hash >> 16) % SubBucketCount`. -/
def subIndex (hash : HashKey) : Fin subBucketCount :=
  ⟨((hash >>> 16) % 64).toNat, by
    simp only [subBucketCount, UInt64.toNat_mod]; exact Nat.mod_lt _ (by decide)⟩

/-- `bits.RotateLeft64` for `0 < k < 64`. -/
def rotateLeft64 (x k : UInt64) : UInt64 := (x <<< k) ||| (x >>> (64 - k))

def getItemHash [Security] (hash : HashKey) (val : Value) : UInt64 :=
  let h := hash ^^^ rotateLeft64 val.timestamp.toUInt64 17
  let h := if val.nodeID ≠ [] then h ^^^ rotateLeft64 (hashFunc val.nodeID) 31 else h
  let h := if val.data.length > 0 then h ^^^ rotateLeft64 (hashBytes val.data) 47 else h
  if val.tombstone then h ^^^ 0x5555555555555555 else h

/-- The value with its `ItemHash` field computed. -/
def withItemHash [Security] (hash : HashKey) (val : Value) : Value :=
  { val with itemHash := getItemHash hash val }

/-- Folds an item count into a digest. -/
def mixCount (count : UInt32) : UInt64 :=
  let x := count.toUInt64 + 1
  let x := (x ^^^ (x >>> 30)) * 0xbf58476d1ce4e5b9
  let x := (x ^^^ (x >>> 27)) * 0x94d049bb133111eb
  x ^^^ (x >>> 31)

/-- Whether `incoming` replaces `existing`: the order of (Timestamp, NodeID, ItemHash). -/
def lwwWins (existing incoming : Value) : Bool :=
  if existing.timestamp ≠ incoming.timestamp then decide (existing.timestamp < incoming.timestamp)
  else if existing.nodeID ≠ incoming.nodeID then decide (existing.nodeID < incoming.nodeID)
  else decide (existing.itemHash < incoming.itemHash)

/-- XOR `h` into a sub-bucket's and the shard's rolling digest. -/
def Shard.xorDigest (s : Shard) (b : Fin subBucketCount) (h : Digest) : Shard :=
  { s with
    subDigests := Function.update s.subDigests b (s.subDigests b ^^^ h)
    shardDigest := s.shardDigest ^^^ h }

/-- Take the hash of a cell's old value out of the digests, unless the pointer is nil. -/
def Shard.forget (s : Shard) (b : Fin subBucketCount) (existing : Option Value) : Shard :=
  match existing with
  | some existing => s.xorDigest b existing.itemHash
  | none => s

/-- Publish a new root for sub-bucket `b`, to writers and to lock-free readers. -/
def Shard.setTree (s : Shard) (b : Fin subBucketCount) (tree : RadixTree) : Shard :=
  { s with
    buckets := Function.update s.buckets b tree
    readBuckets := Function.update s.readBuckets b (some tree) }

namespace ShardedMap

/-- The branch of `Store` and `StoreLWW` for a key the tree holds: exchange the
item hash in the digests and swap the pointer of the cell. -/
def swap (sm : ShardedMap) (i : Fin shardCount) (b : Fin subBucketCount) (wrapper : Nat) (val : Value) :
    ShardedMap :=
  let shard := (sm.shards i).forget b sm.wrappers[wrapper]?
  { shards := Function.update sm.shards i (shard.xorDigest b val.itemHash)
    wrappers := sm.wrappers.set wrapper val }

/-- The branch of `Store` and `StoreLWW` for a new key: a fresh cell, a new root. -/
def insert (sm : ShardedMap) (i : Fin shardCount) (b : Fin subBucketCount) (key : Key) (val : Value) :
    ShardedMap :=
  let shard := (sm.shards i).xorDigest b val.itemHash
  let shard := shard.setTree b ((shard.buckets b).insert key sm.wrappers.length)
  { shards := Function.update sm.shards i
      { shard with
        subCounts := Function.update shard.subCounts b (shard.subCounts b + 1)
        shardCount := shard.shardCount + 1 }
    wrappers := sm.wrappers ++ [val] }

variable [Security]

def store (sm : ShardedMap) (key : Key) (hash : HashKey) (val : Value) : ShardedMap :=
  let i := shardIndex hash
  let b := subIndex hash
  let val := withItemHash hash val
  match ((sm.shards i).buckets b)[key]? with
  | some wrapper => sm.swap i b wrapper val
  | none => sm.insert i b key val

/-- The new map and whether the value was stored; a stale value is ignored. -/
def storeLWW (sm : ShardedMap) (key : Key) (hash : HashKey) (val : Value) : ShardedMap × Bool :=
  let i := shardIndex hash
  let b := subIndex hash
  let val := withItemHash hash val
  match ((sm.shards i).buckets b)[key]? with
  | some wrapper =>
    match sm.wrappers[wrapper]? with
    | some existing =>
      if lwwWins existing val then (sm.swap i b wrapper val, true) else (sm, false)
    | none => (sm.swap i b wrapper val, true)
  | none => (sm.insert i b key val, true)

omit [Security]

def delete (sm : ShardedMap) (key : Key) (hash : HashKey) : ShardedMap :=
  let i := shardIndex hash
  let b := subIndex hash
  match ((sm.shards i).buckets b)[key]? with
  | some wrapper =>
    let shard := (sm.shards i).forget b sm.wrappers[wrapper]?
    let shard := shard.setTree b ((shard.buckets b).erase key)
    { sm with
      shards := Function.update sm.shards i
        { shard with
          subCounts := Function.update shard.subCounts b (shard.subCounts b - 1)
          shardCount := shard.shardCount - 1 } }
  | none => sm

/-- The record `Load` finds, before it blanks the item hash. -/
def loadCell (sm : ShardedMap) (key : Key) (hash : HashKey) : Option Value :=
  match (sm.shards (shardIndex hash)).readBuckets (subIndex hash) with
  | none => none
  | some tree => tree[key]?.bind fun wrapper => sm.wrappers[wrapper]?

def load (sm : ShardedMap) (key : Key) (hash : HashKey) : Option Value :=
  (sm.loadCell key hash).map Value.blank

def loadData (sm : ShardedMap) (key : Key) (hash : HashKey) : Option Bytes :=
  match sm.loadCell key hash with
  | none => none
  | some val => if val.tombstone then none else some val.data

/-- What `FillShardDigests` publishes for one shard. -/
def digestOf (sm : ShardedMap) (i : Fin shardCount) : Digest :=
  (sm.shards i).shardDigest ^^^ mixCount (sm.shards i).shardCount

/-- What `FillDigests` publishes for one sub-bucket. -/
def subDigestOf (sm : ShardedMap) (i : Fin shardCount) (b : Fin subBucketCount) : Digest :=
  (sm.shards i).subDigests b ^^^ mixCount ((sm.shards i).subCounts b)

/-- `ShardID(i)`. -/
def shardID (i : Fin shardCount) : ShardID := Int32.ofNat i

/-- Writes every shard's digest into the Go map `dst`. -/
def fillShardDigests (sm : ShardedMap) (dst : ShardID → Option Digest) : ShardID → Option Digest :=
  (List.finRange shardCount).foldl (fun dst i => Function.update dst (shardID i) (some (sm.digestOf i))) dst

def rootDigest (sm : ShardedMap) : Digest :=
  (List.finRange shardCount).foldl (fun root i => root ^^^ sm.digestOf i) 0

/-- One shard's slice of `FillDigests`: a missing or short slice is allocated, a
longer one keeps its tail. -/
def fillBuf (sm : ShardedMap) (i : Fin shardCount) (buf : List Digest) : List Digest :=
  let buf := if buf.length < subBucketCount then List.replicate subBucketCount 0 else buf
  (List.finRange subBucketCount).foldl (fun buf b => buf.set b.val (sm.subDigestOf i b)) buf

/-- Writes every shard's sub-bucket digests into the Go map `dst`; a nil map stays nil. -/
def fillDigests (sm : ShardedMap) (dst : Option (ShardID → Option (List Digest))) :
    Option (ShardID → Option (List Digest)) :=
  dst.map fun dst => (List.finRange shardCount).foldl
    (fun dst i => Function.update dst (shardID i) (some (sm.fillBuf i ((dst (shardID i)).getD [])))) dst

/-- The pairs an iterator over `tree` reports, each with its cell's current value. -/
def entriesOf (sm : ShardedMap) (tree : RadixTree) : List (Key × Value) :=
  tree.toList.filterMap fun p => (sm.wrappers[p.2]?).map fun val => (p.1, val)

/-- `Range` without a concurrent writer: the pairs its callback is given, in order. -/
def range (sm : ShardedMap) : List (Key × Value) :=
  (List.finRange shardCount).flatMap fun i =>
    (List.finRange subBucketCount).flatMap fun b => sm.entriesOf ((sm.shards i).buckets b)

/-- The pairs `RangeShard` reports; nothing for an id that is no shard. -/
def rangeShard (sm : ShardedMap) (id : ShardID) (mismatchMask : UInt64) : List (Key × Value) :=
  if id < 0 ∨ 128 ≤ id then []
  else match (List.finRange shardCount).find? fun i => shardID i = id with
    | none => []
    | some i => (List.finRange subBucketCount).flatMap fun b =>
        if mismatchMask &&& ((1 : UInt64) <<< UInt64.ofNat b.val) ≠ 0 then sm.entriesOf ((sm.shards i).buckets b)
        else []

end ShardedMap

end Oryx.Hashmap
