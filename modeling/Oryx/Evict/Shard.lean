import Oryx.Engine.Operations

/-!
# One shard of the LRU

`core/evict/eviction.go`. A shard keeps its entries in the order in which they were
seen, most recent first, and is served by one goroutine that takes accesses, deletions,
its own eviction messages and ticks in whatever order they are ready. Channels are
queues with a capacity. Times are nanoseconds; random numbers are inputs. The list is
the order of the linked entries; the cache map finds an entry by its hash.
-/

namespace Oryx.Evict
set_option autoImplicit false
open Oryx.Core

structure Entry where
  expiry : Int
  key : Key
  hash : HashKey
  deriving DecidableEq, Repr

structure LruMsg where
  key : Key
  hash : HashKey
  deriving DecidableEq, Repr

structure EvictMsg where
  key : Key
  reason : Reason
  deriving DecidableEq, Repr

/-- Where the goroutine of a shard is. -/
inductive Loop where
  | running
  /-- sending to `evictCh`, which is full -/
  | blocked (msg : EvictMsg)
  | panicked
  | stopped
  deriving DecidableEq, Repr

structure LruShard where
  entries : List Entry
  ch : List LruMsg
  chCap : Nat
  delCh : List HashKey
  delCap : Nat
  evictCh : List EvictMsg
  evictCap : Nat
  capacity : UInt32
  ttl : Int
  cancelled : Bool
  loop : Loop
  deriving DecidableEq, Repr

/-- A shard of `NewLRU` whose goroutine has started. `time.NewTicker` panics on a
duration that is not positive. -/
def newShard (shardCap : UInt32) (ttl : Int) : LruShard where
  entries := []
  ch := []
  chCap := max (shardCap.toNat / 2) 8192
  delCh := []
  delCap := max (shardCap.toNat / 2) 8192
  evictCh := []
  evictCap := max (shardCap.toNat / 4) 4096
  capacity := shardCap
  ttl := ttl
  cancelled := false
  loop := if ttl > 0 ∧ ttl.tdiv 10 ≤ 0 then .panicked else .running

/-- `s.ttl + jitter`: durations are 64-bit integers, and their sum may overflow. -/
def lifetime (ttl jitter : Int) : Int := (ttl + jitter).bmod (2 ^ 64)

/-- Go's division truncates: a TTL below 10 has no tenth. -/
theorem tenth_pos_iff {ttl : Int} : 0 < ttl.tdiv 10 ↔ 10 ≤ ttl := by
  rcases Int.le_total 0 ttl with nonneg | nonpos
  · rw [Int.tdiv_eq_ediv_of_nonneg nonneg]
    omega
  · have mirrored : ttl.tdiv 10 = -((-ttl) / 10) := by
      rw [← Int.tdiv_eq_ediv_of_nonneg (Int.neg_nonneg_of_nonpos nonpos), Int.neg_tdiv, Int.neg_neg]
    omega

/-- The sampling mask for the fill level of a queue. -/
def samplingMask (qLen qCap : Nat) : UInt32 :=
  if qLen * 100 < qCap then 0
  else if qLen * 20 < qCap then 1
  else if qLen * 10 < qCap then 3
  else if qLen * 5 < qCap then 7
  else if qLen * 10 < qCap * 3 then 15
  else if qLen * 5 < qCap * 2 then 31
  else if qLen * 2 < qCap then 63
  else if qLen * 5 < qCap * 3 then 127
  else if qLen * 10 < qCap * 7 then 255
  else 511

def shouldSample (qLen qCap : Nat) (rand : UInt32) : Bool :=
  if qLen * 5 ≥ qCap * 4 then false
  else samplingMask qLen qCap = 0 || rand &&& samplingMask qLen qCap = 0

namespace LruShard

/-- `Publish`, with its two random numbers. -/
def publish (s : LruShard) (key : Key) (hash : HashKey) (coin rand : UInt32) : LruShard :=
  if coin &&& 1 ≠ 0 then s
  else if shouldSample s.ch.length s.chCap rand ∧ s.ch.length < s.chCap then { s with ch := s.ch ++ [⟨key, hash⟩] }
  else s

def publishDelete (s : LruShard) (hash : HashKey) : LruShard :=
  if s.delCh.length < s.delCap then { s with delCh := s.delCh ++ [hash] } else s

def stop (s : LruShard) : LruShard := { s with cancelled := true }

/-- A send to `evictCh` that waits for room. -/
def sendEvict (s : LruShard) (msg : EvictMsg) : LruShard :=
  if s.evictCh.length < s.evictCap then { s with evictCh := s.evictCh ++ [msg] } else { s with loop := .blocked msg }

def evictOldest (s : LruShard) : LruShard :=
  match s.entries.getLast? with
  | none => s
  | some e => { s with entries := s.entries.dropLast }.sendEvict ⟨e.key, .capacity⟩

/-- `seen`; `rand.Int64N` panics on a bound that is not positive. -/
def seen (s : LruShard) (key : Key) (hkey : HashKey) (now jitter : Int) : LruShard :=
  if s.ttl.tdiv 10 ≤ 0 then { s with loop := .panicked }
  else
    let expiry := now + lifetime s.ttl jitter
    match s.entries.find? fun e => e.hash = hkey with
    | some e => { s with entries := { e with expiry := expiry } :: s.entries.filter fun e => e.hash ≠ hkey }
    | none =>
      let s := if s.entries.length ≥ s.capacity.toNat then s.evictOldest else s
      match s.loop with
      | .running => { s with entries := ⟨expiry, key, hkey⟩ :: s.entries }
      | _ => s

/-- The loop of `evictExpired` over the entries from the tail on; a message that finds
no room is dropped. -/
def expireLoop (now : Int) (cap : Nat) : List Entry → List EvictMsg → List Entry × List EvictMsg
  | [], queue => ([], queue)
  | e :: rest, queue =>
    if e.expiry > now then (e :: rest, queue)
    else expireLoop now cap rest (if queue.length < cap then queue ++ [⟨e.key, .ttl⟩] else queue)

def evictExpired (s : LruShard) (now : Int) : LruShard :=
  let left := expireLoop now s.evictCap s.entries.reverse s.evictCh
  { s with entries := left.1.reverse, evictCh := left.2 }

def delete (s : LruShard) (hKey : HashKey) : LruShard :=
  { s with entries := s.entries.filter fun e => e.hash ≠ hKey }

end LruShard

/-- The cases of the `select` in `run`. -/
inductive Ready where
  | done
  | access (now jitter : Int)
  | deleted
  | evict
  | tick (now : Int)
  deriving DecidableEq, Repr

/-- One iteration of `run` that takes the given case, if it is ready: the shard after
it, and the message that is handed to the evict callback. -/
def LruShard.iterate (s : LruShard) (case : Ready) : LruShard × Option EvictMsg :=
  match s.loop, case with
  | .running, .done => (if s.cancelled then { s with loop := .stopped } else s, none)
  | .running, .access now jitter =>
    match s.ch with
    | [] => (s, none)
    | msg :: rest => ({ s with ch := rest }.seen msg.key msg.hash now jitter, none)
  | .running, .deleted =>
    match s.delCh with
    | [] => (s, none)
    | hKey :: rest => ({ s with delCh := rest }.delete hKey, none)
  | .running, .evict =>
    match s.evictCh with
    | [] => (s, none)
    | msg :: rest => ({ s with evictCh := rest }, some msg)
  | .running, .tick now => (if s.ttl > 0 then s.evictExpired now else s, none)
  | _, _ => (s, none)

end Oryx.Evict
