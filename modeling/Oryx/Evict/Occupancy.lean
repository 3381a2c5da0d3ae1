import Oryx.Evict.Lru
import Oryx.Library.Binary64

/-!
# Occupancy

`Occupancy` locks one shard after the other, so other calls get through between its reads; it
adds up lengths and capacities in 32 bits and divides them in floating point. A call that
waits for room in `evictCh` holds the lock of its shard, and `Occupancy` waits with it. Whatever
else happens in between, the sums do not wrap around and the ratio is that of the two totals,
to the nearest binary64 number.
-/

namespace Oryx.Evict
set_option autoImplicit false
open Oryx.Library

/-- What is read of a shard under its lock. -/
structure Reading where
  size : Nat
  capacity : UInt32
  deriving DecidableEq, Repr

/-- `totalSize` and `totalCap` after one more shard. -/
def addReading (total : UInt32 × UInt32) (r : Reading) : UInt32 × UInt32 :=
  (total.1 + UInt32.ofNat r.size, total.2 + r.capacity)

def occupancyRatio (rs : List Reading) : ℚ :=
  let total := rs.foldl addReading (0, 0)
  if total.2 = 0 then 0 else round64 (round64 total.1.toNat / round64 total.2.toNat)

namespace Watched

/-- The loop over the shards from `i` on, with the calls that get through before each lock. It
does not come to its end if it meets a lock that is held. -/
def readings (w : Watched) (i : Nat) : List (List (Nat × LinkedOp)) → Option (List Reading) × Watched
  | [] => (some [], w)
  | calls :: later =>
    let w := runFrom step w calls
    match w.lru.shards[i]? with
    | none => (some [], w)
    | some s =>
      if s.waiting.isSome then (none, w)
      else
        let rest := readings w (i + 1) later
        (rest.1.map (⟨s.cache.size, s.capacity⟩ :: ·), rest.2)

/-- `Occupancy` if it returns, and the shards after it. -/
def occupancy (w : Watched) (between : List (List (Nat × LinkedOp))) : Option ℚ × Watched :=
  let read := w.readings 0 between
  (read.1.map occupancyRatio, read.2)

end Watched

/-! ## The totals -/

/-- The entries that the readings have seen. -/
def exactSize (rs : List Reading) : Nat := (rs.map Reading.size).sum

/-- The room that the readings have seen. -/
def exactCap (rs : List Reading) : Nat := (rs.map fun r => r.capacity.toNat).sum

/-- The sums in 32 bits. -/
theorem foldl_addReading (rs : List Reading) (total : UInt32 × UInt32) :
    rs.foldl addReading total = (total.1 + UInt32.ofNat (exactSize rs), total.2 + UInt32.ofNat (exactCap rs)) := by
  induction rs generalizing total with
  | nil => simp [exactSize, exactCap]
  | cons r rs ih =>
    rw [List.foldl_cons, ih, addReading]
    simp only [exactSize, exactCap, List.map_cons, List.sum_cons, UInt32.ofNat_add, UInt32.ofNat_toNat, UInt32.add_assoc]

theorem exactSize_le_exactCap {rs : List Reading} (bounded : ∀ r ∈ rs, r.size ≤ r.capacity.toNat) : exactSize rs ≤ exactCap rs :=
  List.sum_le_sum bounded

/-- The ratio is that of the totals. -/
theorem occupancyRatio_eq {rs : List Reading} (bounded : ∀ r ∈ rs, r.size ≤ r.capacity.toNat)
    (some_room : 0 < exactCap rs) (narrow : exactCap rs < 2 ^ 32) :
    occupancyRatio rs = round64 ((exactSize rs : ℚ) / exactCap rs) := by
  have below := exactSize_le_exactCap bounded
  have sizes : (UInt32.ofNat (exactSize rs)).toNat = exactSize rs := UInt32.toNat_ofNat_of_lt' (Nat.lt_of_le_of_lt below narrow)
  have rooms : (UInt32.ofNat (exactCap rs)).toNat = exactCap rs := UInt32.toNat_ofNat_of_lt' narrow
  have some_cap : UInt32.ofNat (exactCap rs) ≠ 0 := by
    intro zero
    rw [zero] at rooms
    have none_left : exactCap rs = 0 := rooms.symm
    omega
  unfold occupancyRatio
  simp only [foldl_addReading, UInt32.zero_add]
  rw [if_neg some_cap, sizes, rooms, round64_natCast (by omega), round64_natCast (by omega)]

/-! ## The shards in between -/

namespace Watched

variable {config : LRUConfig} {shardCap : UInt32} {w : Watched}

/-- The shards are intact and have the capacities they were built with. -/
def Kept (n : Nat) (shardCap : UInt32) (w : Watched) : Prop :=
  (∃ ps, w.Inv ps) ∧ w.lru.shards.map LinkedShard.capacity = List.replicate n shardCap

theorem Kept.run {n : Nat} (kept : w.Kept n shardCap) (calls : List (Nat × LinkedOp)) :
    (runFrom step w calls).Kept n shardCap := by
  refine runFrom_invariant (I := fun _ => Kept n shardCap) kept (fun _ t call kept => ?_) calls
  obtain ⟨⟨ps, inv⟩, capacities⟩ := kept
  obtain ⟨next, same, -⟩ := inv.step call
  exact ⟨next, same.trans capacities⟩

theorem Kept.shard {n i : Nat} (kept : w.Kept n shardCap) (inside : i < n) :
    ∃ s, w.lru.shards[i]? = some s ∧ s.capacity = shardCap ∧ s.cache.size ≤ s.capacity.toNat := by
  obtain ⟨⟨ps, inv⟩, capacities⟩ := kept
  have count : w.lru.shards.length = n := by
    rw [← List.length_map (f := LinkedShard.capacity), capacities, List.length_replicate]
  have found := List.getElem?_eq_getElem (l := w.lru.shards) (i := i) (by omega)
  refine ⟨_, found, ?_, (inv i _ found).intact.2.bounded⟩
  have member : w.lru.shards[i].capacity ∈ w.lru.shards.map LinkedShard.capacity :=
    List.mem_map_of_mem (List.getElem_mem _)
  rw [capacities] at member
  exact (List.mem_replicate.mp member).2

/-- **The loop over the shards**: if it comes to its end, one reading of each, none over its capacity. -/
theorem Kept.readings {n : Nat} (kept : w.Kept n shardCap) (i : Nat) (between : List (List (Nat × LinkedOp)))
    (turns : i + between.length ≤ n) :
    (∀ rs ∈ (w.readings i between).1, rs.length = between.length ∧
      ∀ r ∈ rs, r.capacity = shardCap ∧ r.size ≤ r.capacity.toNat) ∧
    (w.readings i between).2.Kept n shardCap := by
  induction between generalizing w i with
  | nil => exact ⟨by simp [Watched.readings], kept⟩
  | cons calls later ih =>
    rw [List.length_cons] at turns
    have before := kept.run calls
    obtain ⟨s, found, capacity, bounded⟩ := before.shard (by omega : i < n)
    obtain ⟨readings, after⟩ := ih before (i + 1) (by omega)
    simp only [Watched.readings, found]
    split
    · exact ⟨by simp, before⟩
    · refine ⟨fun rs read => ?_, after⟩
      obtain ⟨rest, more, rfl⟩ := Option.mem_map.mp read
      obtain ⟨length, inOrder⟩ := readings rest more
      refine ⟨by rw [List.length_cons, List.length_cons, length], fun r listed => ?_⟩
      rcases List.mem_cons.mp listed with rfl | later
      · exact ⟨capacity, bounded⟩
      · exact inOrder r later

/-- What `NewLRU` has built. -/
theorem kept_start {lru : LeastRecentlyUsed} (accepted : newLRU config = .ok lru) :
    ∃ shardCap : UInt32, 0 < shardCap.toNat ∧ 0 < config.shards ∧ config.shards * shardCap.toNat ≤ config.capacity.toNat ∧
      (start lru).Kept config.shards shardCap := by
  unfold newLRU at accepted
  split at accepted
  · cases accepted
  · split at accepted
    · cases accepted
    · rename_i positive sharded
      cases accepted
      have sharded := Int.not_le.mp sharded
      obtain ⟨roomy, total⟩ := config.shardCap_spec positive sharded
      exact ⟨_, roomy, config.shards_pos positive sharded, total, ⟨_, inv_start roomy config.ttl⟩, List.map_replicate⟩

/-- **Occupancy of the shards**: with any calls before and during the loop, the ratio is the
quotient of the two exact totals to the nearest binary64 number, and the totals are in order. -/
theorem Kept.occupancy {n : Nat} (kept : w.Kept n shardCap) (some_shard : 0 < n) (roomy : 0 < shardCap.toNat)
    (narrow : n * shardCap.toNat < 2 ^ 32) {between : List (List (Nat × LinkedOp))} (turns : between.length = n)
    {rs : List Reading} (read : (w.readings 0 between).1 = some rs) :
    (w.occupancy between).1 = some (round64 ((exactSize rs : ℚ) / exactCap rs)) ∧ exactSize rs ≤ exactCap rs ∧
      0 < exactCap rs ∧ exactCap rs < 2 ^ 32 := by
  obtain ⟨length, readings⟩ := (kept.readings 0 between (by omega)).1 rs read
  have rooms : exactCap rs = n * shardCap.toNat := by
    have alike : rs.map (fun r => r.capacity.toNat) = List.replicate rs.length shardCap.toNat :=
      List.map_eq_replicate_iff.mpr fun r read => by rw [(readings r read).1]
    rw [exactCap, alike, List.sum_replicate, smul_eq_mul, length, turns]
  have bounded : ∀ r ∈ rs, r.size ≤ r.capacity.toNat := fun r read => (readings r read).2
  have some_room : 0 < exactCap rs := rooms ▸ Nat.mul_pos some_shard roomy
  have below : exactCap rs < 2 ^ 32 := rooms ▸ narrow
  refine ⟨?_, exactSize_le_exactCap bounded, some_room, below⟩
  rw [Watched.occupancy, read, Option.map_some, occupancyRatio_eq bounded some_room below]

end Watched
end Oryx.Evict
