import Oryx.Evict.Blocking
import Oryx.Evict.Lru

/-!
# Time-to-live values that panic

`NewLRU` checks the capacity and the number of shards, not the TTL. The goroutine of a shard
gives a tenth of it to `time.NewTicker`, if the TTL is positive, and to `rand.Int64N` on
every access; both panic on a number that is not positive. The machine here is the whole LRU after
`Start`: the goroutines of all shards, with events that reach them through `Publish` and
`PublishDelete`.
-/

namespace Oryx.Evict
set_option autoImplicit false
open Oryx.Library

/-- What happens to a started LRU; an iteration is that of one shard's goroutine. -/
inductive LruEvent where
  | publish (key : Key) (hash : HashKey) (coin rand : UInt32)
  | publishDelete (hash : HashKey)
  | stop
  | iterate (shard : Nat) (case : Ready)

/-- `Start`: every shard of `NewLRU` gets its goroutine. -/
def LeastRecentlyUsed.start (lru : LeastRecentlyUsed) : List LruShard :=
  lru.shards.map fun s => newShard s.capacity s.ttl

/-- The index of `getShardByHash`. -/
def shardByHash (shards : List LruShard) (hash : HashKey) : Nat := hash.toNat % shards.length

def stepShards (shards : List LruShard) : LruEvent → List LruShard
  | .publish key hash coin rand =>
    shards.modify (shardByHash shards hash) fun s => s.step (.publish key hash coin rand)
  | .publishDelete hash => shards.modify (shardByHash shards hash) fun s => s.step (.publishDelete hash)
  | .stop => shards.map fun s => s.step .stop
  | .iterate i case => shards.modify i fun s => s.step (.iterate case)

namespace LruShard

variable {s : LruShard}

/-- A tenth of the TTL is positive, and the goroutine has not panicked. -/
structure Sane (s : LruShard) : Prop where
  tenth : 0 < s.ttl.tdiv 10
  runs : s.loop ≠ .panicked

/-- The TTL never changes. -/
theorem Sane.keep (sane : s.Sane) {s' : LruShard} (ttl : s'.ttl = s.ttl) (runs : s'.loop ≠ .panicked) : s'.Sane :=
  ⟨ttl ▸ sane.tenth, runs⟩

theorem Sane.sendEvict (sane : s.Sane) (msg : EvictMsg) : (s.sendEvict msg).Sane := by
  unfold LruShard.sendEvict
  split
  · exact sane.keep rfl sane.runs
  · exact sane.keep rfl (by simp)

theorem Sane.evictOldest (sane : s.Sane) : s.evictOldest.Sane := by
  unfold LruShard.evictOldest
  split
  · exact sane
  · refine Sane.sendEvict (s := { s with entries := s.entries.dropLast }) ?_ _
    exact sane.keep rfl sane.runs

theorem Sane.seen (sane : s.Sane) (key : Key) (hkey : HashKey) (now jitter : Int) :
    (s.seen key hkey now jitter).Sane := by
  have evicted : (if s.entries.length ≥ s.capacity.toNat then s.evictOldest else s).Sane := by
    split
    · exact sane.evictOldest
    · exact sane
  unfold LruShard.seen
  rw [if_neg (Int.not_le.mpr sane.tenth)]
  split
  · exact sane.keep rfl sane.runs
  · simp only
    split
    · exact evicted.keep rfl evicted.runs
    · exact evicted

/-- No case of the `select` panics. -/
theorem Sane.iterate (sane : s.Sane) (case : Ready) : (s.iterate case).1.Sane := by
  by_cases running : s.loop = .running
  · cases case with
    | done =>
      simp only [LruShard.iterate, running]
      split
      · exact sane.keep rfl (by simp)
      · exact sane
    | access now jitter =>
      simp only [LruShard.iterate, running]
      split
      · exact sane
      · rename_i msg rest _
        refine Sane.seen (s := { s with ch := rest, loop := .running }) ?_ _ _ _ _
        exact sane.keep rfl (by simp)
    | deleted =>
      simp only [LruShard.iterate, running]
      split
      · exact sane
      · exact sane.keep rfl (by simp [LruShard.delete])
    | evict =>
      simp only [LruShard.iterate, running]
      split
      · exact sane
      · exact sane.keep rfl (by simp)
    | tick now =>
      simp only [LruShard.iterate, running]
      split
      · exact sane.keep rfl sane.runs
      · exact sane
  · rw [iterate_of_not_running running]
    exact sane

theorem ttl_publish (key : Key) (hash : HashKey) (coin rand : UInt32) :
    (s.publish key hash coin rand).ttl = s.ttl := by
  unfold publish
  split
  · rfl
  · split <;> rfl

theorem ttl_publishDelete (hash : HashKey) : (s.publishDelete hash).ttl = s.ttl := by
  unfold publishDelete
  split <;> rfl

theorem Sane.step (sane : s.Sane) (a : ShardAction) : (s.step a).Sane := by
  cases a with
  | publish key hash coin rand => exact sane.keep (ttl_publish ..) ((loop_publish ..).trans_ne sane.runs)
  | publishDelete hash => exact sane.keep (ttl_publishDelete _) ((loop_publishDelete _).trans_ne sane.runs)
  | stop => exact sane.keep rfl sane.runs
  | iterate case => exact sane.iterate case

theorem sane_newShard (shardCap : UInt32) {ttl : Int} (tenth : 0 < ttl.tdiv 10) : (newShard shardCap ttl).Sane := by
  refine ⟨tenth, ?_⟩
  simp only [newShard]
  rw [if_neg fun short => absurd short.2 (Int.not_le.mpr tenth)]
  simp

/-- A shard without expiry panics on the first access. -/
theorem panics_of_access {shardCap : UInt32} {ttl : Int} (disabled : ttl ≤ 0) (key : Key) (hash : HashKey)
    (now jitter : Int) :
    (((newShard shardCap ttl).step (.publish key hash 0 0)).step (.iterate (.access now jitter))).loop = .panicked := by
  have sampling : 0 < (newShard shardCap ttl).chCap := by simp [newShard]
  have running : (newShard shardCap ttl).loop = .running := if_neg fun short => absurd short.1 (Int.not_lt.mpr disabled)
  have tenth : (newShard shardCap ttl).ttl.tdiv 10 ≤ 0 := by
    rw [← Int.not_lt, tenth_pos_iff]
    change ¬10 ≤ ttl
    omega
  simp only [step, publish_idle rfl sampling, iterate, running, seen, tenth, if_true]

end LruShard

/-- An event takes every shard a step or leaves it as it is. -/
theorem mem_stepShards {shards : List LruShard} {event : LruEvent} {s : LruShard}
    (member : s ∈ stepShards shards event) : ∃ t ∈ shards, s = t ∨ ∃ a, s = t.step a := by
  have modified {i : Nat} {a : ShardAction} (member : s ∈ shards.modify i fun s => s.step a) :
      ∃ t ∈ shards, s = t ∨ ∃ a, s = t.step a := by
    obtain ⟨j, bound, rfl⟩ := List.mem_iff_getElem.mp member
    rw [List.getElem_modify]
    split
    · exact ⟨_, List.getElem_mem _, Or.inr ⟨a, rfl⟩⟩
    · exact ⟨_, List.getElem_mem _, Or.inl rfl⟩
  cases event with
  | publish key hash coin rand => exact modified member
  | publishDelete hash => exact modified member
  | stop =>
    obtain ⟨t, listed, rfl⟩ := List.mem_map.mp member
    exact ⟨t, listed, Or.inr ⟨_, rfl⟩⟩
  | iterate i case => exact modified member

theorem sane_stepShards {shards : List LruShard} (sane : ∀ s ∈ shards, s.Sane) (event : LruEvent) :
    ∀ s ∈ stepShards shards event, s.Sane := by
  intro s member
  obtain ⟨t, listed, rfl | ⟨a, rfl⟩⟩ := mem_stepShards member
  · exact sane s listed
  · exact (sane t listed).step a

theorem start_newLRU {config : LRUConfig} {lru : LeastRecentlyUsed} (accepted : newLRU config = .ok lru) :
    ∃ shardCap more, lru.start = List.replicate (more + 1) (newShard shardCap config.ttl) := by
  obtain ⟨shardCap, more, -, rfl⟩ := eq_of_newLRU accepted
  exact ⟨shardCap, more, by simp [LeastRecentlyUsed.start, newLinkedShard]⟩

/-- **No panic**: for every configuration that `NewLRU` accepts, no goroutine panics, when it starts
or in any sequence of events, exactly when the TTL is 10 nanoseconds or more. -/
theorem never_panics_iff (config : LRUConfig) (lru : LeastRecentlyUsed) (accepted : newLRU config = .ok lru) :
    (∀ events, ∀ s ∈ runFrom stepShards lru.start events, s.loop ≠ .panicked) ↔ 10 ≤ config.ttl := by
  obtain ⟨shardCap, more, started⟩ := start_newLRU accepted
  rw [started]
  constructor
  · intro never
    rw [List.replicate_succ] at never
    by_contra short
    by_cases disabled : config.ttl ≤ 0
    · -- no ticker is made; the first access to be handled panics
      have first := never [.publish [] 0 0 0, .iterate 0 (.access 0 0)]
        (((newShard shardCap config.ttl).step (.publish [] 0 0 0)).step (.iterate (.access 0 0)))
        (by simp [runFrom, stepShards, shardByHash])
      exact first (LruShard.panics_of_access disabled [] 0 0 0)
    · have start := never [] (newShard shardCap config.ttl) List.mem_cons_self
      refine start (if_pos ⟨Int.not_le.mp disabled, ?_⟩)
      rwa [← Int.not_lt, tenth_pos_iff]
  · intro long events
    have starts : ∀ s ∈ List.replicate (more + 1) (newShard shardCap config.ttl), s.Sane := by
      intro s member
      rw [List.eq_of_mem_replicate member]
      exact LruShard.sane_newShard shardCap (tenth_pos_iff.mpr long)
    have sane := runFrom_invariant (I := fun _ shards => ∀ s ∈ shards, LruShard.Sane s) starts
      (fun _ _ event sane => sane_stepShards sane event) events
    exact fun s member => (sane s member).runs

theorem never_panics_shortest : ∃ lru, newLRU ⟨1, 10, 1⟩ = .ok lru ∧
    ∀ events, ∀ s ∈ runFrom stepShards lru.start events, s.loop ≠ .panicked :=
  ⟨_, rfl, (never_panics_iff ⟨1, 10, 1⟩ _ rfl).mpr (by decide)⟩

/-- Expiry is disabled, and one access stops the process. -/
theorem zero_ttl_panics : ∃ lru, newLRU ⟨100, 0, 16⟩ = .ok lru ∧
    (∀ s ∈ lru.start, s.loop = .running) ∧
    ∃ s ∈ runFrom stepShards lru.start [.publish [97] 0 0 0, .iterate 0 (.access 0 0)], s.loop = .panicked :=
  ⟨_, rfl, by decide, by decide⟩

end Oryx.Evict
