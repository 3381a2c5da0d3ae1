import Oryx.Evict.Shard
import Oryx.Library.Runs
import Oryx.Security.Reference

/-!
# A shard that waits for itself

The goroutine of a shard is the only receiver of `evictCh`, and `evictOldest`, which it
calls from `seen`, sends to that channel and waits for room. The machine here is one
shard: any calls of `Publish`, `PublishDelete` and `Stop`, and iterations of `run` that
take any case.
-/

namespace Oryx.Evict
set_option autoImplicit false
open Oryx.Library

inductive ShardAction where
  | publish (key : Key) (hash : HashKey) (coin rand : UInt32)
  | publishDelete (hash : HashKey)
  | stop
  | iterate (case : Ready)

namespace LruShard

def step (s : LruShard) : ShardAction → LruShard
  | .publish key hash coin rand => s.publish key hash coin rand
  | .publishDelete hash => s.publishDelete hash
  | .stop => s.stop
  | .iterate case => (s.iterate case).1

/-- The goroutine waits for room in the channel that it alone receives from. -/
def Blocked (s : LruShard) : Prop := ∃ msg, s.loop = .blocked msg

/-- The message that the step takes from `ch`. -/
def accessed (s : LruShard) : ShardAction → Option LruMsg
  | .iterate (.access _ _) => if s.loop = .running then s.ch.head? else none
  | _ => none

/-- The step takes an access for a hash that a full shard does not know, so that `seen`
calls `evictOldest` with an entry to evict. -/
def Displaces (s : LruShard) (a : ShardAction) : Prop :=
  ∃ msg ∈ s.accessed a, 0 < s.ttl.tdiv 10 ∧ (∀ e ∈ s.entries, e.hash ≠ msg.hash) ∧
    s.capacity.toNat ≤ s.entries.length ∧ s.entries ≠ []

/-- A step that displaces an entry finds room in `evictCh`. -/
def HasRoom (s : LruShard) (a : ShardAction) : Prop := s.Displaces a → s.evictCh.length < s.evictCap

variable {s : LruShard}

theorem loop_sendEvict (msg : EvictMsg) :
    (s.sendEvict msg).loop = if s.evictCh.length < s.evictCap then s.loop else .blocked msg := by
  unfold sendEvict
  split <;> rfl

/-- `evictOldest` blocks exactly when there is an entry to evict and no room for its message. -/
theorem blocked_evictOldest_iff (running : s.loop = .running) :
    s.evictOldest.Blocked ↔ s.entries ≠ [] ∧ ¬s.evictCh.length < s.evictCap := by
  unfold evictOldest
  cases last : s.entries.getLast? with
  | none => simp [Blocked, running, List.getLast?_eq_none_iff.mp last]
  | some e =>
    have some_entry : s.entries ≠ [] := by
      rintro none
      simp [none] at last
    by_cases room : s.evictCh.length < s.evictCap
    · simp [Blocked, loop_sendEvict, room, running]
    · simp [Blocked, loop_sendEvict, room, some_entry]

theorem not_blocked_running (running : s.loop = .running) : ¬s.Blocked := by
  rintro ⟨msg, blocked⟩
  cases running.symm.trans blocked

theorem loop_evictOldest (running : s.loop = .running) :
    s.evictOldest.loop = .running ∨ s.evictOldest.Blocked := by
  unfold evictOldest
  split
  · exact Or.inl running
  · rw [Blocked, loop_sendEvict]
    split
    · exact Or.inl running
    · exact Or.inr ⟨_, rfl⟩

/-- `seen` blocks exactly when it displaces an entry and finds no room. -/
theorem blocked_seen_iff (running : s.loop = .running) (key : Key) (hkey : HashKey) (now jitter : Int) :
    (s.seen key hkey now jitter).Blocked ↔
      (0 < s.ttl.tdiv 10 ∧ (∀ e ∈ s.entries, e.hash ≠ hkey) ∧ s.capacity.toNat ≤ s.entries.length ∧
        s.entries ≠ []) ∧ ¬s.evictCh.length < s.evictCap := by
  unfold seen
  by_cases short : s.ttl.tdiv 10 ≤ 0
  · simp [short, Blocked]
  rw [if_neg short]
  have positive : 0 < s.ttl.tdiv 10 := Int.lt_of_not_ge short
  cases cached : s.entries.find? fun e => e.hash = hkey with
  | some e =>
    have hit : e.hash = hkey := by simpa using List.find?_some cached
    refine iff_of_false (not_blocked_running running) fun blocks => ?_
    exact blocks.1.2.1 e (List.mem_of_find?_eq_some cached) hit
  | none =>
    have unknown : ∀ e ∈ s.entries, e.hash ≠ hkey := by simpa using cached
    by_cases full : s.capacity.toNat ≤ s.entries.length
    · simp only [ge_iff_le, full, if_true]
      rcases loop_evictOldest running with goes | blocks
      · have sent := (not_congr (blocked_evictOldest_iff running)).mp (not_blocked_running goes)
        simp only [goes]
        exact iff_of_false (not_blocked_running rfl) fun blocks => sent ⟨blocks.1.2.2.2, blocks.2⟩
      · obtain ⟨some_entry, no_room⟩ := (blocked_evictOldest_iff running).mp blocks
        obtain ⟨msg, blocked⟩ := blocks
        simp only [blocked]
        exact iff_of_true ⟨msg, blocked⟩ ⟨⟨positive, unknown, trivial, some_entry⟩, no_room⟩
    · simp only [ge_iff_le, full, if_false, running]
      exact iff_of_false (not_blocked_running rfl) fun blocks => blocks.1.2.2.1

theorem loop_publish (key : Key) (hash : HashKey) (coin rand : UInt32) :
    (s.publish key hash coin rand).loop = s.loop := by
  unfold publish
  split
  · rfl
  · split <;> rfl

theorem loop_publishDelete (hash : HashKey) : (s.publishDelete hash).loop = s.loop := by
  unfold publishDelete
  split <;> rfl

/-- Only the goroutine itself moves. -/
theorem iterate_of_not_running (rests : s.loop ≠ .running) (case : Ready) : s.iterate case = (s, none) := by
  unfold iterate
  cases loop : s.loop with
  | running => exact absurd loop rests
  | blocked msg => rfl
  | panicked => rfl
  | stopped => rfl

/-- A shard that is blocked stays so, whatever is published and whatever case is ready. -/
theorem Blocked.step {msg : EvictMsg} (blocked : s.loop = .blocked msg) (a : ShardAction) :
    (s.step a).loop = .blocked msg := by
  cases a with
  | publish key hash coin rand => exact (loop_publish key hash coin rand).trans blocked
  | publishDelete hash => exact (loop_publishDelete hash).trans blocked
  | stop => exact blocked
  | iterate case =>
    rw [LruShard.step, iterate_of_not_running (by simp [blocked])]
    exact blocked

theorem Blocked.runFrom {msg : EvictMsg} (blocked : s.loop = .blocked msg) (actions : List ShardAction) :
    (Library.runFrom LruShard.step s actions).loop = .blocked msg :=
  runFrom_invariant (I := fun _ (s : LruShard) => s.loop = .blocked msg) blocked
    (fun _ _ a held => Blocked.step held a) actions

theorem step_of_accessed {a : ShardAction} {msg : LruMsg} (taken : s.accessed a = some msg) :
    s.loop = .running ∧ ∃ rest now jitter, s.step a = { s with ch := rest }.seen msg.key msg.hash now jitter := by
  unfold accessed at taken
  split at taken
  · rename_i now jitter
    obtain ⟨running, head⟩ := Option.ite_none_right_eq_some.mp taken
    obtain ⟨rest, queued⟩ := List.head?_eq_some_iff.mp head
    exact ⟨running, rest, now, jitter, by simp only [step, iterate, running, queued]⟩
  · cases taken

/-- A step that takes no access blocks nothing. -/
theorem not_blocked_step (free : ¬s.Blocked) {a : ShardAction} (other : s.accessed a = none) : ¬(s.step a).Blocked := by
  cases a with
  | publish key hash coin rand => simpa only [step, Blocked, loop_publish] using free
  | publishDelete hash => simpa only [step, Blocked, loop_publishDelete] using free
  | stop => exact free
  | iterate case =>
    by_cases running : s.loop = .running
    · cases case with
      | done =>
        simp only [step, iterate, running]
        split
        · exact nofun
        · exact free
      | access now jitter =>
        have empty : s.ch = [] := by simpa [accessed, running] using other
        simpa only [step, iterate, running, empty] using free
      | deleted =>
        simp only [step, iterate, running]
        split
        · exact free
        · exact not_blocked_running rfl
      | evict =>
        simp only [step, iterate, running]
        split
        · exact free
        · exact not_blocked_running rfl
      | tick now =>
        simp only [step, iterate, running]
        split
        · exact not_blocked_running running
        · exact free
    · simpa only [step, iterate_of_not_running running] using free

/-- **One step** of a shard that is not blocked blocks it exactly when it displaces an entry
and finds no room. -/
theorem not_blocked_step_iff (free : ¬s.Blocked) (a : ShardAction) : ¬(s.step a).Blocked ↔ s.HasRoom a := by
  unfold HasRoom Displaces
  cases taken : s.accessed a with
  | none => exact iff_of_true (not_blocked_step free taken) (by simp)
  | some msg =>
    obtain ⟨running, rest, now, jitter, seen⟩ := step_of_accessed taken
    rw [seen, blocked_seen_iff (by exact running), not_and_not_right]
    simp only [Option.mem_some_iff, exists_eq_left']

theorem not_blocked_newShard (shardCap : UInt32) (ttl : Int) : ¬(newShard shardCap ttl).Blocked := by
  rintro ⟨msg, blocked⟩
  simp only [newShard] at blocked
  split at blocked <;> cases blocked

/-- **The goroutine of a shard and its own queue**: along a run of a shard of `NewLRU` the
goroutine is never left waiting for room in `evictCh` exactly when each access that
displaces an entry finds room there. -/
theorem never_blocked_iff (shardCap : UInt32) (ttl : Int) (actions : List ShardAction) :
    Along step (fun s a => ¬(s.step a).Blocked) (newShard shardCap ttl) actions ↔
      Along step HasRoom (newShard shardCap ttl) actions := by
  have starts := not_blocked_newShard shardCap ttl
  constructor
  · exact Along.imp (I := fun s : LruShard => ¬s.Blocked) (fun _ _ _ stays => stays)
      (fun _ a free stays => (not_blocked_step_iff free a).mp stays) starts
  · exact Along.imp (I := fun s : LruShard => ¬s.Blocked) (fun _ a free room => (not_blocked_step_iff free a).mpr room)
      (fun _ a free room => (not_blocked_step_iff free a).mpr room) starts

end LruShard

/-! ## Two keys in turn -/

open Reference

/-- Alternate accesses to two keys, each taken from the queue as soon as it is published. -/
def alternate : Nat → Key → Key → List ShardAction
  | 0, _, _ => []
  | n + 1, key, other =>
    .publish key (hashFunc key) 0 0 :: .iterate (.access 0 0) :: alternate n other key

theorem alternate_succ (n : Nat) (key other : Key) :
    alternate (n + 1) key other = alternate 1 key other ++ alternate n other key := rfl

/-- A shard of capacity one that holds the given key and has queued `n` messages. -/
structure Filled (s : LruShard) (key : Key) (n : Nat) : Prop where
  running : s.loop = .running
  idle : s.ch = []
  sampling : 0 < s.chCap
  expiring : 0 < s.ttl.tdiv 10
  single : s.capacity = 1
  holds : ∃ e, s.entries = [e] ∧ e.hash = hashFunc key
  queued : s.evictCh.length = n
  bounded : s.evictCap = 4096

theorem publish_idle {s : LruShard} (idle : s.ch = []) (sampling : 0 < s.chCap) (key : Key) (hash : HashKey)
    (rand : UInt32) : s.publish key hash 0 rand = { s with ch := [⟨key, hash⟩] } := by
  have nonzero : s.chCap ≠ 0 := Nat.ne_of_gt sampling
  simp [LruShard.publish, shouldSample, samplingMask, idle, sampling, nonzero]

/-- With room in the queue, a shard of capacity one takes a new hash in place of its only entry. -/
theorem seen_single {s : LruShard} (running : s.loop = .running) (expiring : 0 < s.ttl.tdiv 10)
    (single : s.capacity = 1) {e : Entry} (entries : s.entries = [e]) {hkey : HashKey} (misses : e.hash ≠ hkey)
    (room : s.evictCh.length < s.evictCap) (key : Key) (now jitter : Int) :
    s.seen key hkey now jitter =
      { s with
        entries := [⟨now + lifetime s.ttl jitter, key, hkey⟩]
        evictCh := s.evictCh ++ [⟨e.key, .capacity⟩] } := by
  simp only [LruShard.seen, if_neg (Int.not_le.mpr expiring), entries, List.find?_cons, misses, decide_false,
    List.find?_nil, single, LruShard.evictOldest, LruShard.sendEvict, room]
  simp [running]

namespace Filled

variable {s : LruShard} {key other : Key} {n : Nat}

/-- The goroutine takes the other key next, and displaces the one that the shard holds. -/
theorem displaces (filled : Filled s key n) (differ : hashFunc key ≠ hashFunc other) :
    (s.step (.publish other (hashFunc other) 0 0)).Displaces (.iterate (.access 0 0)) := by
  obtain ⟨e, entries, hash⟩ := filled.holds
  simp [LruShard.step, publish_idle filled.idle filled.sampling, LruShard.Displaces, LruShard.accessed,
    filled.running, filled.expiring, entries, hash, differ, filled.single]

/-- One turn: the other key takes the place of the one that the shard holds. -/
theorem next (filled : Filled s key n) (differ : hashFunc key ≠ hashFunc other) (room : n < 4096) :
    ∃ msg, (s.step (.publish other (hashFunc other) 0 0)).step (.iterate (.access 0 0)) =
      { s with
        ch := []
        entries := [⟨0 + lifetime s.ttl 0, other, hashFunc other⟩]
        evictCh := s.evictCh ++ [msg] } := by
  obtain ⟨e, entries, hash⟩ := filled.holds
  have misses : e.hash ≠ hashFunc other := by
    rw [hash]
    exact differ
  have fits : s.evictCh.length < s.evictCap := by
    rw [filled.queued, filled.bounded]
    exact room
  refine ⟨⟨e.key, .capacity⟩, ?_⟩
  simp only [LruShard.step, publish_idle filled.idle filled.sampling, LruShard.iterate, filled.running]
  exact seen_single (s := { s with ch := [], loop := .running }) rfl filled.expiring filled.single entries misses
    fits _ _ _

theorem turn (filled : Filled s key n) (differ : hashFunc key ≠ hashFunc other) (room : n < 4096) :
    Filled ((s.step (.publish other (hashFunc other) 0 0)).step (.iterate (.access 0 0))) other (n + 1) := by
  obtain ⟨msg, next⟩ := filled.next differ room
  rw [next]
  exact ⟨filled.running, rfl, filled.sampling, filled.expiring, filled.single, ⟨_, rfl, rfl⟩,
    by simp [filled.queued], filled.bounded⟩

/-- Enough turns fill the queue, and one more blocks the shard. -/
theorem blocks (filled : Filled s key n) (differ : hashFunc key ≠ hashFunc other) (most : n ≤ 4096) {turns : Nat}
    (enough : n + turns = 4097) : (runFrom LruShard.step s (alternate turns other key)).Blocked := by
  induction turns generalizing s key other n with
  | zero => omega
  | succ turns ih =>
    rcases Nat.lt_or_eq_of_le most with room | full
    · exact ih (filled.turn differ room) (Ne.symm differ) room (by omega)
    · have free : ¬(s.step (.publish other (hashFunc other) 0 0)).Blocked := by
        rw [LruShard.step, publish_idle filled.idle filled.sampling]
        exact LruShard.not_blocked_running filled.running
      have stuck : ¬(s.step (.publish other (hashFunc other) 0 0)).HasRoom (.iterate (.access 0 0)) := by
        intro room
        have fits := room (filled.displaces differ)
        rw [LruShard.step, publish_idle filled.idle filled.sampling] at fits
        simp only [filled.queued, filled.bounded] at fits
        omega
      have blocked := not_not.mp fun goes => stuck ((LruShard.not_blocked_step_iff free _).mp goes)
      obtain ⟨msg, blocked⟩ := blocked
      exact ⟨msg, LruShard.Blocked.runFrom blocked (alternate turns key other)⟩

end Filled

/-- The first access finds a shard of capacity one empty. -/
theorem filled_first : Filled (runFrom LruShard.step (newShard 1 60000000000) (alternate 1 [97] [98])) [97] 0 :=
  ⟨by decide +kernel, by decide +kernel, by decide +kernel, by decide +kernel, by decide +kernel,
    ⟨⟨60000000000, [97], hashFunc [97]⟩, by decide +kernel, rfl⟩, by decide +kernel, by decide +kernel⟩

/-- A shard of capacity one blocks on its own queue after 4098 accesses to two keys in turn,
and nothing that happens afterwards wakes it up. -/
theorem alternate_blocks_forever :
    ∃ msg, ∀ more,
      (runFrom LruShard.step (newShard 1 60000000000) (alternate 4098 [97] [98] ++ more)).loop = .blocked msg := by
  have differ : hashFunc [97] ≠ hashFunc [98] := by decide +kernel
  have most : 0 + 4097 = 4097 := rfl
  obtain ⟨msg, blocked⟩ := filled_first.blocks differ (Nat.zero_le _) most
  refine ⟨msg, fun more => ?_⟩
  rw [alternate_succ 4097, List.append_assoc, runFrom, List.foldl_append, List.foldl_append]
  exact LruShard.Blocked.runFrom blocked more

end Oryx.Evict
