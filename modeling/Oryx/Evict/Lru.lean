import Mathlib.Algebra.Order.BigOperators.Group.List
import Oryx.Evict.Recency
import Oryx.Library.Runs

/-!
# All shards of the LRU

`NewLRU` builds the shards, which share one pool of entries, and any operation may be called
on any shard at any time. Next to the shards the state counts the calls and notes, for every
shard and hash, the number of the call that saw it last.
-/

namespace Oryx.Evict
set_option autoImplicit false
open Oryx.Library

structure LRUConfig where
  capacity : UInt32
  ttl : Int
  shardCount : Int

structure LeastRecentlyUsed where
  mem : Memory
  shards : List LinkedShard

def newLinkedShard (shardCap : UInt32) (ttl : Int) : LinkedShard where
  head := none
  tail := none
  cache := ∅
  evictCh := []
  evictCap := max (shardCap.toNat / 4) 4096
  capacity := shardCap
  ttl := ttl
  waiting := none

def newMemory : Memory := ⟨fun _ => ⟨0, none, none, [], 0⟩, [], 0⟩

/-- The number of shards: no more than there is capacity for. -/
def LRUConfig.shards (config : LRUConfig) : Nat :=
  if config.shardCount > config.capacity.toNat then config.capacity.toNat else config.shardCount.toNat

/-- `NewLRU`; an error is the message of a panic. -/
def newLRU (config : LRUConfig) : Except Error LeastRecentlyUsed :=
  if config.capacity = 0 then .error (ascii "oryx: LRU Capacity must be greater than 0")
  else if config.shardCount ≤ 0 then .error (ascii "oryx: LRU ShardCount must be greater than 0")
  else
    let shardCap := config.capacity / UInt32.ofNat config.shards
    .ok ⟨newMemory, List.replicate config.shards (newLinkedShard shardCap config.ttl)⟩

/-- The shards, the number of calls so far and the call that last saw each hash in each shard. -/
structure Watched where
  lru : LeastRecentlyUsed
  calls : Nat
  lastSeen : Nat → HashKey → Nat

namespace LeastRecentlyUsed

/-- What a call on a shard works on. -/
def arena (lru : LeastRecentlyUsed) (s : LinkedShard) : Arena := ⟨lru.mem, s⟩

def act (lru : LeastRecentlyUsed) (i : Nat) (op : LinkedOp) : LeastRecentlyUsed :=
  match lru.shards[i]? with
  | none => lru
  | some s =>
    let a := (lru.arena s).act op
    ⟨a.mem, lru.shards.set i a.shard⟩

end LeastRecentlyUsed

namespace Watched

def start (lru : LeastRecentlyUsed) : Watched := ⟨lru, 0, fun _ _ => 0⟩

def step (w : Watched) (call : Nat × LinkedOp) : Watched where
  lru := w.lru.act call.1 call.2
  calls := w.calls + 1
  lastSeen := match w.lru.shards[call.1]? with
    | none => w.lastSeen
    | some s =>
      Function.update w.lastSeen call.1
        (note (w.lastSeen call.1) (w.calls + 1) ((w.lru.arena s).sees call.2))

end Watched

/-- The entries of a shard, from its head on. -/
def LeastRecentlyUsed.entries (lru : LeastRecentlyUsed) (s : LinkedShard) : List Ptr :=
  follow lru.mem.heap s.cache.size s.head

/-- **The representation of a shard.** The list from the head ends at the tail and has exactly
the entries of the cache, each once and under its own hash; `prev` is the inverse of `next`; the
order is that of the last calls that saw the entries; and there is room for all of them. -/
structure Intact (lru : LeastRecentlyUsed) (lastSeen : HashKey → Nat) (s : LinkedShard) : Prop where
  ends : ∀ fuel, s.cache.size ≤ fuel → follow lru.mem.heap fuel s.head = lru.entries s
  tail : s.tail = (lru.entries s).getLast?
  once : (lru.entries s).Nodup
  cached : ∀ h p, s.cache[h]? = some p ↔ p ∈ lru.entries s ∧ (lru.mem.heap p).hash = h
  inverse : ∀ p ∈ lru.entries s, ∀ q ∈ lru.entries s,
    (lru.mem.heap p).next = some q ↔ (lru.mem.heap q).prev = some p
  first : ∀ p ∈ lru.entries s, (lru.mem.heap p).prev = none ↔ s.head = some p
  last : ∀ p ∈ lru.entries s, (lru.mem.heap p).next = none ↔ s.tail = some p
  ordered : (lru.entries s).Pairwise fun p q => lastSeen (lru.mem.heap q).hash < lastSeen (lru.mem.heap p).hash
  bounded : s.cache.size ≤ s.capacity.toNat
  roomy : 1 ≤ s.capacity.toNat

/-! ## From the representation to the shard -/

section Arena

variable {theirs theirs' : Ptr → LinkedEntry → Prop} {lastSeen : HashKey → Nat} {calls : Nat} {a : Arena}
  {ps hand : List Ptr}

theorem Sound.intact {lru : LeastRecentlyUsed} {s : LinkedShard}
    (sound : Sound theirs lastSeen calls (lru.arena s) ps) : lru.entries s = ps ∧ Intact lru lastSeen s := by
  obtain ⟨rep, recent⟩ := sound
  have size : s.cache.size = ps.length := rep.size_eq
  have entries : lru.entries s = ps := rep.follow_eq size.ge
  refine ⟨entries, ?_⟩
  subst entries
  have null : none ∈ none :: (lru.entries s).map some := List.mem_cons_self
  have inside {p : Ptr} (member : p ∈ lru.entries s) : some p ∈ none :: (lru.entries s).map some := by
    simpa using member
  exact
    { ends := fun fuel enough => rep.follow_eq (size ▸ enough)
      tail := rep.tail_eq
      once := rep.chained.nodup_list
      cached := rep.keyed
      inverse := fun p first q second => rep.chained.fd_eq_iff (inside first) (inside second)
      first := fun p member => (rep.chained.fd_eq_iff null (inside member)).symm
      last := fun p member => rep.chained.fd_eq_iff (inside member) null
      ordered := List.pairwise_map.mp recent.ordered
      bounded := by
        have bounded := recent.bounded
        simp only [Arena.view, LinkedShard.view, List.length_map] at bounded
        rwa [size]
      roomy := recent.roomy }

/-- A hash that is gone, when none but that of the last entry may go, was seen least recently. -/
theorem Sound.oldest (sound : Sound theirs lastSeen calls a ps) {lastSeen' : HashKey → Nat} {calls' : Nat} {a' : Arena}
    {qs : List Ptr} (sound' : Sound theirs lastSeen' calls' a' qs)
    (keeps : ∀ x ∈ (a.view ps).entries.dropLast, ∃ y ∈ (a'.view qs).entries, y.hash = x.hash) {h : HashKey} {p : Ptr}
    (cached : a.shard.cache[h]? = some p) (gone : a'.shard.cache[h]? = none) :
    a.shard.tail = some p ∧ ∀ h' p', a.shard.cache[h']? = some p' → lastSeen h ≤ lastSeen h' := by
  obtain ⟨member, rfl⟩ := (sound.rep.keyed h p).mp cached
  have last : ∀ x ∈ (a.view ps).entries.dropLast, x.hash ≠ (a.heap p).hash := by
    intro x listed same
    obtain ⟨y, kept, hash⟩ := keeps x listed
    exact (sound'.rep.absent_iff _).mp gone y kept (hash.trans same)
  constructor
  · rw [sound.rep.tail_eq]
    rcases List.eq_nil_or_concat' ps with rfl | ⟨front, e, rfl⟩
    · cases member
    · rcases List.mem_append.mp member with inside | self
      · have listed : a.entryAt p ∈ (a.view (front ++ [e])).entries.dropLast := by
          simpa using ⟨p, inside, rfl⟩
        exact absurd rfl (last _ listed)
      · rw [List.getLast?_concat, List.mem_singleton.mp self]
  · intro h' p' cached'
    obtain ⟨member', rfl⟩ := (sound.rep.keyed h' p').mp cached'
    exact sound.recent.least (List.mem_map_of_mem member) last _ (List.mem_map_of_mem member')

/-- A shard on which nothing is called, after a call on another one: its objects are as they
were, and the call took none of them. -/
theorem Rep.elsewhere (rep : Rep theirs a ps hand) (mem : Memory)
    (same : ∀ p ∈ hand ++ ps, mem.heap p = a.heap p ∧ p < mem.fresh ∧ p ∉ mem.pool)
    (pool : mem.pool.Nodup ∧ ∀ p ∈ mem.pool, p < mem.fresh)
    (apart : ∀ p entry, theirs' p entry → p < mem.fresh ∧ mem.heap p = entry ∧ p ∉ hand ++ ps ++ mem.pool) :
    Rep theirs' ⟨mem, a.shard⟩ ps hand ∧ (Arena.mk mem a.shard).view ps = a.view ps := by
  have unchanged {p : Ptr} (member : p ∈ ps) : mem.heap p = a.heap p := (same p (List.mem_append_right _ member)).1
  refine ⟨⟨?_, fun h p => ?_, ?_, fun p member => ?_, apart⟩, ?_⟩
  · refine rep.chained.congr rfl rfl fun p listed => ?_
    have kept : (Arena.mk mem a.shard).heap p = a.heap p := unchanged listed
    rw [kept]
    exact ⟨rfl, rfl⟩
  · refine (rep.keyed h p).trans (and_congr_right fun member => ?_)
    rw [← unchanged member]
    rfl
  · refine List.nodup_append.mpr ⟨(List.nodup_append.mp rep.nodup).1, pool.1, fun p member q pooled => ?_⟩
    rintro rfl
    exact (same p member).2.2 pooled
  · rcases List.mem_append.mp member with mine | pooled
    · exact (same p mine).2.1
    · exact pool.2 p pooled
  · refine congrArg a.shard.view (List.map_congr_left fun p member => ?_)
    change (⟨(mem.heap p).expiry, (mem.heap p).key, (mem.heap p).hash⟩ : Entry) = _
    rw [unchanged member]
    rfl

end Arena

/-! ## All shards -/

namespace Watched

/-- The objects that the shards other than `i` have in use. -/
def theirs (w : Watched) (ps : Nat → List Ptr) (i : Nat) (p : Ptr) (entry : LinkedEntry) : Prop :=
  (∃ j s, j ≠ i ∧ w.lru.shards[j]? = some s ∧ p ∈ s.hand ++ ps j) ∧ w.lru.mem.heap p = entry

/-- Every shard represents its list. -/
def Inv (w : Watched) (ps : Nat → List Ptr) : Prop :=
  ∀ i s, w.lru.shards[i]? = some s → Sound (w.theirs ps i) (w.lastSeen i) w.calls (w.lru.arena s) (ps i)

variable {w : Watched} {ps : Nat → List Ptr}

/-- The state after a call on shard `i` that leaves the arena `a`. -/
def leave (w : Watched) (i : Nat) (a : Arena) (lastSeen : HashKey → Nat) : Watched where
  lru := ⟨a.mem, w.lru.shards.set i a.shard⟩
  calls := w.calls + 1
  lastSeen := Function.update w.lastSeen i lastSeen

/-- A call on a shard that exists. -/
theorem step_eq {i : Nat} {s : LinkedShard} (found : w.lru.shards[i]? = some s) (op : LinkedOp) :
    w.step (i, op) = w.leave i ((w.lru.arena s).act op)
      (note (w.lastSeen i) (w.calls + 1) ((w.lru.arena s).sees op)) := by
  simp only [step, LeastRecentlyUsed.act, found]
  rfl

theorem step_of_missing {i : Nat} (missing : w.lru.shards[i]? = none) (op : LinkedOp) :
    w.step (i, op) = { w with calls := w.calls + 1 } := by
  simp only [step, LeastRecentlyUsed.act, missing]

theorem shards_leave_ne {i j : Nat} (other : j ≠ i) (a : Arena) (lastSeen : HashKey → Nat) :
    (w.leave i a lastSeen).lru.shards[j]? = w.lru.shards[j]? :=
  List.getElem?_set_ne (Ne.symm other)

theorem shards_leave_self {i : Nat} {s : LinkedShard} (found : w.lru.shards[i]? = some s) (a : Arena)
    (lastSeen : HashKey → Nat) : (w.leave i a lastSeen).lru.shards[i]? = some a.shard :=
  List.getElem?_set_self (List.getElem?_eq_some_iff.mp found).1

theorem lastSeen_leave_self (i : Nat) (a : Arena) (lastSeen : HashKey → Nat) :
    (w.leave i a lastSeen).lastSeen i = lastSeen := Function.update_self ..

theorem lastSeen_leave_ne {i j : Nat} (other : j ≠ i) (a : Arena) (lastSeen : HashKey → Nat) :
    (w.leave i a lastSeen).lastSeen j = w.lastSeen j := Function.update_of_ne other ..

/-- What a call on one shard leaves is in order for all shards. -/
theorem Inv.leave (inv : w.Inv ps) {i : Nat} {s : LinkedShard} (found : w.lru.shards[i]? = some s) {a : Arena}
    {lastSeen : HashKey → Nat} {qs : List Ptr} (sound : Sound (w.theirs ps i) lastSeen (w.calls + 1) a qs) :
    (w.leave i a lastSeen).Inv (Function.update ps i qs) := by
  have foreign {j : Nat} {t : LinkedShard} (other : j ≠ i) (member : w.lru.shards[j]? = some t) {p : Ptr}
      (owned : p ∈ t.hand ++ ps j) :
      p < a.mem.fresh ∧ a.heap p = w.lru.mem.heap p ∧ p ∉ a.shard.hand ++ qs ++ a.mem.pool :=
    sound.rep.apart p _ ⟨⟨j, t, other, member, owned⟩, rfl⟩
  have apart := List.nodup_append.mp sound.rep.nodup
  intro j t member
  by_cases self : j = i
  · subst self
    rw [shards_leave_self found] at member
    cases member
    rw [lastSeen_leave_self, Function.update_self]
    refine ⟨⟨sound.rep.chained, sound.rep.keyed, sound.rep.nodup, sound.rep.allocated, ?_⟩, sound.recent⟩
    rintro p entry ⟨⟨k, u, other, listed, owned⟩, data⟩
    rw [Function.update_of_ne other] at owned
    rw [shards_leave_ne other] at listed
    obtain ⟨old, -, outside⟩ := foreign other listed owned
    exact ⟨old, data, outside⟩
  · rw [shards_leave_ne self] at member
    rw [lastSeen_leave_ne self, Function.update_of_ne self]
    have mine (p : Ptr) (owned : p ∈ t.hand ++ ps j) :
        a.mem.heap p = (w.lru.arena t).heap p ∧ p < a.mem.fresh ∧ p ∉ a.mem.pool := by
      obtain ⟨old, same, outside⟩ := foreign self member owned
      exact ⟨same, old, fun pooled => outside (List.mem_append_right _ pooled)⟩
    have pool (p : Ptr) (pooled : p ∈ a.mem.pool) : p < a.mem.fresh :=
      sound.rep.allocated p (List.mem_append_right _ pooled)
    have others (p : Ptr) (entry : LinkedEntry)
        (owned : (w.leave i a lastSeen).theirs (Function.update ps i qs) j p entry) :
        p < a.mem.fresh ∧ a.mem.heap p = entry ∧ p ∉ t.hand ++ ps j ++ a.mem.pool := by
      obtain ⟨⟨k, u, other, listed, owned⟩, data⟩ := owned
      by_cases caller : k = i
      · subst caller
        rw [Function.update_self] at owned
        rw [shards_leave_self found] at listed
        cases listed
        refine ⟨sound.rep.allocated p (List.mem_append_left _ owned), data, fun taken => ?_⟩
        rcases List.mem_append.mp taken with inside | pooled
        · exact (foreign self member inside).2.2 (List.mem_append_left _ owned)
        · exact apart.2.2 p owned p pooled rfl
      · rw [Function.update_of_ne caller] at owned
        rw [shards_leave_ne caller] at listed
        refine ⟨(foreign caller listed owned).1, data, fun taken => ?_⟩
        have outside := ((inv j t member).rep.apart p _ ⟨⟨k, u, other, listed, owned⟩, rfl⟩).2.2
        rcases List.mem_append.mp taken with inside | pooled
        · exact outside (List.mem_append_left _ inside)
        · exact (foreign caller listed owned).2.2 (List.mem_append_right _ pooled)
    obtain ⟨rep, view⟩ := (inv j t member).rep.elsewhere a.mem mine ⟨apart.2.1, pool⟩ others
    refine ⟨rep, ?_⟩
    have recent := (inv j t member).recent.later
    rwa [← view] at recent

/-- An entry that an operation removes for want of room is the last of its list, and no entry
was seen less recently. -/
def OldestEvicted (w : Watched) (call : Nat × LinkedOp) : Prop :=
  call.2.evicts = true → ∀ s s', w.lru.shards[call.1]? = some s → (w.step call).lru.shards[call.1]? = some s' →
    ∀ h p, s.cache[h]? = some p → s'.cache[h]? = none →
      s.tail = some p ∧ ∀ h' p', s.cache[h']? = some p' → w.lastSeen call.1 h ≤ w.lastSeen call.1 h'

/-- **One call** keeps every shard in order and every capacity, and evicts the oldest. -/
theorem Inv.step (inv : w.Inv ps) (call : Nat × LinkedOp) :
    (∃ ps', (w.step call).Inv ps') ∧
      (w.step call).lru.shards.map LinkedShard.capacity = w.lru.shards.map LinkedShard.capacity ∧
      w.OldestEvicted call := by
  obtain ⟨i, op⟩ := call
  cases found : w.lru.shards[i]? with
  | none =>
    rw [OldestEvicted, step_of_missing found]
    refine ⟨⟨ps, fun j t member => (inv j t member).later⟩, rfl, fun _ s s' member => ?_⟩
    cases found.symm.trans member
  | some s =>
    obtain ⟨qs, sound, capacity, keeps⟩ := (inv i s found).act op
    rw [OldestEvicted, step_eq found]
    refine ⟨⟨_, inv.leave found sound⟩, ?_, fun eviction t t' member member' h p cached gone => ?_⟩
    · have same : ((w.lru.arena s).act op).shard.capacity = s.capacity := capacity
      rw [Watched.leave, List.map_set, same]
      refine List.ext_getElem? fun j => ?_
      rw [List.getElem?_set]
      by_cases self : i = j
      · subst self
        have bound : i < (w.lru.shards.map LinkedShard.capacity).length := by
          rw [List.length_map]
          exact (List.getElem?_eq_some_iff.mp found).1
        rw [if_pos rfl, if_pos bound, List.getElem?_map, found, Option.map_some]
      · rw [if_neg self]
    · cases found.symm.trans member
      cases (shards_leave_self found _ _).symm.trans member'
      exact (inv i s found).oldest sound (keeps eviction) cached gone

/-- The empty shards of `NewLRU` are in order. -/
theorem inv_start {n : Nat} {shardCap : UInt32} (roomy : 0 < shardCap.toNat) (ttl : Int) :
    (start ⟨newMemory, List.replicate n (newLinkedShard shardCap ttl)⟩).Inv fun _ => [] := by
  intro i s found
  have new : s = newLinkedShard shardCap ttl := (List.mem_replicate.mp (List.mem_of_getElem? found)).2
  subst new
  refine ⟨⟨⟨?_, by simp⟩, fun h p => ?_, List.nodup_nil, nofun, ?_⟩, ⟨roomy, Nat.zero_le _, fun _ => le_rfl, .nil, nofun⟩⟩
  · exact List.isChain_pair.mpr ⟨rfl, rfl⟩
  · have empty : (∅ : Std.TreeMap HashKey Ptr)[h]? = none := Std.TreeMap.getElem?_emptyc
    exact iff_of_false (fun cached => by cases empty.symm.trans cached) nofun
  · rintro p entry ⟨⟨j, t, -, listed, owned⟩, -⟩
    have new : t = newLinkedShard shardCap ttl := (List.mem_replicate.mp (List.mem_of_getElem? listed)).2
    subst new
    cases owned

end Watched

namespace LRUConfig

variable {config : LRUConfig}

theorem shards_pos (positive : config.capacity ≠ 0) (sharded : 0 < config.shardCount) : 0 < config.shards := by
  have capacity : 0 < config.capacity.toNat :=
    Nat.pos_of_ne_zero fun zero => positive (UInt32.toNat_inj.mp zero)
  unfold shards
  split <;> omega

/-- `NewLRU` shares the capacity out evenly, with room in every shard and no more in total. -/
theorem shardCap_spec (positive : config.capacity ≠ 0) (sharded : 0 < config.shardCount) :
    0 < (config.capacity / UInt32.ofNat config.shards).toNat ∧
      config.shards * (config.capacity / UInt32.ofNat config.shards).toNat ≤ config.capacity.toNat := by
  have some_shard := config.shards_pos positive sharded
  have most : config.shards ≤ config.capacity.toNat := by
    unfold shards
    split <;> omega
  have small : config.shards < 2 ^ 32 := Nat.lt_of_le_of_lt most config.capacity.toNat_lt
  rw [UInt32.toNat_div, UInt32.toNat_ofNat_of_lt' small]
  exact ⟨Nat.div_pos most some_shard, Nat.mul_div_le _ _⟩

end LRUConfig

/-- All shards that `NewLRU` builds are alike and have room, and there is at least one. -/
theorem eq_of_newLRU {config : LRUConfig} {lru : LeastRecentlyUsed} (accepted : newLRU config = .ok lru) :
    ∃ shardCap more, 0 < shardCap.toNat ∧
      lru = ⟨newMemory, List.replicate (more + 1) (newLinkedShard shardCap config.ttl)⟩ := by
  unfold newLRU at accepted
  split at accepted
  · cases accepted
  · split at accepted
    · cases accepted
    · rename_i positive sharded
      cases accepted
      have some_shard := config.shards_pos positive (Int.not_le.mp sharded)
      refine ⟨_, config.shards - 1, (config.shardCap_spec positive (Int.not_le.mp sharded)).1, ?_⟩
      rw [Nat.sub_add_cancel some_shard]

/-- **The representation invariant of the LRU**: for a positive capacity and shard count `NewLRU`
builds shards that any run of operations keeps intact, within the configured capacity all
together, and every entry that is evicted for want of room was seen least recently. -/
theorem lru_intact (config : LRUConfig) (positive : config.capacity ≠ 0) (sharded : 0 < config.shardCount) :
    ∃ lru, newLRU config = .ok lru ∧ ∀ calls,
      let w := runFrom Watched.step (Watched.start lru) calls
      (∀ i s, w.lru.shards[i]? = some s → Intact w.lru (w.lastSeen i) s) ∧
        (w.lru.shards.map fun s => s.cache.size).sum ≤ config.capacity.toNat ∧
        Along Watched.step Watched.OldestEvicted (Watched.start lru) calls := by
  obtain ⟨roomy, total⟩ := config.shardCap_spec positive sharded
  generalize shared : config.capacity / UInt32.ofNat config.shards = shardCap at roomy total
  refine ⟨⟨newMemory, List.replicate config.shards (newLinkedShard shardCap config.ttl)⟩, ?_, fun calls => ?_⟩
  · simp only [newLRU, if_neg positive, if_neg (Int.not_le.mpr sharded), shared]
  have begins := Watched.inv_start (n := config.shards) roomy config.ttl
  intro w
  have run : (∃ ps, w.Inv ps) ∧
      w.lru.shards.map LinkedShard.capacity = List.replicate config.shards shardCap := by
    refine runFrom_invariant (I := fun _ w => (∃ ps, Watched.Inv w ps) ∧
      w.lru.shards.map LinkedShard.capacity = List.replicate config.shards shardCap)
      ⟨⟨_, begins⟩, List.map_replicate⟩ (fun _ t call kept => ?_) calls
    obtain ⟨⟨ps, inv⟩, capacities⟩ := kept
    obtain ⟨next, same, -⟩ := inv.step call
    exact ⟨next, same.trans capacities⟩
  obtain ⟨⟨ps, inv⟩, capacities⟩ := run
  have intact (i : Nat) (s : LinkedShard) (found : w.lru.shards[i]? = some s) : Intact w.lru (w.lastSeen i) s :=
    (inv i s found).intact.2
  refine ⟨intact, ?_, ?_⟩
  · calc (w.lru.shards.map fun s => s.cache.size).sum
      _ ≤ (w.lru.shards.map fun s => s.capacity.toNat).sum := by
        refine List.sum_le_sum fun s member => ?_
        obtain ⟨i, found⟩ := List.mem_iff_getElem?.mp member
        exact (intact i s found).bounded
      _ = ((w.lru.shards.map LinkedShard.capacity).map UInt32.toNat).sum := by rw [List.map_map]; rfl
      _ = config.shards * shardCap.toNat := by
        rw [capacities, List.map_replicate, List.sum_replicate, smul_eq_mul]
      _ ≤ config.capacity.toNat := total
  · exact along_of_invariant (I := fun w => ∃ ps, Watched.Inv w ps) (fun t call ⟨ps, inv⟩ => (inv.step call).1)
      (fun t call ⟨ps, inv⟩ => (inv.step call).2.2) ⟨_, begins⟩ calls

/-- Two shards of one entry each; an entry evicted from the first is used again in the second. -/
def recycled : List (Nat × LinkedOp) :=
  [(0, .seen [97] 2 0 0 0), (0, .seen [98] 4 1 0 7), (1, .seen [99] 3 2 0 0), (0, .seen [98] 4 3 0 0),
    (1, .delete 3), (0, .evictExpired 500)]

theorem lru_intact_recycled : ∃ lru, newLRU ⟨3, 100, 2⟩ = .ok lru ∧
    (∀ i s, (runFrom Watched.step (Watched.start lru) recycled).lru.shards[i]? = some s →
      Intact (runFrom Watched.step (Watched.start lru) recycled).lru
        ((runFrom Watched.step (Watched.start lru) recycled).lastSeen i) s) ∧
      Along Watched.step Watched.OldestEvicted (Watched.start lru) recycled := by
  obtain ⟨lru, built, runs⟩ := lru_intact ⟨3, 100, 2⟩ (by decide) (by decide)
  obtain ⟨intact, -, oldest⟩ := runs recycled
  exact ⟨lru, built, intact, oldest⟩

end Oryx.Evict
