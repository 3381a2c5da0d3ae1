import Oryx.Clock.System
import Oryx.Wal.Protobuf
import Oryx.Engine.Calls
import Oryx.Evict.Shard

/-!
# Writes after the victim was chosen

Clients on one engine next to the goroutine of an LRU shard. The shard chooses a victim
and queues a message; an iteration that takes the message calls `Evict` with the key and
nothing else. Whatever was written to the key in between is removed. The calls of the
clients overlap at every access they make; accesses and deletions may be published to
the shard at any time. The state also keeps what each call asked for and, for every key,
the last value that a `Set` completed with since the last decision to evict the key, unless
a `Delete` has put its tombstone over it.
-/

namespace Oryx.Evict
set_option autoImplicit false
open Oryx.Library Oryx.Hashmap Oryx.Writer Oryx.Core Oryx.Hlc

structure Cached (count : Nat) (C I : Type) where
  callers : Callers count C I
  shard : LruShard
  asked : I → Option Core.Op
  since : Key → Option Bytes

inductive CacheAction (I : Type) where
  | call (id : I) (op : Core.Op)
  | run (id : I)
  | publish (key : Key) (coin rand : UInt32)
  | publishDelete (key : Key)
  | stop
  | iterate (case : Ready)

section LateWrites

variable {count : Nat} {C I : Type} [NeZero count] [DecidableEq I] [Security] [Proto] [Clocker C]

namespace Cached

/-- What a client's step says about late writes: a `Set` returns, or a `Delete` stores its
tombstone. A `Delete` that finds nothing, or whose tombstone is stale, removes nothing. -/
def note (s : Cached count C I) (id : I) : Key → Option Bytes :=
  match s.asked id, s.callers.pcs id with
  | some (.set key value), .returning _ _ => Function.update s.since key (some value)
  | some (.delete key), .store _ r =>
    if (merge s.callers.eng.sw.hm r).2 then Function.update s.since key none else s.since
  | _, _ => s.since

/-- The keys that the shard has just decided to evict. -/
def chosen (s s' : LruShard) : List Key := (s'.evictCh.drop s.evictCh.length).map EvictMsg.key

def step (s : Cached count C I) : CacheAction I → Cached count C I
  | .call id op =>
    { s with
      callers := s.callers.call id (.op op)
      asked := if s.callers.pcs id = .fresh then Function.update s.asked id (some op) else s.asked }
  | .run id => { s with callers := s.callers.run id, since := s.note id }
  | .publish key coin rand => { s with shard := s.shard.publish key (hashFunc key) coin rand }
  | .publishDelete key => { s with shard := s.shard.publishDelete (hashFunc key) }
  | .stop => { s with shard := s.shard.stop }
  | .iterate case =>
    { s with
      shard := (s.shard.iterate case).1
      since := fun key => if key ∈ chosen s.shard (s.shard.iterate case).1 then none else s.since key
      callers := match (s.shard.iterate case).2 with
        | some msg => { s.callers with eng := (s.callers.eng.evict msg.key msg.reason).2 }
        | none => s.callers }

def start (eng : Engine count C) (shardCap : UInt32) (ttl : Int) : Cached count C I :=
  ⟨Callers.start eng, newShard shardCap ttl, fun _ => none, fun _ => none⟩

/-- The message that the step hands to `Evict`. -/
def handed (s : Cached count C I) : CacheAction I → Option EvictMsg
  | .iterate case => (s.shard.iterate case).2
  | _ => none

/-- What a `Set` wrote after the decision to evict its key is still there after `Evict`. -/
def Spares (s : Cached count C I) (a : CacheAction I) : Prop :=
  ∀ msg ∈ s.handed a, ∀ value ∈ s.since msg.key, (s.step a).callers.eng.get msg.key = some value

/-- Nothing was written to the key since the decision to evict it. -/
def Unwritten (s : Cached count C I) (a : CacheAction I) : Prop :=
  ∀ msg ∈ s.handed a, s.since msg.key = none

variable {s : Cached count C I} {a : CacheAction I}

/-- After `Evict` the key is gone, whatever was there. -/
theorem get_evict {eng : Engine count C} (inv : eng.sw.hm.Inv hashFunc) (key : Key) (reason : Reason) :
    (eng.evict key reason).2.sw.hm.Inv hashFunc ∧ (eng.evict key reason).2.get key = none := by
  have ticked : eng.tick.2.sw.hm.Inv hashFunc := inv
  obtain ⟨after, cells⟩ := Engine.evictMap_spec ticked reason ⟨key, eng.tick.1, eng.nodeID⟩
  have whole : (eng.evict key reason).2.sw.hm = (eng.tick.2.evictMap reason ⟨key, eng.tick.1, eng.nodeID⟩).sw.hm := rfl
  rw [← whole] at after cells
  refine ⟨after, ?_⟩
  rw [Engine.get_eq after, cells, Function.update_self]
  cases reason <;> rfl

theorem inv_step (inv : s.callers.eng.sw.hm.Inv hashFunc) (a : CacheAction I) :
    (s.step a).callers.eng.sw.hm.Inv hashFunc := by
  cases a with
  | call id op => exact Callers.inv_step inv (.call id (.op op))
  | run id => exact Callers.inv_step inv (.run id)
  | publish key coin rand => exact inv
  | publishDelete key => exact inv
  | stop => exact inv
  | iterate case =>
    rw [step]
    cases (s.shard.iterate case).2 with
    | none => exact inv
    | some msg => exact (get_evict inv msg.key msg.reason).1

/-- **One step** spares late writes exactly when there are none. -/
theorem spares_iff_unwritten (inv : s.callers.eng.sw.hm.Inv hashFunc) : s.Spares a ↔ s.Unwritten a := by
  constructor
  · intro spares msg handed
    rw [Option.eq_none_iff_forall_not_mem]
    intro value late
    have found := spares msg handed value late
    cases a with
    | iterate case =>
      have calls : (s.step (.iterate case)).callers.eng = (s.callers.eng.evict msg.key msg.reason).2 := by
        have isHanded : (s.shard.iterate case).2 = some msg := handed
        simp only [step, isHanded]
      rw [calls, (get_evict inv msg.key msg.reason).2] at found
      cases found
    | call | run | publish | publishDelete | stop => cases handed
  · intro unwritten msg handed value late
    rw [unwritten msg handed] at late
    cases late

/-- **Evictions spare late writes** in a run, at every step, exactly when no message is
handed to `Evict` for a key that a `Set` has completed on since the decision. -/
theorem spares_iff (config : Config) (clock : C) (disk : Disk) (choices : Choices) (shardCap : UInt32) (ttl : Int)
    (actions : List (CacheAction I)) :
    let s : Cached count C I := start (newEngine count config clock disk choices) shardCap ttl
    Along step Spares s actions ↔ Along step Unwritten s actions := by
  intro s
  have begins : s.callers.eng.sw.hm.Inv hashFunc := newEngine_inv config clock disk choices
  constructor
  · exact Along.imp (I := fun s => s.callers.eng.sw.hm.Inv hashFunc) (fun s a inv _ => inv_step inv a)
      (fun s a inv spares => (spares_iff_unwritten inv).mp spares) begins
  · exact Along.imp (I := fun s => s.callers.eng.sw.hm.Inv hashFunc) (fun s a inv _ => inv_step inv a)
      (fun s a inv unwritten => (spares_iff_unwritten inv).mpr unwritten) begins

instance (s : Cached count C I) (a : CacheAction I) : Decidable (s.Unwritten a) :=
  inferInstanceAs (Decidable (∀ msg ∈ s.handed a, s.since msg.key = none))

end Cached

end LateWrites

open Reference Protobuf

/-- A client's call from its beginning to its end. -/
def clientCall (id : Fin 3) (op : Core.Op) : List (CacheAction (Fin 3)) :=
  .call id op :: List.replicate 5 (.run id)

/-- In a shard with room for one entry, an access to a second key chooses the first as
the victim. -/
def firstChosen : List (CacheAction (Fin 3)) :=
  clientCall 0 (.set [97] [1]) ++ [.publish [97] 0 0, .iterate (.access 0 0)] ++
    clientCall 1 (.set [98] [2]) ++ [.publish [98] 0 0, .iterate (.access 1 0)]

def smallCache : Cached 1 SystemClock (Fin 3) :=
  .start (newEngine 1 durable steadyClock (.logOnly fun _ => []) .plain) 1 1000000000

theorem spares_iff_in_order :
    Along Cached.step Cached.Spares smallCache (firstChosen ++ .iterate .evict :: clientCall 2 (.set [97] [3])) :=
  (Cached.spares_iff durable steadyClock (.logOnly fun _ => []) .plain 1 1000000000 _).mpr (by decide +kernel)

/-- **A late write is lost**: the first key is set again before the message for it is
taken, and the message removes what was written. -/
theorem evict_removes_late_write :
    let s := runFrom Cached.step smallCache (firstChosen ++ clientCall 2 (.set [97] [3]))
    s.shard.evictCh = [⟨[97], .capacity⟩] ∧ s.since [97] = some [3] ∧ s.callers.eng.get [97] = some [3] ∧
      (s.step (.iterate .evict)).callers.eng.get [97] = none := by
  decide +kernel

end Oryx.Evict
