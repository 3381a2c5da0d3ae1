import Oryx.Library.Linearizable
import Oryx.Library.Runs
import Oryx.Engine.Operations

/-!
# Overlapping calls on one engine

Any number of calls of `Get`, `Set`, `Delete`, `ApplySet`, `ApplyDelete` and `Evict`
in flight at once, each at its own place in the code. A step of a call is one access
to what the calls share: a load from the map, `clock.Now`, `clock.Update`, a write to
the map, a `Publish`. The state also keeps the history of the clients' calls and
answers and the timestamps drawn so far, which no step reads.
-/

namespace Oryx.Core
set_option autoImplicit false
open Oryx.Library Oryx.Hashmap Oryx.Writer

/-- What a client asks for. -/
inductive Op where
  | get (key : Key)
  | set (key : Key) (value : Bytes)
  | delete (key : Key)
  deriving DecidableEq, Repr

/-- What a client is told, an error of the log apart. -/
inductive Answer where
  | value (data : Option Bytes)
  | ok
  | deleted (found : Bool)
  deriving DecidableEq, Repr

inductive Call where
  | op (op : Op)
  /-- `ApplySet` or `ApplyDelete` -/
  | apply (r : Request)
  | evict (key : Key) (reason : Reason)
  deriving DecidableEq, Repr

/-- Where a call is: the access it makes next. -/
inductive Pc where
  | fresh
  | getLoad (key : Key)
  | setNow (key : Key) (value : Bytes)
  | deleteLoad (key : Key)
  | deleteNow (key : Key)
  | evictNow (key : Key) (reason : Reason)
  /-- in `ApplySet` or `ApplyDelete`, with the answer of a client's call that made it -/
  | update (res : Option Answer) (r : Request)
  | store (res : Option Answer) (r : Request)
  | publish (res : Option Answer) (r : Request)
  | evictStore (reason : Reason) (req : DeleteRequest)
  | evictPublish (req : DeleteRequest)
  | returning (res : Option Answer) (err : Option Error)
  | finished
  deriving DecidableEq, Repr

namespace Pc

def first : Call → Pc
  | .op (.get key) => .getLoad key
  | .op (.set key value) => .setNow key value
  | .op (.delete key) => .deleteLoad key
  | .apply r => .update none r
  | .evict key reason => .evictNow key reason

/-- The next access is `clock.Now`. -/
def draws : Pc → Bool
  | .setNow _ _ | .deleteNow _ | .evictNow _ _ => true
  | _ => false

/-- The request that a call is going to store, and the answer it will give. -/
def write : Pc → Option (Option Answer × Request)
  | .update res r | .store res r => some (res, r)
  | _ => none

/-- The key that a `Delete` is going to look for. -/
def seeks : Pc → Option Key
  | .deleteLoad key => some key
  | _ => none

/-- The eviction that a call is going to perform on the map. -/
def evicts : Pc → Option (Reason × DeleteRequest)
  | .evictStore reason req => some (reason, req)
  | _ => none

/-- A capacity eviction that has not reached the map. -/
def forgets : Pc → Bool
  | .evictNow _ .capacity | .evictStore .capacity _ => true
  | _ => false

/-- A `Delete` of the key that has found it and has not stored its tombstone. -/
def deleting (key : Key) : Pc → Bool
  | .deleteNow key' => key' = key
  | .update (some (.deleted true)) r | .store (some (.deleted true)) r => r.key = key
  | _ => false

theorem deleting_store (key : Key) (res : Option Answer) (r : Request) :
    (Pc.store res r).deleting key = (Pc.update res r).deleting key := by
  unfold deleting
  split <;> simp_all

end Pc

structure Callers (count : Nat) (C I : Type) where
  eng : Engine count C
  pcs : I → Pc
  history : List (HistoryEvent I Op Answer)
  drawn : List Int64

inductive CallAction (I : Type) where
  | call (id : I) (c : Call)
  | run (id : I)

section Machine

variable {count : Nat} {C I : Type} [NeZero count] [DecidableEq I] [Security] [Proto] [Clocker C]

namespace Callers

def goto (s : Callers count C I) (id : I) (pc : Pc) : Callers count C I :=
  { s with pcs := Function.update s.pcs id pc }

/-- `clock.Now`. -/
def tick (s : Callers count C I) (id : I) (next : Int64 → Pc) : Callers count C I :=
  { s with
    eng := s.eng.tick.2
    pcs := Function.update s.pcs id (next s.eng.tick.1)
    drawn := s.drawn ++ [s.eng.tick.1] }

/-- A call begins. Every call has a name of its own. -/
def call (s : Callers count C I) (id : I) (c : Call) : Callers count C I :=
  match s.pcs id, c with
  | .fresh, .op op => { s.goto id (Pc.first c) with history := s.history ++ [.call id op] }
  | .fresh, _ => s.goto id (Pc.first c)
  | _, _ => s

/-- The next access of a call, or its return. -/
def run (s : Callers count C I) (id : I) : Callers count C I :=
  match s.pcs id with
  | .fresh | .finished => s
  | .getLoad key => s.goto id (.returning (some (.value (s.eng.get key))) none)
  | .setNow key value => s.tick id fun ts => .update (some .ok) (.set ⟨key, value, ts, s.eng.nodeID⟩)
  | .deleteLoad key =>
    s.goto id (if s.eng.live key then .deleteNow key else .returning (some (.deleted false)) none)
  | .deleteNow key => s.tick id fun ts => .update (some (.deleted true)) (.delete ⟨key, ts, s.eng.nodeID⟩)
  | .evictNow key reason => s.tick id fun ts => .evictStore reason ⟨key, ts, s.eng.nodeID⟩
  | .update res r =>
    { s.goto id (.store res r) with
      eng := { s.eng with sw := { s.eng.sw with clock := Clocker.update s.eng.sw.clock r.timestamp } } }
  | .store res r =>
    { s.goto id (if (merge s.eng.sw.hm r).2 then .publish res r else .returning res none) with
      eng := { s.eng with sw := { s.eng.sw with hm := (merge s.eng.sw.hm r).1 } } }
  | .publish res r =>
    { s.goto id (.returning res (s.eng.sw.publish (verb r) r).1) with
      eng := { s.eng with sw := (s.eng.sw.publish (verb r) r).2 } }
  | .evictStore reason req => { s.goto id (.evictPublish req) with eng := s.eng.evictMap reason req }
  | .evictPublish req =>
    { s.goto id (.returning none (s.eng.publish (.delete req)).1) with eng := (s.eng.publish (.delete req)).2 }
  | .returning (some res) _ => { s.goto id .finished with history := s.history ++ [.ret id res] }
  | .returning none _ => s.goto id .finished

def step (s : Callers count C I) : CallAction I → Callers count C I
  | .call id c => s.call id c
  | .run id => s.run id

/-- An engine on which nothing has been called yet. -/
def start (eng : Engine count C) : Callers count C I := ⟨eng, fun _ => .fresh, [], []⟩

/-- What one step does to the map. -/
inductive MapStep (s : Callers count C I) (a : CallAction I) : ShardedMap → Prop where
  | kept : MapStep s a s.eng.sw.hm
  | stored {id : I} {res : Option Answer} {r : Request} (acts : a = .run id) (here : s.pcs id = .store res r) :
    MapStep s a (merge s.eng.sw.hm r).1
  | evicted {id : I} {reason : Reason} {req : DeleteRequest} (acts : a = .run id)
    (here : s.pcs id = .evictStore reason req) : MapStep s a (s.eng.evictMap reason req).sw.hm

theorem hm_step (s : Callers count C I) (a : CallAction I) : s.MapStep a (s.step a).eng.sw.hm := by
  cases a with
  | call id c =>
    have same : (s.call id c).eng = s.eng := by
      simp only [call]
      split <;> rfl
    rw [step, same]
    exact .kept
  | run id =>
    cases here : s.pcs id with
    | store res r =>
      simp only [step, run, here]
      exact .stored rfl here
    | evictStore reason req =>
      simp only [step, run, here]
      exact .evicted rfl here
    | returning res err => cases res <;> simp only [step, run, here] <;> exact .kept
    | _ =>
      simp only [step, run, here]
      exact .kept

theorem inv_step {s : Callers count C I} (inv : s.eng.sw.hm.Inv hashFunc) (a : CallAction I) :
    (s.step a).eng.sw.hm.Inv hashFunc := by
  have moves := hm_step s a
  generalize (s.step a).eng.sw.hm = hm at moves
  cases moves with
  | kept => exact inv
  | stored acts here => exact inv_merge inv _
  | evicted acts here => exact (Engine.evictMap_spec inv _ _).1

/-! ## Calls that nobody interrupts -/

end Callers

/-- A call as one piece: the operations of the engine. -/
def Engine.perform (eng : Engine count C) : Call → (Option Answer × Option Error) × Engine count C
  | .op (.get key) => ((some (.value (eng.get key)), none), eng)
  | .op (.set key value) => ((some .ok, (eng.set key value).1), (eng.set key value).2)
  | .op (.delete key) => ((some (.deleted (eng.delete key).1.1), (eng.delete key).1.2), (eng.delete key).2)
  | .apply r => ((none, (eng.apply r).1), (eng.apply r).2)
  | .evict key reason => ((none, (eng.evict key reason).1), (eng.evict key reason).2)

namespace Callers

/-- The steps of `ApplySet` and `ApplyDelete` one after the other. -/
theorem run_update {s : Callers count C I} {id : I} {res : Option Answer} {r : Request}
    (here : s.pcs id = .update res r) :
    ∃ n, runFrom step s (List.replicate n (.run id)) =
      { s.goto id (.returning res (s.eng.apply r).1) with eng := (s.eng.apply r).2 } := by
  cases accepted : (merge s.eng.sw.hm r).2 with
  | false =>
    refine ⟨2, ?_⟩
    simp [runFrom, List.replicate, step, run, goto, here, Engine.apply, StorageWriter.apply_eq, StorageWriter.persist,
      StorageWriter.store, accepted]
  | true =>
    refine ⟨3, ?_⟩
    simp [runFrom, List.replicate, step, run, goto, here, Engine.apply, StorageWriter.apply_eq, StorageWriter.persist,
      StorageWriter.store, StorageWriter.publish, accepted]

/-- A client's write draws its timestamp first and is an `Apply` from there on. -/
theorem run_draw {s : Callers count C I} {id : I} {res : Option Answer} {r : Int64 → Request}
    (draws : s.run id = s.tick id fun ts => .update res (r ts)) :
    ∃ n, runFrom step s (List.replicate n (.run id)) =
      { (s.tick id fun ts => .update res (r ts)).goto id (.returning res (s.eng.tick.2.apply (r s.eng.tick.1)).1) with
        eng := (s.eng.tick.2.apply (r s.eng.tick.1)).2 } := by
  have there : (s.tick id fun ts => .update res (r ts)).pcs id = .update res (r s.eng.tick.1) :=
    Function.update_self ..
  obtain ⟨n, rest⟩ := run_update there
  refine ⟨n + 1, ?_⟩
  rw [List.replicate_succ]
  show runFrom step (s.run id) _ = _
  rw [draws]
  exact rest

/-- **A call that nobody interrupts** does what the engine's operation does, and is
about to return what the operation returns. -/
theorem run_call {s : Callers count C I} {id : I} {c : Call} (here : s.pcs id = Pc.first c) :
    ∃ n, (runFrom step s (List.replicate n (.run id))).eng = (s.eng.perform c).2 ∧
      (runFrom step s (List.replicate n (.run id))).pcs id =
        .returning (s.eng.perform c).1.1 (s.eng.perform c).1.2 := by
  match c with
  | .op (.get key) => exact ⟨1, by simp [runFrom, step, run, here, Pc.first, goto, Engine.perform]⟩
  | .op (.set key value) =>
    have draws : s.run id = s.tick id fun ts => .update (some .ok) (.set ⟨key, value, ts, s.eng.nodeID⟩) := by
      simp only [run, here, Pc.first]
    obtain ⟨n, rest⟩ := run_draw draws
    exact ⟨n, by rw [rest]; rfl, by rw [rest]; simp [goto, Engine.perform, Engine.set]⟩
  | .op (.delete key) =>
    by_cases found : s.eng.live key = true
    · have moved : s.run id = s.goto id (.deleteNow key) := by simp [run, here, Pc.first, found]
      have draws : (s.goto id (.deleteNow key)).run id = (s.goto id (.deleteNow key)).tick id fun ts =>
          .update (some (.deleted true)) (.delete ⟨key, ts, s.eng.nodeID⟩) := by
        simp [run, goto]
      obtain ⟨n, rest⟩ := run_draw draws
      have whole : runFrom step s (List.replicate (n + 1) (.run id)) =
          runFrom step (s.run id) (List.replicate n (.run id)) := by
        rw [List.replicate_succ]
        rfl
      refine ⟨n + 1, ?_⟩
      rw [whole, moved, rest]
      exact ⟨by simp [goto, Engine.perform, Engine.delete_live found],
        by simp [goto, Engine.perform, Engine.delete_live found]⟩
    · refine ⟨1, ?_⟩
      simp [runFrom, step, run, here, Pc.first, found, goto, Engine.perform, Engine.delete_absent found]
  | .apply r =>
    obtain ⟨n, rest⟩ := run_update here
    exact ⟨n, by rw [rest]; rfl, by rw [rest]; simp [goto, Engine.perform]⟩
  | .evict key reason =>
    refine ⟨3, ?_⟩
    simp [runFrom, List.replicate, step, run, here, Pc.first, tick, goto, Engine.perform, Engine.evict]

end Callers

end Machine

end Oryx.Core
