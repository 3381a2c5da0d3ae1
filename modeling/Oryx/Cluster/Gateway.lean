import Oryx.Library.Runs
import Oryx.Entropy.Sync
import Oryx.Writer.Convergence

/-!
# Replicated writes

`Gateway.Set` and `Gateway.Delete` of `cluster/gateway/gateway.go`: one goroutine for
each owner applies the request there, locally or by a `Push` call, and reports its error
to a channel; the verdict is read off the fill of the channel once all have returned. A
single owner is written to without goroutines. The goroutines finish in any order, and
anything may happen at the nodes in between. A member of a mesh does not run in
single-node mode, so its `SyncPush` has a syncer; the transport hands errors on as they
are.
-/

namespace Oryx.Cluster
set_option autoImplicit false
open Oryx.Library Oryx.Hashmap Oryx.Writer

/-- `mesh.ReplicationFailureMode`, a string. -/
inductive ReplicationFailureMode where
  | strict
  | lenient
  | other (mode : Bytes)
  deriving DecidableEq, Repr

/-- What becomes of a `Push` call. -/
inductive Rpc where
  /-- it is not applied -/
  | lost (err : Error)
  /-- it is applied, but its answer is lost or too late -/
  | unanswered (err : Error)
  | answered
  deriving DecidableEq, Repr

/-- What a write to an owner meets: whether the local writer is registered, whether the
owner's address is known, the error of the connection, and the call. -/
structure Link where
  registered : Bool
  address : Bool
  client : Option Error
  rpc : Rpc
  deriving DecidableEq, Repr

structure Gateway where
  nodeID : NodeID
  mode : ReplicationFailureMode

/-- An owner's write has returned: its error, and the writer right after it was applied. -/
structure Finished (W C : Type) where
  owner : NodeID
  err : Option Error
  writer : StorageWriter W C

/-- A replicated write under way. -/
structure Fanout (W C : Type) where
  nodes : NodeID → StorageWriter W C
  errChan : List Error
  finished : List (Finished W C)

/-- The verdict of a full barrier, from the errors in the order they arrived. -/
def verdict (what : String) (mode : ReplicationFailureMode) (owners : Nat) (errChan : List Error) : Option Error :=
  let first := errChan.head?.getD (ascii "<nil>")
  match mode with
  | .lenient =>
    if errChan.length = owners then some (ascii ("direct " ++ what ++ " replication failed on all replicas: ") ++ first)
    else none
  | .strict =>
    if errChan.length ≠ 0 then some (ascii ("direct " ++ what ++ " replication failed on replicas: ") ++ first) else none
  | .other mode => some (ascii "unknown meshConfig.ReplicationFailureMode: " ++ mode)

section Writes

variable {W C : Type} [Security]

inductive FanoutAction (W C : Type) [Security] where
  /-- the write to an owner is applied and returns -/
  | finish (owner : NodeID) (link : Link)
  /-- anything else happens at a node -/
  | other (node : NodeID) (writer : StorageWriter W C) (inv : writer.hm.Inv hashFunc)

/-- The owners whose writes have returned. -/
def completed (actions : List (FanoutAction W C)) : List NodeID :=
  actions.filterMap fun
    | .finish owner _ => some owner
    | .other _ _ _ => none

variable [Waler W] [Clocker C]

def applyLocal (link : Link) (sw : StorageWriter W C) (r : Request) : Option Error × StorageWriter W C :=
  if link.registered then sw.apply r else (some (ascii "local state writer not registered yet"), sw)

/-- A `Push` of one request; the peer applies it and reports the first error. -/
def applyRemote (node : NodeID) (link : Link) (sw : StorageWriter W C) (r : Request) :
    Option Error × StorageWriter W C :=
  if link.address then
    match link.client, link.rpc with
    | some err, _ => (some err, sw)
    | none, .lost err => (some err, sw)
    | none, .unanswered err => (some err, (Entropy.applyAll sw [r]).2)
    | none, .answered => Entropy.applyAll sw [r]
  else (some (ascii "remote replica " ++ node ++ ascii " address not found"), sw)

namespace Gateway

variable (g : Gateway)

def applyAt (owner : NodeID) (link : Link) (sw : StorageWriter W C) (r : Request) : Option Error × StorageWriter W C :=
  if owner = g.nodeID then applyLocal link sw r else applyRemote owner link sw r

def step (r : Request) (s : Fanout W C) : FanoutAction W C → Fanout W C
  | .finish owner link =>
    let applied := g.applyAt owner link (s.nodes owner) r
    ⟨Function.update s.nodes owner applied.2, s.errChan ++ applied.1.toList,
      s.finished ++ [⟨owner, applied.1, applied.2⟩]⟩
  | .other node writer _ => { s with nodes := Function.update s.nodes node writer }

/-- The write of `r`, with everything that happens until the last owner's write returns. -/
def fanout (r : Request) (nodes : NodeID → StorageWriter W C) (actions : List (FanoutAction W C)) : Fanout W C :=
  runFrom (g.step r) ⟨nodes, [], []⟩ actions

/-- The error of a replicated write. -/
def replicate (what : String) (r : Request) (owners : List NodeID) (s : Fanout W C) : Option Error :=
  match owners with
  | [] => some (ascii "no replica owners found for key: " ++ r.key)
  | [_] => s.finished.head?.bind Finished.err
  | _ => verdict what g.mode owners.length s.errChan

def setRequest (key : Key) (value : Bytes) (ts : Int64) : Request := .set ⟨key, value, ts, g.nodeID⟩

def deleteRequest (key : Key) (ts : Int64) : Request := .delete ⟨key, ts, g.nodeID⟩

def set (key : Key) (value : Bytes) (ts : Int64) (owners : List NodeID) (nodes : NodeID → StorageWriter W C)
    (actions : List (FanoutAction W C)) : Option Error :=
  g.replicate "write" (g.setRequest key value ts) owners (g.fanout (g.setRequest key value ts) nodes actions)

/-- `exists` of the gateway: its own map first, then the other owners; `probe` is what
`proxyGetRemote` answers. -/
def keyExists (registered : Bool) (sw : StorageWriter W C) (probe : NodeID → Except Error (Option Bytes)) (key : Key)
    (owners : List NodeID) : Bool :=
  (owners.contains g.nodeID && registered &&
    ((sw.hm.load key (hashFunc key)).any fun val => !val.tombstone)) ||
  owners.any fun owner => owner ≠ g.nodeID && ((probe owner).toOption.join).isSome

/-- The key is looked for before the tombstone is written. -/
def delete (registered : Bool) (probe : NodeID → Except Error (Option Bytes)) (key : Key) (ts : Int64)
    (owners : List NodeID) (nodes : NodeID → StorageWriter W C) (actions : List (FanoutAction W C)) :
    Bool × Option Error :=
  let existed := g.keyExists registered (nodes g.nodeID) probe key owners
  let err := g.replicate "delete" (g.deleteRequest key ts) owners (g.fanout (g.deleteRequest key ts) nodes actions)
  match owners with
  | [] => (false, err)
  | [_] => (existed, err)
  | _ => (err.isNone && existed, err)

end Gateway

/-! ## One owner -/

/-- After the write the owner's map has a record of the key that is not older than `r`. -/
def Finished.Holds (r : Request) (f : Finished W C) : Prop :=
  ∃ v, f.writer.hm.cell hashFunc r.key = some v ∧ rank (record r) ≤ rank v

/-- How a write to an owner can go. -/
inductive Applied (sw : StorageWriter W C) (r : Request) : Option Error × StorageWriter W C → Prop
  | failed (err : Error) : Applied sw r (some err, sw)
  | unanswered (err : Error) : Applied sw r (some err, (sw.apply r).2)
  | answered : Applied sw r (sw.apply r)

theorem applyAll_singleton (sw : StorageWriter W C) (r : Request) : Entropy.applyAll sw [r] = sw.apply r := by
  rcases applied : sw.apply r with ⟨_ | err, sw'⟩ <;> simp [Entropy.applyAll, applied]

theorem Gateway.applyAt_applied (g : Gateway) (owner : NodeID) (link : Link) (sw : StorageWriter W C) (r : Request) :
    Applied sw r (g.applyAt owner link sw r) := by
  rw [applyAt]
  split
  · rw [applyLocal]
    split
    · exact .answered
    · exact .failed _
  · rw [applyRemote, applyAll_singleton]
    split
    · split
      · exact .failed _
      · exact .failed _
      · exact .unanswered _
      · exact .answered
    · exact .failed _

theorem Applied.inv {sw : StorageWriter W C} {r : Request} {result : Option Error × StorageWriter W C}
    (applied : Applied sw r result) (inv : sw.hm.Inv hashFunc) : result.2.hm.Inv hashFunc := by
  have merged : (sw.apply r).2.hm.Inv hashFunc := sw.hm_apply r ▸ inv_merge inv r
  cases applied with
  | failed err => exact inv
  | unanswered err => exact merged
  | answered => exact merged

/-- **An owner that reports success** holds the record or a later one, a stale write included. -/
theorem Applied.holds {sw : StorageWriter W C} {r : Request} {result : Option Error × StorageWriter W C}
    (applied : Applied sw r result) (inv : sw.hm.Inv hashFunc) (owner : NodeID) (ok : result.1 = none) :
    (Finished.mk owner result.1 result.2).Holds r := by
  cases applied with
  | failed err => cases ok
  | unanswered err => cases ok
  | answered =>
    rw [Finished.Holds, sw.hm_apply, cell_merge inv, Function.update_self]
    apply LastWriter.exists_adopt

/-! ## The barrier -/

/-- What holds while the owners' writes return. -/
structure Tallied (r : Request) (past : List (FanoutAction W C)) (s : Fanout W C) : Prop where
  inv : ∀ n, (s.nodes n).hm.Inv hashFunc
  errors : s.errChan = s.finished.filterMap Finished.err
  owners : s.finished.map Finished.owner = completed past
  holds : ∀ f ∈ s.finished, f.err = none → f.Holds r

theorem Tallied.step {r : Request} {past : List (FanoutAction W C)} {s : Fanout W C} (tallied : Tallied r past s)
    (g : Gateway) (a : FanoutAction W C) : Tallied r (past ++ [a]) (g.step r s a) := by
  have invs {node : NodeID} {sw : StorageWriter W C} (inv : sw.hm.Inv hashFunc) (n : NodeID) :
      (Function.update s.nodes node sw n).hm.Inv hashFunc := by
    by_cases here : n = node
    · rwa [here, Function.update_self]
    · rw [Function.update_of_ne here]
      exact tallied.inv n
  cases a with
  | other node writer inv =>
    refine ⟨invs inv, tallied.errors, ?_, tallied.holds⟩
    rw [Gateway.step, tallied.owners]
    simp [completed]
  | finish owner link =>
    have applied := g.applyAt_applied owner link (s.nodes owner) r
    refine ⟨invs (applied.inv (tallied.inv owner)), ?_, ?_, fun f member ok => ?_⟩
    · rw [Gateway.step, tallied.errors, List.filterMap_append]
      refine congrArg (_ ++ ·) ?_
      cases (g.applyAt owner link (s.nodes owner) r).1 <;> rfl
    · rw [Gateway.step, List.map_append, tallied.owners]
      simp [completed]
    · rcases List.mem_append.mp member with old | last
      · exact tallied.holds f old ok
      · obtain rfl := List.mem_singleton.mp last
        exact applied.holds (tallied.inv owner) owner ok

theorem tallied_fanout (g : Gateway) (r : Request) {nodes : NodeID → StorageWriter W C}
    (inv : ∀ n, (nodes n).hm.Inv hashFunc) (actions : List (FanoutAction W C)) :
    Tallied r actions (g.fanout r nodes actions) :=
  runFrom_invariant (I := Tallied r) ⟨inv, rfl, rfl, by simp⟩ (fun _ _ a tallied => tallied.step g a) actions

/-! ## Verdicts -/

/-- What the answer of a replicated write says about its owners. -/
structure Acknowledges (g : Gateway) (what : String) (r : Request) (owners : List NodeID) (s : Fanout W C)
    (err : Option Error) : Prop where
  once : (s.finished.map Finished.owner).Perm owners
  strict_nil : g.mode = .strict → err = none → ∀ f ∈ s.finished, f.Holds r
  lenient_nil : g.mode = .lenient → err = none → ∃ f ∈ s.finished, f.Holds r
  strict_error : g.mode = .strict → err ≠ none → ∃ f ∈ s.finished, f.err ≠ none
  lenient_error : g.mode = .lenient → err ≠ none → ∀ f ∈ s.finished, f.err ≠ none
  /-- the single-owner path gives the verdict of the general one -/
  fast : g.mode = .strict ∨ g.mode = .lenient → err.isSome = (verdict what g.mode owners.length s.errChan).isSome

omit [Waler W] [Clocker C] in
/-- In either mode a path that reports an error exactly when the barrier does. -/
theorem Tallied.acknowledges {r : Request} {actions : List (FanoutAction W C)} {s : Fanout W C}
    (tallied : Tallied r actions s) {g : Gateway} {what : String} {owners : List NodeID}
    (barrier : (completed actions).Perm owners) {err : Option Error}
    (fast : g.mode = .strict ∨ g.mode = .lenient → err.isSome = (verdict what g.mode owners.length s.errChan).isSome) :
    Acknowledges g what r owners s err := by
  have size : s.finished.length = owners.length := by
    rw [← barrier.length_eq, ← tallied.owners, List.length_map]
  have strict (mode : g.mode = .strict) : err.isSome = true ↔ s.errChan.length ≠ 0 := by
    rw [fast (Or.inl mode), mode, verdict]
    split <;> simp_all
  have lenient (mode : g.mode = .lenient) : err.isSome = true ↔ ∀ f ∈ s.finished, f.err.isSome = true := by
    rw [fast (Or.inr mode), mode, verdict, ← List.filterMap_length_eq_length, ← tallied.errors, size]
    split <;> simp_all
  refine ⟨tallied.owners ▸ barrier, fun mode nil f member => ?_, fun mode nil => ?_, fun mode failed => ?_,
    fun mode failed f member => ?_, fast⟩
  · have clean : s.errChan = [] := by
      by_contra some
      have := (strict mode).mpr (List.length_eq_zero_iff.not.mpr some)
      simp [nil] at this
    rw [tallied.errors, List.filterMap_eq_nil_iff] at clean
    exact tallied.holds f member (clean f member)
  · have some : ¬∀ f ∈ s.finished, f.err.isSome = true := by
      rw [← lenient mode, nil]
      exact Bool.false_ne_true
    simp only [not_forall, exists_prop] at some
    obtain ⟨f, member, ok⟩ := some
    exact ⟨f, member, tallied.holds f member (by simpa using ok)⟩
  · have full := (strict mode).mp (Option.isSome_iff_ne_none.mpr failed)
    obtain ⟨e, member⟩ := List.exists_mem_of_ne_nil _ (List.length_eq_zero_iff.not.mp full)
    rw [tallied.errors, List.mem_filterMap] at member
    obtain ⟨f, member, err⟩ := member
    exact ⟨f, member, by simp [err]⟩
  · exact Option.isSome_iff_ne_none.mp ((lenient mode).mp (Option.isSome_iff_ne_none.mpr failed) f member)

omit [Waler W] [Clocker C] in
/-- The error of a replicated write is the barrier's, or the one owner's own. -/
theorem Tallied.replicate_isSome {r : Request} {actions : List (FanoutAction W C)} {s : Fanout W C}
    (tallied : Tallied r actions s) {g : Gateway} (what : String) {owners : List NodeID} (nonempty : owners ≠ [])
    (barrier : (completed actions).Perm owners) (known : g.mode = .strict ∨ g.mode = .lenient) :
    (g.replicate what r owners s).isSome = (verdict what g.mode owners.length s.errChan).isSome := by
  match owners with
  | [] => exact absurd rfl nonempty
  | [owner] =>
    obtain ⟨f, only⟩ : ∃ f, s.finished = [f] := by
      rw [← List.length_eq_one_iff, ← List.length_map Finished.owner, tallied.owners, barrier.length_eq]
      rfl
    have errors := tallied.errors
    rw [only] at errors
    rw [Gateway.replicate, only, errors]
    cases err : f.err <;> rcases known with mode | mode <;> simp [mode, err, verdict]
  | first :: second :: rest => rfl

/-- **Acknowledgement means replication**: for every list of owners, every failure mode,
every outcome of the owners' writes and every order in which they return, the answers of
`Set` and `Delete` say what the owners hold right after their writes. -/
theorem acknowledged_writes (g : Gateway) {owners : List NodeID} (nonempty : owners ≠ [])
    {nodes : NodeID → StorageWriter W C} (inv : ∀ n, (nodes n).hm.Inv hashFunc)
    {actions : List (FanoutAction W C)} (barrier : (completed actions).Perm owners) (key : Key) (value : Bytes) (ts : Int64)
    (registered : Bool) (probe : NodeID → Except Error (Option Bytes)) :
    Acknowledges g "write" (g.setRequest key value ts) owners (g.fanout (g.setRequest key value ts) nodes actions)
      (g.set key value ts owners nodes actions) ∧
    Acknowledges g "delete" (g.deleteRequest key ts) owners (g.fanout (g.deleteRequest key ts) nodes actions)
      (g.delete registered probe key ts owners nodes actions).2 := by
  have answer : (g.delete registered probe key ts owners nodes actions).2 =
      g.replicate "delete" (g.deleteRequest key ts) owners (g.fanout (g.deleteRequest key ts) nodes actions) := by
    match owners with
    | [] => rfl
    | [_] => rfl
    | _ :: _ :: _ => rfl
  have tallied (r : Request) := tallied_fanout g r inv actions
  rw [answer]
  exact ⟨(tallied _).acknowledges barrier ((tallied _).replicate_isSome "write" nonempty barrier),
    (tallied _).acknowledges barrier ((tallied _).replicate_isSome "delete" nonempty barrier)⟩

end Writes

open Reference

/-- A healthy connection, and one whose call times out after it was applied. -/
def healthy : Link := ⟨true, true, none, .answered⟩
def answeredTooLate : Link := ⟨true, true, none, .unanswered (ascii "context deadline exceeded")⟩

/-- Two owners in lenient mode, one of them too late: the write is acknowledged. -/
theorem acknowledged_writes_lenient :
    let g : Gateway := ⟨[97], .lenient⟩
    let nodes : NodeID → StorageWriter NopWal MockStorageClock := fun _ => newStorageWriter newShardedMap ⟨⟩ ⟨0⟩
    let actions : List (FanoutAction NopWal MockStorageClock) := [.finish [98] answeredTooLate, .finish [97] healthy]
    g.set [107] [1] 5 [[97], [98]] nodes actions = none ∧
      ∃ f ∈ (g.fanout (g.setRequest [107] [1] 5) nodes actions).finished, f.Holds (g.setRequest [107] [1] 5) := by
  intro g nodes actions
  have inv (n : NodeID) : (nodes n).hm.Inv hashFunc := ShardedMap.inv_new hashFunc
  have barrier : (completed actions).Perm [[97], [98]] := List.Perm.swap ..
  have ok : g.set [107] [1] 5 [[97], [98]] nodes actions = none := by decide +kernel
  exact ⟨ok, (acknowledged_writes g (by decide) inv barrier [107] [1] 5 true fun _ => .ok none).1.lenient_nil rfl ok⟩

end Oryx.Cluster
