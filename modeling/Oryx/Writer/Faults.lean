import Oryx.Library.Runs
import Oryx.Wal.Protobuf
import Oryx.Wal.Replay
import Oryx.Writer.Convergence

/-!
# Publishing to a log that fails

A log whose `Publish` fails on some calls and then writes nothing. `ApplySet` and
`ApplyDelete` change the map before they publish and do not take the change back,
so a failed call leaves the map ahead of the log, and the same request sent again
is stale: it returns nil and is never logged.
-/

namespace Oryx.Writer
set_option autoImplicit false
open Oryx.Library Oryx.Hashmap

section Faults

variable {count : Nat} {C : Type} [NeZero count] [Security] [Proto] [Clocker C]

/-- A log and what its next `Publish` reports; `none` is a success. -/
structure FaultyWal (count : Nat) where
  wal : Wal count
  pubErr : Option Error

instance : Waler (FaultyWal count) where
  publish w key hash msg :=
    match w.pubErr with
    | some err => (some err, w)
    | none => ((w.wal.publish key hash msg).1, { w with wal := (w.wal.publish key hash msg).2 })

/-- The log contains the request: its segment replays it. -/
def FaultyWal.Contains (w : FaultyWal count) (r : Request) : Prop :=
  .update (some r) ∈ replaySegment (w.wal.segments (Wal.segmentOf r.key))

/-- A call of `ApplySet` or `ApplyDelete`, and what `Publish` reports if it comes to that. -/
structure Call where
  req : Request
  pubErr : Option Error

abbrev FaultyWriter (count : Nat) (C : Type) := StorageWriter (FaultyWal count) C

namespace FaultyWriter

def call (sw : FaultyWriter count C) (c : Call) : Option Error × FaultyWriter count C :=
  StorageWriter.apply { sw with wal := { sw.wal with pubErr := c.pubErr } } c.req

def step (sw : FaultyWriter count C) (c : Call) : FaultyWriter count C := (sw.call c).2

/-- A failed call changes nothing in memory; after a call that returns nil the log
contains, for its key, a record at least as high as the request. -/
structure Noticed (sw : FaultyWriter count C) (c : Call) : Prop where
  failed : (sw.call c).1 ≠ none → (sw.call c).2.hm = sw.hm
  logged : (sw.call c).1 = none → ∃ r, (sw.call c).2.wal.Contains r ∧ r.key = c.req.key ∧
    rank (record c.req) ≤ rank (record r)

/-- `Publish` does not fail on a request that the map accepts. -/
def Published (sw : FaultyWriter count C) (c : Call) : Prop :=
  (merge sw.hm c.req).2 = true → c.pubErr = none

instance (sw : FaultyWriter count C) (c : Call) : Decidable (sw.Published c) :=
  inferInstanceAs (Decidable (_ → _))

/-- Every record of the map is a request that the log contains. -/
structure Covered (sw : FaultyWriter count C) : Prop where
  inv : sw.hm.Inv hashFunc
  holds : ∃ logs, sw.wal.wal.Holds logs
  source : ∀ k v, sw.hm.cell hashFunc k = some v → ∃ r, sw.wal.Contains r ∧ r.key = k ∧ record r = v

/-! ## The three ends of a call -/

/-- A stale request returns nil and changes nothing. -/
theorem call_stale {sw : FaultyWriter count C} (inv : sw.hm.Inv hashFunc) {c : Call}
    (stale : (merge sw.hm c.req).2 = false) :
    (sw.call c).1 = none ∧ (sw.call c).2.hm = sw.hm ∧ (sw.call c).2.wal.wal = sw.wal.wal := by
  rw [call, StorageWriter.apply_eq, StorageWriter.persist]
  simp only [StorageWriter.store, stale]
  exact ⟨rfl, merge_stale inv stale, rfl⟩

/-- An accepted request that `Publish` fails on stays in the map. -/
theorem call_failed {sw : FaultyWriter count C} {c : Call} (accepted : (merge sw.hm c.req).2 = true) {err : Error}
    (fails : c.pubErr = some err) :
    (sw.call c).1 ≠ none ∧ (sw.call c).2.hm = (merge sw.hm c.req).1 := by
  rw [call, StorageWriter.apply_eq, StorageWriter.persist]
  simp only [StorageWriter.store, accepted, StorageWriter.publish, Waler.publish, fails]
  exact ⟨Option.some_ne_none _, rfl⟩

theorem call_published {sw : FaultyWriter count C} {c : Call} (accepted : (merge sw.hm c.req).2 = true)
    (published : c.pubErr = none) (faithful : Faithful c.req) :
    (sw.call c).1 = none ∧ (sw.call c).2.hm = (merge sw.hm c.req).1 ∧
      (sw.call c).2.wal.wal = (sw.wal.wal.publish c.req.key (hashFunc c.req.key) c.req).2 := by
  rw [call, StorageWriter.apply_eq, StorageWriter.persist]
  simp only [StorageWriter.store, accepted, StorageWriter.publish, Waler.publish, published, if_true,
    Wal.publish_eq faithful]
  exact ⟨rfl, trivial, trivial⟩

/-! ## Runs -/

omit [Clocker C] in
/-- What a log that `Holds` its requests contains. -/
theorem contains_iff {w : FaultyWal count} {logs : Fin count → List Request} (holds : w.wal.Holds logs) {r : Request} :
    w.Contains r ↔ r ∈ logs (Wal.segmentOf r.key) := by
  rw [FaultyWal.Contains, replaySegment_log (holds.bytes _) (holds.faithful _)]
  simp

omit [Clocker C] in
theorem Covered.start (clock : C) (bufferSize : UInt32) :
    Covered (newStorageWriter newShardedMap ⟨newWal (fun _ => []) bufferSize count, none⟩ clock) where
  inv := ShardedMap.inv_new hashFunc
  holds := ⟨fun _ => [], fun _ => rfl, by simp, by simp⟩
  source k v held := by
    rw [newStorageWriter, ShardedMap.cell_new] at held
    cases held

/-- One call keeps the map covered and is noticed, unless `Publish` fails on an accepted request. -/
theorem Covered.call {sw : FaultyWriter count C} (covered : sw.Covered) {c : Call} (faithful : Faithful c.req)
    (published : sw.Published c) : (sw.step c).Covered ∧ sw.Noticed c := by
  cases accepted : (merge sw.hm c.req).2 with
  | false =>
    obtain ⟨ok, hm, wal⟩ := call_stale covered.inv accepted
    have same (r : Request) : (sw.call c).2.wal.Contains r ↔ sw.wal.Contains r := by
      rw [FaultyWal.Contains, wal, FaultyWal.Contains]
    refine ⟨⟨hm ▸ covered.inv, wal ▸ covered.holds, fun k v held => ?_⟩, fun failed => absurd ok failed, fun _ => ?_⟩
    · rw [step, hm] at held
      obtain ⟨r, contained, key, source⟩ := covered.source k v held
      exact ⟨r, (same r).mpr contained, key, source⟩
    · obtain ⟨v, held, above⟩ := exists_above_stale covered.inv accepted
      obtain ⟨r, contained, key, rfl⟩ := covered.source _ v held
      exact ⟨r, (same r).mpr contained, key, above⟩
  | true =>
    obtain ⟨logs, holds⟩ := covered.holds
    obtain ⟨ok, hm, wal⟩ := call_published accepted (published accepted) faithful
    have next : (sw.call c).2.wal.wal.Holds (Wal.logged logs c.req) := wal ▸ holds.publish faithful
    have contained (r : Request) : (sw.call c).2.wal.Contains r ↔ sw.wal.Contains r ∨ r = c.req := by
      rw [contains_iff next, contains_iff holds, Wal.mem_logged]
      exact or_congr_right ⟨fun new => new.1, fun same => ⟨same, by rw [same]⟩⟩
    refine ⟨⟨?_, ⟨_, next⟩, fun k v held => ?_⟩, fun failed => absurd ok failed, fun _ => ?_⟩
    · rw [step, hm]
      exact inv_merge covered.inv c.req
    · rw [step, hm] at held
      rcases cell_merge_cases covered.inv held with ⟨-, rfl, rfl⟩ | old
      · exact ⟨c.req, (contained _).mpr (Or.inr rfl), rfl, rfl⟩
      · obtain ⟨r, before, key, source⟩ := covered.source k v old
        exact ⟨r, (contained r).mpr (Or.inl before), key, source⟩
    · exact ⟨c.req, (contained _).mpr (Or.inr rfl), rfl, le_rfl⟩

/-- A failed call on an accepted request leaves a map that is not the one before. -/
theorem Noticed.published {sw : FaultyWriter count C} (inv : sw.hm.Inv hashFunc) {c : Call} (noticed : sw.Noticed c) :
    sw.Published c := by
  intro accepted
  cases fails : c.pubErr with
  | none => rfl
  | some err =>
    obtain ⟨failed, hm⟩ := call_failed accepted fails
    have same := noticed.failed failed
    rw [hm] at same
    have stored := cell_merge_accepted inv accepted
    rw [same] at stored
    exact absurd stored (cell_ne_of_accepted inv accepted)

theorem hm_step (sw : FaultyWriter count C) (c : Call) : (sw.step c).hm = (merge sw.hm c.req).1 :=
  StorageWriter.hm_apply _ c.req

/-- **Failures are noticed** in a run, at every call, exactly when `Publish` never
fails on a request that the map has accepted. -/
theorem noticed_iff (clock : C) (bufferSize : UInt32) {calls : List Call} (faithful : ∀ c ∈ calls, Faithful c.req) :
    let sw := newStorageWriter newShardedMap (FaultyWal.mk (newWal (fun _ => []) bufferSize count) none) clock
    Along step Noticed sw calls ↔ Along step Published sw calls := by
  intro sw
  have start : Covered sw := Covered.start clock bufferSize
  constructor
  · refine Along.imp (I := fun sw => sw.hm.Inv hashFunc) (fun sw c inv _ => ?_)
      (fun sw c inv noticed => Noticed.published inv noticed) start.inv
    rw [hm_step]
    exact inv_merge inv c.req
  · intro along
    exact Along.imp (I := Covered) (fun sw c covered here => (covered.call here.2 here.1).1)
      (fun sw c covered here => (covered.call here.2 here.1).2) start (along.and_mem faithful)

end FaultyWriter

end Faults

open Reference Protobuf FaultyWriter

/-- An empty writer on one segment. -/
def emptyWriter : FaultyWriter 1 MockStorageClock := newStorageWriter newShardedMap ⟨newWal (fun _ => []) 4096 1, none⟩ ⟨0⟩

/-- A write, and a failing log that a stale write does not reach. -/
theorem noticed_iff_stale :
    Along step Noticed emptyWriter
      [⟨.set ⟨[97], [1], 5, [110]⟩, none⟩, ⟨.set ⟨[97], [2], 4, [110]⟩, some (ascii "wal publish error")⟩] := by
  exact (noticed_iff (MockStorageClock.mk 0) 4096 (by decide +kernel)).mpr (by decide +kernel)

/-- **A lost write**: the log fails once. The value is in the map, the same request
sent again returns nil, and the log is still empty. -/
theorem retry_unlogged :
    let r : Request := .set ⟨[97], [1], 5, [110]⟩
    let failed := emptyWriter.call ⟨r, some (ascii "wal publish error")⟩
    let retried := failed.2.call ⟨r, none⟩
    failed.1 = some (ascii "failed to persist set to WAL: wal publish error") ∧
      failed.2.hm.load [97] (hashFunc [97]) = some r.toValue ∧ retried.1 = none ∧
      replaySegment (retried.2.wal.wal.segments (Wal.segmentOf r.key)) = [] := by
  decide +kernel

end Oryx.Writer
