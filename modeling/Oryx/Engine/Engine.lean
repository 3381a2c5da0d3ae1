import Oryx.Library.Assign
import Oryx.Snap.Snapshot
import Oryx.Wal.Replay
import Oryx.Writer.StorageWriter

/-!
# The storage engine

`core/engine.go`: start from what is on disk, answer reads, stop. `NewEngine`
opens the log and, when a snapshot path is configured and snapshots are on,
recovers: first the snapshot's entries, then the replayed log on top under the
last-write-wins rule. An error on the way is logged and the engine starts with
what was recovered before it.
-/

namespace Oryx.Core
set_option autoImplicit false
open Oryx.Library Oryx.Hashmap Oryx.Snap Oryx.Writer

structure Config where
  snpPath : String
  walBufferSize : UInt32
  nodeID : NodeID
  disableWal : Bool
  disableSnapshot : Bool

/-- Whether `NewEngine` calls `recover`. -/
def Config.recovers (config : Config) : Bool := !config.disableSnapshot && config.snpPath ≠ ""

/-- Whether `NewEngine` replays a log. -/
def Config.replays (config : Config) : Bool := !config.disableWal && config.recovers

theorem Config.wal_of_replays {config : Config} (on : config.replays = true) : config.disableWal = false := by
  simp only [replays, Bool.and_eq_true, Bool.not_eq_true'] at on
  exact on.1

/-- The `Waler` an engine runs on. -/
inductive EngineWal (count : Nat) where
  | nop
  | wal (w : Wal count)

namespace EngineWal

variable {count : Nat} [Proto]

instance [NeZero count] : Waler (EngineWal count) where
  publish
    | .nop, _, _, _ => (none, .nop)
    | .wal w, key, hash, msg => ((w.publish key hash msg).1, .wal (w.publish key hash msg).2)

def replay (sched : List Nat) : EngineWal count → Results × Option Error
  | .nop => (∅, none)
  | .wal w => w.replay sched

/-- What segment `i` holds. -/
def bytes (wal : EngineWal count) (i : Fin count) : Bytes :=
  match wal with
  | .nop => []
  | .wal w => (w.segments i).bytes

end EngineWal

/-- The files an engine starts from. A missing file is an empty one. -/
structure Disk where
  segments : Nat → Bytes
  snapshot : SnapshotFile

/-- What a recovery leaves to the runtime: the pooled object of each decode, the
order in which the segments' entries reach the results map, and the iteration
order of that map. -/
structure Choices where
  pool : Nat → Nat
  sched : List Nat
  order : List (Key × Value) → List (Key × Value)
  isPerm : ∀ l, (order l).Perm l

/-- The choices of a run that never reuses, never switches and never reorders. -/
def Choices.plain : Choices := ⟨id, [], id, fun _ => .refl _⟩

/-- A configuration with a log and a snapshot path. -/
def durable : Config := ⟨"oryx.snp", 4096, [110], false, false⟩

section Recover

variable [Security]

/-- Store the decoded entries one by one. -/
def loadEntries (hm : ShardedMap) (entries : List SnapshotEntry) : ShardedMap :=
  entries.foldl (fun hm e => hm.store e.key (hashFunc e.key) e.toValue) hm

/-- Merge the replayed records one by one. -/
def applyUpdates (hm : ShardedMap) (updates : List (Key × Value)) : ShardedMap :=
  updates.foldl (fun hm p => (hm.storeLWW p.1 (hashFunc p.1) p.2).1) hm

variable {hm : ShardedMap}

theorem loadEntries_spec (inv : hm.Inv hashFunc) (entries : List SnapshotEntry) :
    (loadEntries hm entries).Inv hashFunc ∧ (loadEntries hm entries).cell hashFunc =
      entries.foldl (fun (cells : Key → Option Value) e =>
        Function.update cells e.key (some (withItemHash (hashFunc e.key) e.toValue))) (hm.cell hashFunc) :=
  ShardedMap.foldl_writes SnapshotEntry.key (fun e _ => some (withItemHash (hashFunc e.key) e.toValue))
    (fun _ e inv => ⟨inv.store e.key e.toValue, inv.cell_store e.key e.toValue⟩) inv entries

theorem loadEntries_inv (inv : hm.Inv hashFunc) (entries : List SnapshotEntry) :
    (loadEntries hm entries).Inv hashFunc := (loadEntries_spec inv entries).1

/-- Keys that are not among the entries are left alone. -/
theorem cell_loadEntries_absent (inv : hm.Inv hashFunc) {entries : List SnapshotEntry} {k : Key}
    (absent : ∀ e ∈ entries, e.key ≠ k) : (loadEntries hm entries).cell hashFunc k = hm.cell hashFunc k := by
  rw [(loadEntries_spec inv entries).2]
  exact foldl_update_of_ne (fun e _ => some (withItemHash (hashFunc e.key) e.toValue)) absent _

/-- Entries under distinct keys are all stored. -/
theorem cell_loadEntries (inv : hm.Inv hashFunc) {entries : List SnapshotEntry}
    (distinct : (entries.map SnapshotEntry.key).Nodup) {e : SnapshotEntry} (member : e ∈ entries) :
    (loadEntries hm entries).cell hashFunc e.key = some (withItemHash (hashFunc e.key) e.toValue) := by
  rw [(loadEntries_spec inv entries).2]
  exact foldl_update_of_mem (fun e _ => some (withItemHash (hashFunc e.key) e.toValue)) distinct member _

theorem applyUpdates_spec (inv : hm.Inv hashFunc) (updates : List (Key × Value)) :
    (applyUpdates hm updates).Inv hashFunc ∧ (applyUpdates hm updates).cell hashFunc =
      updates.foldl (fun (cells : Key → Option Value) p => Function.update cells p.1
        (LastWriter.adopt rank (cells p.1) (withItemHash (hashFunc p.1) p.2))) (hm.cell hashFunc) :=
  ShardedMap.foldl_writes Prod.fst (fun p old => LastWriter.adopt rank old (withItemHash (hashFunc p.1) p.2))
    (fun _ p inv => ⟨inv.storeLWW p.1 p.2, inv.cell_storeLWW p.1 p.2⟩) inv updates

theorem applyUpdates_inv (inv : hm.Inv hashFunc) (updates : List (Key × Value)) :
    (applyUpdates hm updates).Inv hashFunc := (applyUpdates_spec inv updates).1

theorem cell_applyUpdates_absent (inv : hm.Inv hashFunc) {updates : List (Key × Value)} {k : Key}
    (absent : ∀ p ∈ updates, p.1 ≠ k) : (applyUpdates hm updates).cell hashFunc k = hm.cell hashFunc k := by
  rw [(applyUpdates_spec inv updates).2]
  exact foldl_update_of_ne (fun p old => LastWriter.adopt rank old (withItemHash (hashFunc p.1) p.2)) absent _

/-- Updates under distinct keys are each merged once. -/
theorem cell_applyUpdates (inv : hm.Inv hashFunc) {updates : List (Key × Value)}
    (distinct : (updates.map Prod.fst).Nodup) {p : Key × Value} (member : p ∈ updates) :
    (applyUpdates hm updates).cell hashFunc p.1 =
      LastWriter.adopt rank (hm.cell hashFunc p.1) (withItemHash (hashFunc p.1) p.2) := by
  rw [(applyUpdates_spec inv updates).2]
  exact foldl_update_of_mem (fun p old => LastWriter.adopt rank old (withItemHash (hashFunc p.1) p.2)) distinct
    member _

/-- Into an empty map, whatever the iteration order, the results are stored as they are. -/
theorem cell_applyUpdates_results (choices : Choices) (results : Results) (k : Key) :
    (applyUpdates newShardedMap (choices.order results.toList)).cell hashFunc k =
      results[k]?.map (withItemHash (hashFunc k)) := by
  have perm := choices.isPerm results.toList
  have distinct : ((choices.order results.toList).map Prod.fst).Nodup :=
    (perm.map Prod.fst).nodup_iff.mpr (nodup_keys_toList results)
  cases found : results[k]? with
  | none =>
    rw [cell_applyUpdates_absent (ShardedMap.inv_new hashFunc), ShardedMap.cell_new]
    · rfl
    · rintro ⟨k', v⟩ member rfl
      have held := Std.TreeMap.mem_toList_iff_getElem?_eq_some.mp (perm.mem_iff.mp member)
      rw [found] at held
      cases held
  | some v =>
    have member : (k, v) ∈ choices.order results.toList :=
      perm.mem_iff.mpr (Std.TreeMap.mem_toList_iff_getElem?_eq_some.mpr found)
    rw [cell_applyUpdates (ShardedMap.inv_new hashFunc) distinct member, ShardedMap.cell_new]
    rfl

end Recover

variable {count : Nat} {C : Type} [Security] [Proto]

def recover (choices : Choices) (snapshot : SnapshotFile) (wal : EngineWal count) (hm : ShardedMap) :
    Option Error × ShardedMap :=
  let hm := loadEntries hm (decodeLoop choices.pool [] snapshot.records)
  match snapshot.ending with
  | some err => (some err, hm)
  | none =>
    match wal.replay choices.sched with
    | (_, some err) => (some err, hm)
    | (updates, none) => (none, applyUpdates hm (choices.order updates.toList))

structure Engine (count : Nat) (C : Type) where
  sw : StorageWriter (EngineWal count) C
  nodeID : NodeID
  disableSnapshot : Bool

def openWal (config : Config) (disk : Disk) (count : Nat) : EngineWal count :=
  if config.disableWal then .nop else .wal (newWal disk.segments config.walBufferSize count)

def newEngine (count : Nat) (config : Config) (clock : C) (disk : Disk) (choices : Choices) : Engine count C :=
  let wal := openWal config disk count
  let hm := if config.recovers then (recover choices disk.snapshot wal newShardedMap).2 else newShardedMap
  ⟨newStorageWriter hm wal clock, config.nodeID, config.disableSnapshot⟩

/-- The value or absence a record stands for. -/
def answer (v : Value) : Option Bytes := if v.tombstone then none else some v.data

omit [Proto] in
theorem answer_replayed (r : Request) (hash : HashKey) : answer (withItemHash hash (replayed r)) = answer r.toValue := by
  cases r <;> rfl

namespace Engine

def get (eng : Engine count C) (key : Key) : Option Bytes :=
  match eng.sw.hm.load key (hashFunc key) with
  | some iv => if iv.tombstone then none else some iv.data
  | none => none

omit [Proto] in
theorem get_eq {eng : Engine count C} (inv : eng.sw.hm.Inv hashFunc) (key : Key) :
    eng.get key = (eng.sw.hm.cell hashFunc key).bind answer := by
  rw [get, inv.load_eq]
  cases eng.sw.hm.cell hashFunc key <;> rfl

/-- The disk a clean `Stop` leaves. -/
def stop (eng : Engine count C) (disk : Disk) : Disk :=
  match eng.sw.wal with
  | .nop => disk
  | .wal w => { disk with segments := fun n => if h : n < count then w.stop ⟨n, h⟩ else disk.segments n }

end Engine

/-! ## Starting from a log alone -/

/-- The disk of an engine that has never taken a snapshot. -/
def Disk.logOnly (segments : Nat → Bytes) : Disk := ⟨segments, ⟨[], none⟩⟩

theorem recover_log (choices : Choices) (wal : EngineWal count) :
    (recover choices ⟨[], none⟩ wal newShardedMap).2 =
      if (wal.replay choices.sched).2 = none then
        applyUpdates newShardedMap (choices.order (wal.replay choices.sched).1.toList)
      else newShardedMap := by
  rw [recover]
  rcases wal.replay choices.sched with ⟨updates, _ | err⟩
  · rfl
  · rfl

/-- On an empty disk the engine starts empty. -/
theorem hm_newEngine_new (config : Config) (clock : C) (choices : Choices) :
    (newEngine count config clock (.logOnly fun _ => []) choices).sw.hm = newShardedMap := by
  have nothing : choices.order (∅ : Results).toList = [] := (choices.isPerm _).eq_nil
  simp only [newEngine, newStorageWriter, Disk.logOnly, openWal]
  split
  · rw [recover_log]
    split <;> simp [EngineWal.replay, Wal.replay_newWal, nothing, applyUpdates]
  · rfl

theorem newEngine_inv (config : Config) (clock : C) (disk : Disk) (choices : Choices) :
    (newEngine count config clock disk choices).sw.hm.Inv hashFunc := by
  have new := ShardedMap.inv_new hashFunc
  simp only [newEngine, newStorageWriter]
  split
  · have loaded := loadEntries_inv new (decodeLoop choices.pool [] disk.snapshot.records)
    simp only [recover]
    split
    · exact loaded
    · split
      · exact loaded
      · exact applyUpdates_inv loaded _
  · exact new

/-- Nothing is recovered when the log is not replayed or its replay fails. -/
theorem hm_newEngine_fail {config : Config} {segments : Nat → Bytes} {choices : Choices} (clock : C)
    (fails : config.replays = true →
      ((newWal segments config.walBufferSize count).replay choices.sched).2 ≠ none) :
    (newEngine count config clock (.logOnly segments) choices).sw.hm = newShardedMap := by
  simp only [newEngine, newStorageWriter, Disk.logOnly, openWal]
  by_cases on : config.recovers = true
  · rw [if_pos on, recover_log]
    by_cases off : config.disableWal = true
    · have nothing : choices.order (∅ : Results).toList = [] := (choices.isPerm _).eq_nil
      simp [off, EngineWal.replay, nothing, applyUpdates]
    · have failed := fails (by simp [Config.replays, on, off])
      simp only [off, EngineWal.replay]
      exact if_neg failed
  · rw [if_neg on]

/-- A log that replays without an error is what the engine starts with. -/
theorem cell_newEngine_replay {config : Config} {segments : Nat → Bytes} {choices : Choices}
    (on : config.replays = true)
    (clean : ((newWal segments config.walBufferSize count).replay choices.sched).2 = none) (clock : C) (k : Key) :
    (newEngine count config clock (.logOnly segments) choices).sw.hm.cell hashFunc k =
      ((newWal segments config.walBufferSize count).replay choices.sched).1[k]?.map (withItemHash (hashFunc k)) := by
  obtain ⟨wal, recovers⟩ : config.disableWal = false ∧ config.recovers = true := by
    simpa [Config.replays] using on
  have engine : (newEngine count config clock (.logOnly segments) choices).sw.hm =
      applyUpdates newShardedMap (choices.order
        ((newWal segments config.walBufferSize count).replay choices.sched).1.toList) := by
    simp only [newEngine, newStorageWriter, Disk.logOnly, openWal, wal, recovers, if_true, recover_log,
      EngineWal.replay]
    exact if_pos clean
  rw [engine, cell_applyUpdates_results]

theorem cell_newEngine_log [NeZero count] {config : Config} {segments : Nat → Bytes} {logs : Fin count → List Request}
    (on : config.replays = true) (holds : (newWal segments config.walBufferSize count).Holds logs) (clock : C)
    (choices : Choices) (k : Key) :
    (newEngine count config clock (.logOnly segments) choices).sw.hm.cell hashFunc k =
      (replaySlot (logs (Wal.segmentOf k)) k).map (withItemHash (hashFunc k)) := by
  rw [cell_newEngine_replay on (holds.replay_ok choices.sched), holds.getElem?_replay]

end Oryx.Core
