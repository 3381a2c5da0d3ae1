import Oryx.Engine.Engine

/-!
# The engine's operations

`Set`, `Delete`, `Evict`, `ApplySet` and `ApplyDelete` of `core/engine.go`, each as one
call that nobody interrupts, and a stop followed by a start on the same files. The
telemetry that the operations send to an evictor is not part of the engine's state.
-/

namespace Oryx.Core
set_option autoImplicit false
open Oryx.Library Oryx.Hashmap Oryx.Writer

/-- `evict.Reason`. -/
inductive Reason where
  | ttl
  | capacity
  deriving DecidableEq, Repr

variable {count : Nat} {C : Type} [NeZero count] [Security] [Proto] [Clocker C]

namespace Engine

/-- `eng.clock.Now()`. -/
def tick (eng : Engine count C) : Int64 × Engine count C :=
  ((Clocker.now eng.sw.clock).1, { eng with sw := { eng.sw with clock := (Clocker.now eng.sw.clock).2 } })

/-- `ApplySet` and `ApplyDelete`. -/
def apply (eng : Engine count C) (r : Request) : Option Error × Engine count C :=
  ((eng.sw.apply r).1, { eng with sw := (eng.sw.apply r).2 })

def set (eng : Engine count C) (key : Key) (value : Bytes) : Option Error × Engine count C :=
  eng.tick.2.apply (.set ⟨key, value, eng.tick.1, eng.nodeID⟩)

/-- Whether the key is present and not a tombstone. -/
def live (eng : Engine count C) (key : Key) : Bool :=
  match eng.sw.hm.load key (hashFunc key) with
  | some iv => !iv.tombstone
  | none => false

def delete (eng : Engine count C) (key : Key) : (Bool × Option Error) × Engine count C :=
  if eng.live key then
    let applied := eng.tick.2.apply (.delete ⟨key, eng.tick.1, eng.nodeID⟩)
    ((true, applied.1), applied.2)
  else ((false, none), eng)

/-- The map's half of `Evict`: a capacity eviction forgets the key, a TTL eviction
stores a tombstone over whatever is there. -/
def evictMap (eng : Engine count C) (reason : Reason) (req : DeleteRequest) : Engine count C :=
  let hm := match reason with
    | .capacity => eng.sw.hm.delete req.key (hashFunc req.key)
    | .ttl => eng.sw.hm.store req.key (hashFunc req.key) (Request.delete req).toValue
  { eng with sw := { eng.sw with hm := hm } }

/-- `eng.wal.Publish`. -/
def publish (eng : Engine count C) (r : Request) : Option Error × Engine count C :=
  let published := Waler.publish eng.sw.wal r.key (hashFunc r.key) r
  (published.1, { eng with sw := { eng.sw with wal := published.2 } })

def evict (eng : Engine count C) (key : Key) (reason : Reason) : Option Error × Engine count C :=
  let req := ⟨key, eng.tick.1, eng.nodeID⟩
  (eng.tick.2.evictMap reason req).publish (.delete req)

/-- Stop, then start on the same paths. -/
def restart (eng : Engine count C) (config : Config) (clock : C) (choices : Choices) : Engine count C :=
  newEngine count config clock (eng.stop (.logOnly fun _ => [])) choices

/-! ## Maps -/

omit [NeZero count] [Security] [Proto] in
@[simp] theorem hm_tick (eng : Engine count C) : eng.tick.2.sw.hm = eng.sw.hm := rfl

theorem hm_apply (eng : Engine count C) (r : Request) : (eng.apply r).2.sw.hm = (merge eng.sw.hm r).1 :=
  eng.sw.hm_apply r

omit [NeZero count] [Proto] [Clocker C] in
theorem live_iff {eng : Engine count C} (inv : eng.sw.hm.Inv hashFunc) {key : Key} :
    eng.live key = true ↔ ∃ v, eng.sw.hm.cell hashFunc key = some v ∧ v.tombstone = false := by
  rw [live, inv.load_eq]
  cases eng.sw.hm.cell hashFunc key with
  | none => simp
  | some v => simp [Value.blank]

omit [NeZero count] [Proto] [Clocker C] in
theorem get_isSome {eng : Engine count C} (key : Key) : (eng.get key).isSome = eng.live key := by
  rw [get, live]
  cases eng.sw.hm.load key (hashFunc key) with
  | none => rfl
  | some iv => cases mark : iv.tombstone <;> simp [mark]

omit [NeZero count] [Proto] [Clocker C] in
theorem get_of_cell {eng : Engine count C} (inv : eng.sw.hm.Inv hashFunc) {key : Key} {v : Value}
    (held : eng.sw.hm.cell hashFunc key = some v) : eng.get key = answer v := by
  rw [get_eq inv, held]
  rfl

theorem delete_live {eng : Engine count C} {key : Key} (found : eng.live key = true) :
    eng.delete key = ((true, (eng.tick.2.apply (.delete ⟨key, eng.tick.1, eng.nodeID⟩)).1),
      (eng.tick.2.apply (.delete ⟨key, eng.tick.1, eng.nodeID⟩)).2) :=
  if_pos found

theorem delete_absent {eng : Engine count C} {key : Key} (missing : ¬eng.live key = true) :
    eng.delete key = ((false, none), eng) :=
  if_neg missing

/-- What an eviction leaves under its key. -/
def evicted (reason : Reason) (req : DeleteRequest) : Option Value :=
  match reason with
  | .capacity => none
  | .ttl => some (record (.delete req))

omit [NeZero count] [Proto] [Clocker C] in
theorem evictMap_spec {eng : Engine count C} (inv : eng.sw.hm.Inv hashFunc) (reason : Reason) (req : DeleteRequest) :
    (eng.evictMap reason req).sw.hm.Inv hashFunc ∧ (eng.evictMap reason req).sw.hm.cell hashFunc =
      Function.update (eng.sw.hm.cell hashFunc) req.key (evicted reason req) := by
  cases reason with
  | ttl => exact ⟨inv.store _ _, inv.cell_store _ _⟩
  | capacity => exact ⟨inv.delete _, inv.cell_delete _⟩

/-! ## Logs -/

/-- The engine's log holds `logs`. -/
def Holds (eng : Engine count C) (logs : Fin count → List Request) : Prop :=
  ∃ w, eng.sw.wal = .wal w ∧ w.Holds logs

omit [Clocker C] in
/-- What the codec can encode is published without an error. -/
theorem publish_ok (wal : EngineWal count) {r : Request} (faithful : Faithful r) :
    (Waler.publish wal r.key (hashFunc r.key) r).1 = none := by
  cases wal with
  | nop => rfl
  | wal w => exact congrArg Prod.fst (Wal.publish_eq faithful)

theorem apply_ok (sw : StorageWriter (EngineWal count) C) {r : Request} (faithful : Faithful r) :
    (sw.apply r).1 = none := by
  rw [StorageWriter.apply_eq, StorageWriter.persist]
  split
  · rw [StorageWriter.publish, publish_ok (sw.store r).2.wal faithful]
    rfl
  · rfl

omit [Clocker C] in
theorem Holds.publish {eng : Engine count C} {logs : Fin count → List Request} (holds : eng.Holds logs) {r : Request}
    (faithful : Faithful r) : (eng.publish r).1 = none ∧ (eng.publish r).2.Holds (Wal.logged logs r) := by
  obtain ⟨w, isWal, holds⟩ := holds
  refine ⟨publish_ok eng.sw.wal faithful, ?_⟩
  simp only [Engine.publish, Waler.publish, isWal]
  exact ⟨_, rfl, holds.publish faithful⟩

/-- An accepted request is logged, a stale one is not. -/
theorem Holds.apply {eng : Engine count C} {logs : Fin count → List Request} (holds : eng.Holds logs) {r : Request}
    (faithful : Faithful r) :
    (eng.apply r).1 = none ∧
      (eng.apply r).2.Holds (if (merge eng.sw.hm r).2 then Wal.logged logs r else logs) := by
  obtain ⟨w, isWal, holds⟩ := holds
  refine ⟨apply_ok eng.sw faithful, ?_⟩
  rw [Engine.apply, StorageWriter.apply_eq, StorageWriter.persist]
  cases accepted : (merge eng.sw.hm r).2 with
  | false =>
    simp only [StorageWriter.store, accepted]
    exact ⟨w, isWal, holds⟩
  | true =>
    simp only [StorageWriter.store, accepted, StorageWriter.publish, Waler.publish, isWal, if_true]
    exact ⟨_, rfl, holds.publish faithful⟩

/-- Only an accepted request can get into the log. -/
theorem Holds.apply_readsBack {eng : Engine count C} {logs : Fin count → List Request} (holds : eng.Holds logs)
    {r : Request} (reads : ReadsBack r) :
    ∃ logs', (eng.apply r).2.Holds logs' ∧
      ∀ i, ∀ r' ∈ logs' i, r' ∈ logs i ∨ r' = r ∧ (merge eng.sw.hm r).2 = true := by
  obtain ⟨w, isWal, holds⟩ := holds
  rw [Engine.apply, StorageWriter.apply_eq, StorageWriter.persist]
  cases accepted : (merge eng.sw.hm r).2 with
  | false =>
    simp only [StorageWriter.store, accepted]
    exact ⟨logs, ⟨w, isWal, holds⟩, fun _ _ member => Or.inl member⟩
  | true =>
    simp only [StorageWriter.store, accepted, StorageWriter.publish, Waler.publish, isWal, if_true]
    obtain ⟨logs', next, only⟩ := holds.publish_readsBack reads
    exact ⟨logs', ⟨_, rfl, next⟩, fun i r' member => (only i r' member).imp_right fun same => ⟨same, trivial⟩⟩

omit [NeZero count] [Clocker C] in
theorem restart_inv (eng : Engine count C) (config : Config) (clock : C) (choices : Choices) :
    (eng.restart config clock choices).sw.hm.Inv hashFunc :=
  newEngine_inv config clock _ choices

omit [Clocker C] in
/-- A new engine opens the log it finds. -/
theorem holds_newEngine {config : Config} (wal : config.disableWal = false) {segments : Nat → Bytes}
    {logs : Fin count → List Request} (holds : (newWal segments config.walBufferSize count).Holds logs) (clock : C)
    (choices : Choices) : (newEngine count config clock (.logOnly segments) choices).Holds logs := by
  refine ⟨_, ?_, holds⟩
  simp [newEngine, newStorageWriter, openWal, wal, Disk.logOnly]

omit [Clocker C] in
theorem Holds.start {config : Config} (wal : config.disableWal = false) (clock : C) (choices : Choices) :
    (newEngine count config clock (.logOnly fun _ => []) choices).Holds fun _ => [] :=
  holds_newEngine wal ⟨fun _ => rfl, by simp, by simp⟩ clock choices

omit [NeZero count] [Security] [Proto] [Clocker C] in
/-- The files an engine on a log leaves. -/
theorem stop_wal {eng : Engine count C} {w : Wal count} (isWal : eng.sw.wal = .wal w) :
    eng.stop (.logOnly fun _ => []) = .logOnly fun n => if h : n < count then w.stop ⟨n, h⟩ else [] := by
  simp only [Engine.stop, isWal, Disk.logOnly]

omit [Clocker C] in
/-- A restart keeps the log and recovers under every key what it leaves. -/
theorem Holds.restart {eng : Engine count C} {logs : Fin count → List Request} (holds : eng.Holds logs)
    {config : Config} (on : config.replays = true) (clock : C) (choices : Choices) :
    (eng.restart config clock choices).Holds logs ∧ ∀ k,
      (eng.restart config clock choices).sw.hm.cell hashFunc k =
        (replaySlot (logs (Wal.segmentOf k)) k).map (withItemHash (hashFunc k)) := by
  obtain ⟨w, isWal, holds⟩ := holds
  have reopened : (newWal (fun n => if h : n < count then w.stop ⟨n, h⟩ else []) config.walBufferSize count).Holds logs :=
    holds.reopen (by simp) config.walBufferSize
  rw [Engine.restart, stop_wal isWal]
  exact ⟨holds_newEngine (Config.wal_of_replays on) reopened clock choices,
    fun k => cell_newEngine_log on reopened clock choices k⟩

omit [NeZero count] [Clocker C] in
/-- Without a log to replay a restart starts empty. -/
theorem hm_restart_off (eng : Engine count C) {config : Config} (off : config.replays = false) (clock : C)
    (choices : Choices) : (eng.restart config clock choices).sw.hm = newShardedMap := by
  have disk : ∃ segments, eng.stop (.logOnly fun _ => []) = .logOnly segments := by
    rw [stop]
    split
    · exact ⟨_, rfl⟩
    · exact ⟨_, rfl⟩
  obtain ⟨segments, same⟩ := disk
  rw [restart, same]
  exact hm_newEngine_fail clock fun on => by rw [off] at on; cases on

end Engine

end Oryx.Core
