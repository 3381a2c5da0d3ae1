import Oryx.Snap.CreateSafety

/-!
# The snapshot service

The two goroutines of `core/snap/snapshot.go` around `Create`: a producer that queues a
snapshot at a tick unless one is in progress, and a consumer that takes what is queued and
calls `Create`. `Start` begins both, `Stop` cancels their context and waits for them. Writers go
on all the while, so that one snapshot follows another under load, and some may fail. `Create`
is exported; here the consumer is its only caller, as in the engine.
-/

namespace Oryx.Snap
set_option autoImplicit false
open Oryx.Library Oryx.Hashmap Oryx.Writer Oryx.Core

/-- Where the goroutine `producer` is. -/
inductive Producer where
  | unstarted
  | selecting
  /-- a tick was taken: `inProgress.Load` is next -/
  | ticked
  /-- nothing was in progress: the send to `ch` is next -/
  | sending
  | returned
  deriving DecidableEq, Repr

/-- Where the goroutine `consumer` is. -/
inductive Consumer where
  | unstarted
  | selecting
  /-- something was queued: `inProgress.Store(true)` is next -/
  | received
  | creating
  | returned
  deriving DecidableEq, Repr

/-- The fields of `Snapshotter` that the goroutines share, the goroutines, and what `Create`
works on. The channel `ch` holds at most one element. -/
structure Service (count : Nat) (C : Type) where
  snp : Snapshotter count C
  cancelled : Bool
  ch : Bool
  inProgress : Bool
  startOnce : Bool
  wg : Nat
  producer : Producer
  consumer : Consumer

/-- The steps of the service and of the writers beside it. A call of `Create` by anyone but the
consumer is none of them. -/
inductive ServiceAction (count : Nat) where
  | writer (a : WriterAction count)
  | start
  /-- the first half of `Stop`; the second waits until `wg` is zero -/
  | cancel
  /-- the producer goes on; `tick` is the case that its `select` takes -/
  | produce (tick : Bool)
  /-- the consumer goes on; `receive` is the case that its `select` takes -/
  | consume (receive : Bool)
  /-- `Create` returns an error before its rename -/
  | fail

namespace Service

variable {count : Nat} {C : Type}

/-- `NewSnapshotter`. -/
def new (snp : Snapshotter count C) : Service count C := ⟨snp, false, false, false, false, 0, .unstarted, .unstarted⟩

def start (s : Service count C) : Service count C :=
  if s.startOnce then s
  else { s with startOnce := true, wg := s.wg + 2, producer := .selecting, consumer := .selecting }

/-- The producer's next step; `ticked` and `sending` are the two steps of `queueSnapShot`. -/
def produce (s : Service count C) (tick : Bool) : Service count C :=
  match s.producer with
  | .unstarted | .returned => s
  | .selecting =>
    if tick then { s with producer := .ticked }
    else if s.cancelled then { s with producer := .returned, wg := s.wg - 1 }
    else s
  | .ticked => { s with producer := if s.inProgress then .selecting else .sending }
  | .sending => { s with ch := true, producer := .selecting }

/-- The consumer's next step. -/
def consume (s : Service count C) (receive : Bool) : Service count C :=
  match s.consumer with
  | .unstarted | .returned => s
  | .selecting =>
    if receive then (if s.ch then { s with ch := false, consumer := .received } else s)
    else if s.cancelled then { s with consumer := .returned, wg := s.wg - 1 }
    else s
  | .received => { s with inProgress := true, consumer := .creating, snp := { s.snp with pc := .idle } }
  | .creating =>
    match s.snp.pc with
    | .done => { s with inProgress := false, consumer := .selecting }
    | _ => { s with snp := s.snp.create }

/-- The new file is removed and the error logged. -/
def fail (s : Service count C) : Service count C :=
  match s.consumer, s.snp.pc with
  | .creating, .preparing _ | .creating, .ranging _ _ _ _ =>
    { s with snp := { s.snp with pc := .idle }, inProgress := false, consumer := .selecting }
  | _, _ => s

/-- A check of the producer that found no snapshot in progress. -/
def passed (s : Service count C) : ServiceAction count → List Unit
  | .produce _ => if s.producer = .ticked ∧ s.inProgress = false then [()] else []
  | _ => []

/-- A call of `Create`. -/
def begun (s : Service count C) : ServiceAction count → List Unit
  | .consume _ => if s.consumer = .received then [()] else []
  | _ => []

/-- A `Clear` of a segment whose recorded length is zero finds it empty. -/
def ClearSafe (s : Service count C) : ServiceAction count → Prop
  | .consume _ => s.consumer = .creating → s.snp.ClearSafe .create
  | _ => True

instance (s : Service count C) (a : ServiceAction count) : Decidable (s.ClearSafe a) :=
  match a with
  | .consume _ => inferInstanceAs (Decidable (_ → _))
  | .writer _ | .start | .cancel | .produce _ | .fail => isTrue trivial

variable [NeZero count] [Security] [Proto] [Clocker C]

def step (s : Service count C) : ServiceAction count → Service count C
  | .writer a => { s with snp := s.snp.step (.writer a) }
  | .start => s.start
  | .cancel => { s with cancelled := true }
  | .produce tick => s.produce tick
  | .consume receive => s.consume receive
  | .fail => s.fail

end Service

/-! ## No record is lost -/

namespace Snapshotter

variable {count : Nat} {C : Type} [NeZero count] [Security] [Proto]

/-- The record of every key is in the snapshot file, in the log or about to be logged. -/
def Durable (logs : Fin count → List Request) (s : Snapshotter count C) : Prop :=
  ∀ k v, s.hm.cell hashFunc k = some v → gobEncode (.ofPair (k, v)) ∈ s.snapshot.records ∨
    ∃ r, (r ∈ logs (Wal.segmentOf k) ∨ r ∈ s.writers.pending) ∧ r.key = k ∧ record r = v

variable {logs kept : Fin count → List Request} {s : Snapshotter count C}

/-- What is behind the offsets is in the log. -/
theorem Sound.kept_subset (sound : s.Sound logs kept) {i : Fin count} (marked : s.pc.mark i ≠ .unprepared) {r : Request}
    (member : r ∈ kept i) : r ∈ logs i := by
  have splits := sound.splits i
  cases mark : s.pc.mark i with
  | unprepared => exact absurd mark marked
  | recorded offset =>
    rw [mark] at splits
    obtain ⟨before, log, -⟩ := splits
    rw [log]
    exact List.mem_append_right before member
  | cleared =>
    rw [mark] at splits
    have same : logs i = kept i := splits
    rwa [same]

/-- From the rename on the new file and what is behind the offsets are enough. -/
theorem Sound.durable (sound : s.Sound logs kept) (renamed : (∃ offsets next, s.pc = .clearing offsets next) ∨ s.pc = .done) :
    s.Durable logs := by
  intro k v held
  have visited : s.pc.Visited k := by rcases renamed with ⟨_, _, pc⟩ | pc <;> rw [pc] <;> trivial
  have taken : s.taken = s.snapshot.records := by rcases renamed with ⟨_, _, pc⟩ | pc <;> simp only [taken, pc]
  have marked : s.pc.mark (Wal.segmentOf k : Fin count) ≠ .unprepared := by
    rcases renamed with ⟨offsets, next, pc⟩ | pc
    · have sized : offsets.length = count := by simpa only [pc, CreatePc.Sized] using sound.sized
      have inside : (Wal.segmentOf k : Fin count).val < offsets.length := sized ▸ (Wal.segmentOf k : Fin count).isLt
      rw [pc, CreatePc.mark, List.getElem?_eq_getElem inside]
      split <;> simp [Mark.ofOffset]
    · simp [pc, CreatePc.mark]
  refine (sound.covered k v visited held).imp (fun listed => taken ▸ listed) ?_
  rintro ⟨r, written, key, same⟩
  exact ⟨r, written.imp_left (sound.kept_subset marked), key, same⟩

omit [Proto] in
/-- Before it `Create` changes neither the file nor the records of the log. -/
theorem Durable.frame (durable : s.Durable logs) {s' : Snapshotter count C} (hm : s'.hm = s.hm)
    (snapshot : s'.snapshot = s.snapshot) (pending : s'.writers.pending = s.writers.pending) : s'.Durable logs := by
  intro k v held
  rw [hm] at held
  rw [snapshot, pending]
  exact durable k v held

/-- **The invariant of the service**: `Create` is sound, and nothing depends on its success. -/
def Guarded (s : Snapshotter count C) : Prop := ∃ logs kept, s.Sound logs kept ∧ s.Durable logs

omit [Proto] in
theorem Durable.prepare (durable : s.Durable logs) (offsets : List Int) : (s.prepareStep offsets).Durable logs := by
  unfold prepareStep
  split
  · exact durable.frame rfl rfl rfl
  · split <;> exact durable.frame rfl rfl rfl

/-- The rename is the one step that changes the file. -/
theorem Durable.range (durable : s.Durable logs) {offsets : List Int} {shard : Nat} {rest : List (Key × Nat)}
    {tmp : List GobRecord} (ranged : (s.rangeStep offsets shard rest tmp).Sound logs kept) :
    (s.rangeStep offsets shard rest tmp).Durable logs := by
  cases rest with
  | cons p rest =>
    simp only [rangeStep]
    split <;> exact durable.frame rfl rfl rfl
  | nil =>
    by_cases more : shard < shardCount
    · simp only [rangeStep, dif_pos more]
      exact durable.frame rfl rfl rfl
    · simp only [rangeStep, dif_neg more] at ranged ⊢
      exact ranged.durable (Or.inl ⟨offsets, 0, rfl⟩)

omit [NeZero count] [Security] [Proto] in
theorem pc_clearStep (offsets : List Int) (next : Nat) :
    (∃ offsets' next', (s.clearStep offsets next).pc = .clearing offsets' next') ∨ (s.clearStep offsets next).pc = .done := by
  unfold clearStep
  split
  · exact Or.inr rfl
  · split
    · exact Or.inl ⟨_, _, rfl⟩
    · exact Or.inr rfl

theorem Guarded.at_rest (guarded : s.Guarded) : ({ s with pc := .idle } : Snapshotter count C).Guarded := by
  obtain ⟨logs, kept, sound, durable⟩ := guarded
  exact ⟨logs, kept, sound.at_rest (Or.inl rfl), durable.frame rfl rfl rfl⟩

/-- **One step of `Create`.** -/
theorem Guarded.create (guarded : s.Guarded) (safe : s.ClearSafe .create) : s.create.Guarded := by
  obtain ⟨logs, kept, sound, durable⟩ := guarded
  cases pc : s.pc with
  | idle =>
    have next : s.create = { s with pc := .preparing [] } := by rw [Snapshotter.create, pc]
    rw [next]
    exact ⟨logs, kept, sound.at_rest (Or.inr rfl), durable.frame rfl rfl rfl⟩
  | preparing offsets =>
    have next : s.create = s.prepareStep offsets := by rw [Snapshotter.create, pc]
    obtain ⟨kept', prepared⟩ := sound.prepare pc
    rw [next]
    exact ⟨logs, kept', prepared, durable.prepare offsets⟩
  | ranging offsets shard rest tmp =>
    have next : s.create = s.rangeStep offsets shard rest tmp := by rw [Snapshotter.create, pc]
    rw [next]
    exact ⟨logs, kept, sound.range pc, durable.range (sound.range pc)⟩
  | clearing offsets segment =>
    have next : s.create = s.clearStep offsets segment := by rw [Snapshotter.create, pc]
    obtain ⟨logs', cleared⟩ := sound.clear pc fun w isWal => by
      simpa only [ClearSafe, pc, isWal] using safe
    rw [next]
    exact ⟨logs', kept, cleared, cleared.durable (pc_clearStep offsets segment)⟩
  | done =>
    have next : s.create = s := by rw [Snapshotter.create, pc]
    rw [next]
    exact ⟨logs, kept, sound, durable⟩

variable [Clocker C]

/-- **One step of a writer.** -/
theorem Guarded.writer (guarded : s.Guarded) {a : WriterAction count} (faithful : ∀ r, a = .store r → Faithful r) :
    (s.step (.writer a)).Guarded := by
  obtain ⟨logs, kept, sound, durable⟩ := guarded
  cases a with
  | store r =>
    refine ⟨logs, kept, sound.store (faithful r rfl), fun k v held => ?_⟩
    rcases cell_merge_cases sound.inv held with ⟨accepted, rfl, rfl⟩ | old
    · exact Or.inr ⟨r, Or.inr (Writers.mem_pending_store.mpr (Or.inr ⟨accepted, rfl⟩)), rfl, rfl⟩
    · refine (durable k v old).imp_right ?_
      rintro ⟨r', written, key, same⟩
      exact ⟨r', written.imp_right fun waiting => Writers.mem_pending_store.mpr (Or.inl waiting), key, same⟩
  | publish i =>
    cases found : s.writers.pending[i]? with
    | none =>
      rw [step_publish_none found]
      exact ⟨logs, kept, sound, durable⟩
    | some r =>
      refine ⟨_, _, sound.publish_logged found, fun k v held => ?_⟩
      rw [step, step_publish found] at held ⊢
      refine (durable k v held).imp_right ?_
      rintro ⟨r', written, rfl, same⟩
      exact ⟨r', written_publish found written, rfl, same⟩
  | sync i => exact ⟨logs, kept, sound.sync i, durable.frame rfl rfl rfl⟩

end Snapshotter

namespace Service

section Records

variable {count : Nat} {C : Type} [NeZero count] [Security] [Proto] [Clocker C] {s : Service count C}

end Records

section Pace

variable {count : Nat} {C : Type} {s : Service count C}

/-- What the flag and the wait group say about the goroutines. -/
structure Paced (s : Service count C) : Prop where
  flag : s.inProgress = true ↔ s.consumer = .creating
  waited : s.startOnce = true → s.wg = (if s.producer = .returned then 0 else 1) + if s.consumer = .returned then 0 else 1
  unstarted : s.startOnce = false → s.wg = 0 ∧ s.producer = .unstarted ∧ s.consumer = .unstarted

theorem paced_new (snp : Snapshotter count C) : (new snp).Paced := ⟨by simp [new], by simp [new], fun _ => ⟨rfl, rfl, rfl⟩⟩

theorem Paced.start (paced : s.Paced) : s.start.Paced := by
  unfold Service.start
  split
  · exact paced
  · rename_i first
    obtain ⟨none, -, consumer⟩ := paced.unstarted (Bool.eq_false_iff.mpr first)
    refine ⟨?_, fun _ => by simp [none], fun started => by simp at started⟩
    rw [paced.flag, consumer]
    simp

/-- A goroutine that is somewhere has been started. -/
theorem Paced.started (paced : s.Paced) (runs : s.producer ≠ .unstarted ∨ s.consumer ≠ .unstarted) : s.startOnce = true := by
  by_contra off
  obtain ⟨-, producer, consumer⟩ := paced.unstarted (Bool.eq_false_iff.mpr off)
  exact runs.elim (fun p => p producer) fun c => c consumer

theorem Paced.of_started (started : s.startOnce = true) (flag : s.inProgress = true ↔ s.consumer = .creating)
    (waited : s.wg = (if s.producer = .returned then 0 else 1) + if s.consumer = .returned then 0 else 1) : s.Paced :=
  ⟨flag, fun _ => waited, fun off => absurd (off.symm.trans started) Bool.false_ne_true⟩

theorem Paced.produce (paced : s.Paced) (tick : Bool) : (s.produce tick).Paced := by
  unfold Service.produce
  cases producer : s.producer with
  | unstarted | returned => exact paced
  | selecting =>
    have started := paced.started (Or.inl (by simp [producer]))
    have waited := paced.waited started
    dsimp only
    repeat' split
    · refine .of_started started paced.flag ?_
      simpa [producer] using waited
    · refine .of_started started paced.flag ?_
      simp [waited, producer]
    · exact paced
  | ticked | sending =>
    have started := paced.started (Or.inl (by simp [producer]))
    have waited := paced.waited started
    refine .of_started started paced.flag ?_
    cases s.inProgress <;> simpa [producer] using waited

theorem Paced.consume (paced : s.Paced) (receive : Bool) : (s.consume receive).Paced := by
  unfold Service.consume
  cases consumer : s.consumer with
  | unstarted | returned => exact paced
  | selecting =>
    have started := paced.started (Or.inr (by simp [consumer]))
    have waited := paced.waited started
    have idle : ¬s.inProgress = true := by simp [paced.flag, consumer]
    dsimp only
    repeat' split
    · refine .of_started started (by simp [idle]) ?_
      simpa [consumer] using waited
    · exact paced
    · refine .of_started started (by simp [idle]) ?_
      simp [waited, consumer]
    · exact paced
  | received =>
    have started := paced.started (Or.inr (by simp [consumer]))
    refine .of_started started (by simp) ?_
    simpa [consumer] using paced.waited started
  | creating =>
    have started := paced.started (Or.inr (by simp [consumer]))
    have waited := paced.waited started
    have flag := paced.flag
    rw [consumer] at flag waited
    cases s.snp.pc with
    | done => exact .of_started started (by simp) waited
    | idle | preparing _ | ranging _ _ _ _ | clearing _ _ => exact .of_started started flag waited

theorem Paced.fail (paced : s.Paced) : s.fail.Paced := by
  have returns (consumer : s.consumer = .creating) :
      ({ s with snp := { s.snp with pc := .idle }, inProgress := false, consumer := .selecting } : Service count C).Paced := by
    have started := paced.started (Or.inr (by simp [consumer]))
    refine .of_started started (by simp) ?_
    simpa [consumer] using paced.waited started
  unfold Service.fail
  split
  · rename_i consumer _
    exact returns consumer
  · rename_i consumer _
    exact returns consumer
  · exact paced

/-- Both goroutines have returned, and none will be started again. -/
structure Ended (s : Service count C) : Prop where
  started : s.startOnce = true
  producer : s.producer = .returned
  consumer : s.consumer = .returned

theorem Paced.ended (paced : s.Paced) (started : s.startOnce = true) (none : s.wg = 0) : s.Ended := by
  have waited := paced.waited started
  rw [none] at waited
  by_cases producer : s.producer = .returned
  · by_cases consumer : s.consumer = .returned
    · exact ⟨started, producer, consumer⟩
    · simp [consumer] at waited
  · rw [if_neg producer] at waited
    omega

/-- Snapshots that are on their way to `Create`. -/
def tokens (s : Service count C) : Nat :=
  (if s.producer = .sending then 1 else 0) + (if s.ch then 1 else 0) + (if s.consumer = .received then 1 else 0)

variable [NeZero count] [Security] [Proto] [Clocker C]

/-- **One step.** -/
theorem Paced.step (paced : s.Paced) (a : ServiceAction count) : (s.step a).Paced := by
  cases a with
  | writer a | cancel => exact ⟨paced.flag, paced.waited, paced.unstarted⟩
  | start => exact paced.start
  | produce tick => exact paced.produce tick
  | consume receive => exact paced.consume receive
  | fail => exact paced.fail

/-- **One step**: only a check that finds nothing in progress brings one more. -/
theorem tokens_step (s : Service count C) (a : ServiceAction count) :
    (s.step a).tokens + (s.begun a).length ≤ s.tokens + (s.passed a).length := by
  cases a with
  | writer a | cancel => exact Nat.le_refl _
  | start =>
    simp only [step, start, begun, passed]
    split
    · exact Nat.le_refl _
    · simp only [tokens, reduceCtorEq, if_false]
      omega
  | produce tick =>
    simp only [step, produce, begun, passed]
    cases producer : s.producer with
    | unstarted | returned => simp
    | selecting =>
      dsimp only
      repeat' split
      all_goals simp_all [tokens]
    | ticked =>
      -- the one place where the count goes up
      cases s.inProgress with
      | false =>
        simp only [tokens, producer, reduceCtorEq, if_false, if_true, and_self, List.length_nil, List.length_singleton]
        omega
      | true => simp [tokens, producer]
    | sending => cases queued : s.ch <;> simp [tokens, producer, queued]
  | consume receive =>
    simp only [step, consume, begun, passed]
    cases consumer : s.consumer with
    | unstarted | returned => simp
    | selecting =>
      cases queued : s.ch <;> repeat' split
      all_goals simp_all [tokens]
    | received => simp [tokens, consumer]
    | creating => cases s.snp.pc <;> simp [tokens, consumer]
  | fail =>
    simp only [step, fail, begun, passed]
    split
    · rename_i consumer _
      simp [tokens, consumer]
    · rename_i consumer _
      simp [tokens, consumer]
    · exact Nat.le_refl _

theorem tokens_run (s : Service count C) (actions : List (ServiceAction count)) :
    (runFrom step s actions).tokens + (emitted step begun s actions).length ≤
      s.tokens + (emitted step passed s actions).length := by
  induction actions using List.reverseRecOn with
  | nil => exact Nat.le_refl _
  | append_singleton past a ih =>
    have next := tokens_step (runFrom step s past) a
    simp only [runFrom_snoc, emitted_snoc, List.length_append]
    omega

/-- Only writers take steps. -/
theorem Ended.step (ended : s.Ended) (a : ServiceAction count) :
    (s.step a).Ended ∧ (s.step a).snp.pc = s.snp.pc ∧ (s.step a).snp.snapshot = s.snp.snapshot ∧ s.begun a = [] := by
  obtain ⟨started, producer, consumer⟩ := ended
  cases a with
  | writer a | cancel => exact ⟨⟨started, producer, consumer⟩, rfl, rfl, rfl⟩
  | start => simp [Service.step, start, started, begun, Ended.mk started producer consumer]
  | produce tick => simp [Service.step, produce, producer, begun, Ended.mk started producer consumer]
  | consume receive => simp [Service.step, consume, consumer, begun, Ended.mk started producer consumer]
  | fail => simp [Service.step, fail, consumer, begun, Ended.mk started producer consumer]

theorem Ended.run (ended : s.Ended) (more : List (ServiceAction count)) :
    (runFrom Service.step s more).snp.pc = s.snp.pc ∧ (runFrom Service.step s more).snp.snapshot = s.snp.snapshot ∧
      emitted Service.step begun s more = [] := by
  induction more generalizing s with
  | nil => exact ⟨rfl, rfl, rfl⟩
  | cons a rest ih =>
    obtain ⟨ended', pc, snapshot, silent⟩ := ended.step a
    obtain ⟨pc', snapshot', silent'⟩ := ih ended'
    exact ⟨pc'.trans pc, snapshot'.trans snapshot, by rw [emitted, silent, silent', List.append_nil]⟩

/-- **The pace of snapshots**: `inProgress` says exactly when the one consumer is inside
`Create`; every call of `Create` has a check of its own that found none in progress, and while
one runs at most two more are on their way without a check to come. Once `Stop` has waited for
a started service, no `Create` runs or will run, and the snapshot file stays as it is. -/
theorem snapshots_paced (snp : Snapshotter count C) (actions : List (ServiceAction count)) :
    let s := runFrom step (new snp) actions
    (s.inProgress = true ↔ s.consumer = .creating) ∧
      (emitted step begun (new snp) actions).length ≤ (emitted step passed (new snp) actions).length ∧
      (s.inProgress = true → ∀ more, (emitted step begun s more).length ≤ (emitted step passed s more).length + 2) ∧
      (s.startOnce = true → s.wg = 0 → s.consumer = .returned ∧ ∀ more,
        (runFrom step s more).snp.pc = s.snp.pc ∧ (runFrom step s more).snp.snapshot = s.snp.snapshot ∧
          emitted step begun s more = []) := by
  intro s
  have paced : s.Paced := runFrom_invariant (I := fun _ t => Paced t) (paced_new snp) (fun _ _ a ih => ih.step a) actions
  refine ⟨paced.flag, ?_, fun running more => ?_, fun started none => ?_⟩
  · have account := tokens_run (new snp) actions
    have empty : (new snp).tokens = 0 := rfl
    omega
  · have account := tokens_run s more
    have few : s.tokens ≤ 2 := by
      simp only [tokens, paced.flag.mp running, reduceCtorEq, if_false]
      split <;> split <;> omega
    omega
  · have ended := paced.ended started none
    exact ⟨ended.consumer, ended.run⟩

end Pace

/-- Two ticks, the second one checked before and sent after the consumer sets `inProgress`. -/
def queuedBehind : List (ServiceAction 1) :=
  [.start] ++ List.replicate 5 (.produce true) ++ [.consume true, .consume true, .produce true]

open Reference Protobuf Snapshotter in
/-- A snapshot is queued behind the running one. -/
theorem snapshots_paced_queuedBehind :
    let s := runFrom step (new fresh) queuedBehind
    s.inProgress = true ∧ s.ch = true ∧
      ∀ more, (emitted step begun s more).length ≤ (emitted step passed s more).length + 2 := by
  intro s
  have running : s.inProgress = true ∧ s.ch = true := by decide +kernel
  exact ⟨running.1, running.2, (snapshots_paced fresh queuedBehind).2.2.1 running.1⟩

end Service

end Oryx.Snap
