import Oryx.Engine.EvictionReplay

/-!
# Restarting with other settings

`Set` and `Delete` calls, a clean `Stop`, and a `NewEngine` on the same paths with
another number of segments, another buffer size or another snapshot switch. A record
lies in the file that the old number of segments selects. The new engine opens only
the files below its own number, and reads them only if snapshots are on: a live key
is found again exactly when both leave its file in reach.
-/

namespace Oryx.Core
set_option autoImplicit false
open Oryx.Library Oryx.Hashmap Oryx.Writer Oryx.Hlc

section Reconfigured

variable {count : Nat} {C : Type} [NeZero count] [Security] [Proto]

/-- Stop, then start on the same paths with `count'` segments. -/
def Engine.reconfigure (eng : Engine count C) (count' : Nat) (config : Config) (clock : C) (choices : Choices) :
    Engine count' C :=
  newEngine count' config clock (eng.stop (.logOnly fun _ => [])) choices

/-- The requests of the files as the new number of segments divides them: those of
the segments in reach, and none in a file that is new. -/
def reached {count' : Nat} (logs : Fin count → List Request) (i : Fin count') : List Request :=
  if h : i.val < count then logs ⟨i, h⟩ else []

omit [NeZero count] [Security] in
/-- What a new log over the files holds. -/
theorem bytes_reached {w : Wal count} {logs : Fin count → List Request}
    (bytes : ∀ i, (w.segments i).bytes = logBytes (logs i)) (bufferSize : UInt32) {count' : Nat} (i : Fin count') :
    ((newWal (fun n => if h : n < count then w.stop ⟨n, h⟩ else []) bufferSize count').segments i).bytes =
      logBytes (reached logs i) := by
  by_cases inside : i.val < count
  · have same := bytes ⟨i, inside⟩
    simpa [newWal, reached, inside, WalSegment.bytes, Wal.stop] using same
  · simp [newWal, reached, inside, WalSegment.bytes]

omit [NeZero count] [Security] [Proto] in
theorem mem_reached {count' : Nat} {logs : Fin count → List Request} {i : Fin count'} {r : Request} :
    r ∈ reached logs i ↔ ∃ j, j.val = i.val ∧ r ∈ logs j := by
  rw [reached]
  split
  · rename_i inside
    refine ⟨fun member => ⟨⟨i, inside⟩, rfl, member⟩, ?_⟩
    rintro ⟨j, same, member⟩
    rwa [← Fin.eq_of_val_eq (show j.val = (⟨i, inside⟩ : Fin count).val from same)]
  · rename_i outside
    refine ⟨nofun, ?_⟩
    rintro ⟨j, same, -⟩
    exact absurd j.isLt (same ▸ outside)

namespace Journal

variable {s : Journal count C} {logs : Fin count → List Request} {count' : Nat} [NeZero count']

/-- **A restart with other settings** answers from the segments it reaches. -/
theorem Replayable.get_reconfigure (replayable : s.Replayable logs) {config : Config} (wal : config.disableWal = false)
    (clock : C) (choices : Choices) (key : Key) :
    (s.eng.reconfigure count' config clock choices).get key =
      if config.recovers = true ∧ (Wal.segmentOf key : Fin count).val < count' then s.eng.get key else none := by
  obtain ⟨w, isWal, holds⟩ := replayable.holds
  have inv : (s.eng.reconfigure count' config clock choices).sw.hm.Inv hashFunc := newEngine_inv ..
  rw [Engine.get_eq inv, Engine.reconfigure, Engine.stop_wal isWal]
  by_cases recovers : config.recovers = true
  · have on : config.replays = true := by simp [Config.replays, wal, recovers]
    have bytes (i : Fin count') := bytes_reached holds.bytes config.walBufferSize i
    have faithful : ∀ i : Fin count', ∀ r ∈ reached logs i, Faithful r := by
      intro i r member
      obtain ⟨j, -, logged⟩ := mem_reached.mp member
      exact holds.faithful j r logged
    -- a request of the key is where the old number of segments put it
    have place {i : Fin count'} {r : Request} (member : r ∈ reached logs i) (same : r.key = key) :
        (Wal.segmentOf key : Fin count).val = i.val := by
      obtain ⟨j, at_i, logged⟩ := mem_reached.mp member
      rw [← same, holds.placed j r logged, at_i]
    rw [cell_newEngine_replay on (Wal.replay_ok bytes faithful choices.sched)]
    by_cases inside : (Wal.segmentOf key : Fin count).val < count'
    · rw [if_pos ⟨recovers, inside⟩, ← replayable.answer_replaySlot,
        Wal.getElem?_replay bytes faithful choices.sched
          fun i r member same => Fin.eq_of_val_eq (j := ⟨Wal.segmentOf key, inside⟩) (place member same).symm]
      simp [reached]
    · rw [if_neg fun both => inside both.2,
        Wal.getElem?_replay (j := 0) bytes faithful choices.sched
          fun i r member same => absurd (place member same ▸ i.isLt) inside]
      rcases replaySlot_cases (reached logs (0 : Fin count')) key with ⟨slot, -⟩ | ⟨r, member, same, -⟩
      · rw [slot]
        rfl
      · exact absurd (place member same ▸ (0 : Fin count').isLt) inside
  · rw [if_neg fun both => recovers both.1, hm_newEngine_fail, ShardedMap.cell_new]
    · rfl
    · intro on
      simp [Config.replays, recovers] at on

/-- Without evictions every key that a request has named has a record. -/
def Kept (s : Journal count C) : Prop := ∀ r ∈ s.carried, s.eng.sw.hm.cell hashFunc r.key ≠ none

variable [Clocker C]

/-- **One call** of `Get`, `Set` or `Delete` whose request has a timestamp of its own. -/
theorem Replayable.step_op (replayable : s.Replayable logs) (kept : s.Kept) {op : Core.Op} (faithful : s.Encodes (.op op))
    (own : s.Distinct (.op op)) : (∃ logs', (s.step (.op op)).Replayable logs') ∧ (s.step (.op op)).Kept := by
  have newest : s.Newest (.op op) := by
    rintro r carries (eviction | absent) r' member same
    · cases eviction
    · exact absurd absent (same ▸ kept r' member)
  refine ⟨replayable.step faithful own newest, ?_⟩
  have performs := s.eng.performs (.op op)
  rw [Journal.step]
  generalize (s.eng.perform (.op op)).2 = eng at performs
  cases performs with
  | nothing silent =>
    rw [silent, Option.toList_none, List.append_nil]
    exact kept
  | @apply _ r ticked carries hm wal =>
    rw [carries]
    intro r' member
    rw [Engine.hm_apply, hm, cell_merge replayable.inv]
    by_cases same : r'.key = r.key
    · rw [same, Function.update_self]
      apply LastWriter.adopt_ne_none
    · rw [Function.update_of_ne same]
      rcases List.mem_append.mp member with old | last
      · exact kept r' old
      · exact absurd (congrArg Request.key (List.mem_singleton.mp last)) same

/-- **Restart-time settings**: after any calls whose requests have timestamps of their
own, a restart on the same paths answers every `Get` as before exactly when snapshots
are on and the file of every live key is below the new number of segments, or nothing
is live. -/
theorem reconfigure_get_iff {config : Config} (wal : config.disableWal = false) (clock clock' : C)
    (choices choices' : Choices) {ops : List Core.Op}
    (encodes : Along step Encodes (start config clock choices : Journal count C) (ops.map .op))
    (distinct : Along step Distinct (start config clock choices : Journal count C) (ops.map .op))
    (bufferSize : UInt32) (disableSnapshot : Bool) :
    let s : Journal count C := runFrom step (start config clock choices) (ops.map .op)
    let config' := { config with walBufferSize := bufferSize, disableSnapshot := disableSnapshot }
    (∀ key, (s.eng.reconfigure count' config' clock' choices').get key = s.eng.get key) ↔
      ∀ key, s.eng.live key = true → config'.recovers = true ∧ (Wal.segmentOf key : Fin count).val < count' := by
  intro s config'
  have isOp : ∀ c ∈ ops.map Call.op, ∃ op, c = .op op := by simp
  have invariant := Along.invariant
    (I := fun (_ : List Call) (s : Journal count C) => (∃ logs, s.Replayable logs) ∧ s.Kept)
    ⟨⟨_, .start wal clock choices⟩, by simp [Kept, Journal.start]⟩ (fun past s c reached here => ?_)
    ((encodes.and distinct).and_mem isOp)
  · obtain ⟨⟨logs, replayable⟩, -⟩ := invariant
    have answers (key : Key) : (s.eng.reconfigure count' config' clock' choices').get key =
        if config'.recovers = true ∧ (Wal.segmentOf key : Fin count).val < count' then s.eng.get key else none :=
      replayable.get_reconfigure (show config'.disableWal = false from wal) clock' choices' key
    constructor
    · intro same key live
      by_contra lost
      have gone := (answers key).symm.trans (same key)
      rw [if_neg lost] at gone
      rw [← Engine.get_isSome, ← gone] at live
      cases live
    · intro reach key
      rw [answers key]
      split
      · rfl
      · rename_i lost
        cases found : s.eng.get key with
        | none => rfl
        | some data => exact absurd (reach key (by rw [← Engine.get_isSome, found]; rfl)) lost
  · obtain ⟨⟨⟨logs, replayable⟩, kept⟩, ⟨faithful, own⟩, op, rfl⟩ := And.intro reached here
    exact replayable.step_op kept faithful own

end Journal

end Reconfigured

open Reference Protobuf

/-- Two keys, one in each of two segments; one of them is deleted again. -/
def twoSegments : List Core.Op := [.set [97] [1], .set [101] [2], .delete [101]]

/-- The live key is in segment 1 of 2; three segments of another buffer size find it. -/
theorem reconfigure_get_iff_more :
    let s : Journal 2 SystemClock := runFrom Journal.step (Journal.start durable steadyClock .plain) (twoSegments.map .op)
    let config : Config := { durable with walBufferSize := 16, disableSnapshot := false }
    s.eng.get [97] = some [1] ∧ (s.eng.reconfigure 3 config steadyClock .plain).get [97] = s.eng.get [97] := by
  intro s config
  have inReach : ∀ key, s.eng.live key = true → config.recovers = true ∧ (Wal.segmentOf key : Fin 2).val < 3 :=
    fun key _ => ⟨by decide, (Wal.segmentOf key).isLt.trans (by decide)⟩
  exact ⟨by decide +kernel, (Journal.reconfigure_get_iff (by decide) steadyClock steadyClock .plain .plain
    (by decide +kernel) (by decide +kernel) 16 false).mpr inReach [97]⟩

/-- **Other settings lose a key**: with one segment instead of two the key's file is
not opened, and with snapshots off no file is read. -/
theorem reconfigure_loses_key :
    let s : Journal 2 SystemClock := runFrom Journal.step (Journal.start durable steadyClock .plain) (twoSegments.map .op)
    s.eng.get [97] = some [1] ∧
      (s.eng.reconfigure 1 durable steadyClock .plain).get [97] = none ∧
      (s.eng.reconfigure 2 { durable with disableSnapshot := true } steadyClock .plain).get [97] = none := by
  decide +kernel

end Oryx.Core
