import Oryx.Clock.System
import Oryx.Wal.Protobuf
import Oryx.Engine.Calls

/-!
# Evictions across a restart

Calls one after the other, evictions among them, then a restart. The map applies an
eviction whatever its timestamp is; replay keeps, under every key, the record with the
greatest timestamp, be it a write or the Delete record of an eviction. The two agree as
long as an eviction is the latest of what its key has seen, and a key that is written
while it is absent is written later than all it has seen.
-/

namespace Oryx.Core
set_option autoImplicit false
open Oryx.Library Oryx.Hashmap Oryx.Writer Oryx.Hlc

def Call.isEviction : Call → Bool
  | .evict _ _ => true
  | _ => false

/-- An engine and the requests that its calls have carried so far, the Delete records
of evictions among them. -/
structure Journal (count : Nat) (C : Type) where
  eng : Engine count C
  carried : List Request

section Evictions

variable {count : Nat} {C : Type} [NeZero count] [Security] [Proto] [Clocker C]

namespace Engine

/-- The request that a call carries. -/
def carries (eng : Engine count C) : Call → Option Request
  | .op (.get _) => none
  | .op (.set key value) => some (.set ⟨key, value, eng.tick.1, eng.nodeID⟩)
  | .op (.delete key) => if eng.live key then some (.delete ⟨key, eng.tick.1, eng.nodeID⟩) else none
  | .apply r => some r
  | .evict key _ => some (.delete ⟨key, eng.tick.1, eng.nodeID⟩)

/-- What a call does to the map and the log. -/
inductive Performs (eng : Engine count C) : Call → Engine count C → Prop where
  | nothing {c : Call} (silent : eng.carries c = none) : Performs eng c eng
  | apply {c : Call} {r : Request} {ticked : Engine count C} (carries : eng.carries c = some r)
    (hm : ticked.sw.hm = eng.sw.hm) (wal : ticked.sw.wal = eng.sw.wal) : Performs eng c (ticked.apply r).2
  | evict (key : Key) (reason : Reason) (req : DeleteRequest)
    (carries : eng.carries (.evict key reason) = some (.delete req)) :
    Performs eng (.evict key reason) ((eng.tick.2.evictMap reason req).publish (.delete req)).2

theorem performs (eng : Engine count C) (c : Call) : eng.Performs c (eng.perform c).2 := by
  match c with
  | .op (.get key) => exact .nothing rfl
  | .op (.set key value) => exact .apply rfl rfl rfl
  | .op (.delete key) =>
    rw [perform]
    by_cases found : eng.live key = true
    · rw [delete_live found]
      exact .apply (if_pos found) rfl rfl
    · rw [delete_absent found]
      exact .nothing (if_neg found)
  | .apply r => exact .apply rfl rfl rfl
  | .evict key reason => exact .evict key reason _ rfl

end Engine

namespace Journal

def step (s : Journal count C) (c : Call) : Journal count C :=
  ⟨(s.eng.perform c).2, s.carried ++ (s.eng.carries c).toList⟩

def start (config : Config) (clock : C) (choices : Choices) : Journal count C :=
  ⟨newEngine count config clock (.logOnly fun _ => []) choices, []⟩

/-- The request of the call has a timestamp of its own among those of its key. -/
def Distinct (s : Journal count C) (c : Call) : Prop :=
  ∀ r ∈ s.eng.carries c, ∀ r' ∈ s.carried, r'.key = r.key → r'.timestamp ≠ r.timestamp

/-- An eviction, and a write of a key that is absent, are later than all their key has seen. -/
def Newest (s : Journal count C) (c : Call) : Prop :=
  ∀ r ∈ s.eng.carries c, c.isEviction = true ∨ s.eng.sw.hm.cell hashFunc r.key = none →
    ∀ r' ∈ s.carried, r'.key = r.key → r'.timestamp < r.timestamp

def Encodes (s : Journal count C) (c : Call) : Prop := ∀ r ∈ s.eng.carries c, Faithful r

/-- The key and the latest request it has seen. -/
inductive Last (cells : Key → Option Value) (log carried : List Request) (key : Key) : Prop where
  | untouched (absent : cells key = none) (unseen : ∀ r ∈ carried, r.key ≠ key)
  | top {r : Request} (inLog : r ∈ log) (same : r.key = key)
    (latest : ∀ r' ∈ carried, r'.key = key → r'.timestamp ≤ r.timestamp)
    (held : cells key = some (record r) ∨ cells key = none ∧ answer r.toValue = none)

/-- Under every key the log ends as the map does. -/
structure Replayable (s : Journal count C) (logs : Fin count → List Request) : Prop where
  inv : s.eng.sw.hm.Inv hashFunc
  holds : s.eng.Holds logs
  logged : ∀ i, ∀ r ∈ logs i, r ∈ s.carried
  distinct : DistinctTimestamps s.carried
  last : ∀ key, Last (s.eng.sw.hm.cell hashFunc) (logs (Wal.segmentOf key)) s.carried key

omit [Proto] in
/-- A request of another key changes nothing. -/
theorem Last.other {cells cells' : Key → Option Value} {log log' carried : List Request} {key : Key}
    (last : Last cells log carried key) {r : Request} (other : r.key ≠ key) (same : cells' key = cells key)
    (grows : log ⊆ log') : Last cells' log' (carried ++ [r]) key := by
  have old {r' : Request} (member : r' ∈ carried ++ [r]) (key' : r'.key = key) : r' ∈ carried := by
    rcases List.mem_append.mp member with before | last
    · exact before
    · rw [List.mem_singleton.mp last] at key'
      exact absurd key' other
  cases last with
  | untouched absent unseen => exact .untouched (same ▸ absent) fun r' member key' => unseen r' (old member key') key'
  | top inLog isKey latest held =>
    exact .top (grows inLog) isKey (fun r' member key' => latest r' (old member key') key') (same ▸ held)

omit [Proto] in
/-- A request later than all before it on its key is the latest. -/
theorem Last.newest {cells : Key → Option Value} {log carried : List Request} {r : Request} (inLog : r ∈ log)
    (newest : ∀ r' ∈ carried, r'.key = r.key → r'.timestamp < r.timestamp)
    (held : cells r.key = some (record r) ∨ cells r.key = none ∧ answer r.toValue = none) :
    Last cells log (carried ++ [r]) r.key := by
  refine .top inLog rfl (fun r' member key => ?_) held
  rcases List.mem_append.mp member with before | last
  · exact (newest r' before key).le
  · rw [List.mem_singleton.mp last]

variable {s : Journal count C} {logs : Fin count → List Request}

omit [Clocker C] in
theorem Replayable.start {config : Config} (wal : config.disableWal = false) (clock : C) (choices : Choices) :
    Replayable (start config clock choices : Journal count C) fun _ => [] where
  inv := newEngine_inv config clock _ choices
  holds := Engine.Holds.start wal clock choices
  logged := by simp
  distinct := by simp [Journal.start, DistinctTimestamps]
  last key := by
    refine .untouched ?_ (by simp [Journal.start])
    rw [Journal.start, hm_newEngine_new, ShardedMap.cell_new]

omit [Clocker C] in
/-- **A request that is logged** and later than all before it on its key. -/
theorem Replayable.log (replayable : s.Replayable logs) {eng : Engine count C} {r : Request}
    (inv : eng.sw.hm.Inv hashFunc) (holds : eng.Holds (Wal.logged logs r))
    (cells : ∀ key, key ≠ r.key → eng.sw.hm.cell hashFunc key = s.eng.sw.hm.cell hashFunc key)
    (held : eng.sw.hm.cell hashFunc r.key = some (record r) ∨
      eng.sw.hm.cell hashFunc r.key = none ∧ answer r.toValue = none)
    (newest : ∀ r' ∈ s.carried, r'.key = r.key → r'.timestamp < r.timestamp) :
    Replayable ⟨eng, s.carried ++ [r]⟩ (Wal.logged logs r) where
  inv := inv
  holds := holds
  logged i r' member := by
    rcases Wal.mem_logged.mp member with old | ⟨rfl, -⟩
    · exact List.mem_append_left _ (replayable.logged i r' old)
    · exact List.mem_append_right _ (List.mem_singleton_self _)
  distinct := replayable.distinct.snoc fun r' member key => (newest r' member key).ne
  last key := by
    by_cases same : key = r.key
    · subst same
      exact .newest (Wal.mem_logged.mpr (Or.inr ⟨rfl, rfl⟩)) newest held
    · exact (replayable.last key).other (Ne.symm same) (cells key same)
        fun r' member => Wal.mem_logged.mpr (Or.inl member)

omit [Clocker C] in
/-- An accepted request with a timestamp of its own is later than all before it. -/
theorem Replayable.newest_of_accepted (replayable : s.Replayable logs) {r : Request}
    (accepted : (merge s.eng.sw.hm r).2 = true)
    (own : ∀ r' ∈ s.carried, r'.key = r.key → r'.timestamp ≠ r.timestamp)
    (newest : s.eng.sw.hm.cell hashFunc r.key = none → ∀ r' ∈ s.carried, r'.key = r.key → r'.timestamp < r.timestamp)
    (r' : Request) (member : r' ∈ s.carried) (key : r'.key = r.key) : r'.timestamp < r.timestamp := by
  cases replayable.last r.key with
  | untouched absent unseen => exact absurd key (unseen r' member)
  | @top r₀ inLog same latest held =>
    rcases held with held | ⟨absent, -⟩
    · rw [merge_accepted replayable.inv, held, ShardedMap.accepts, lwwWins_iff] at accepted
      have up := timestamp_le_of_rank_le accepted.le
      rw [record_timestamp, record_timestamp] at up
      exact lt_of_le_of_lt (latest r' member key) (lt_of_le_of_ne up (own r₀ (replayable.logged _ r₀ inLog) same))
    · exact newest absent r' member key

/-- **A request**, accepted or stale, leaves the log ending as the map does. -/
theorem Replayable.apply (replayable : s.Replayable logs) {ticked : Engine count C}
    (hm : ticked.sw.hm = s.eng.sw.hm) (wal : ticked.sw.wal = s.eng.sw.wal) {r : Request} (faithful : Faithful r)
    (own : ∀ r' ∈ s.carried, r'.key = r.key → r'.timestamp ≠ r.timestamp)
    (newest : s.eng.sw.hm.cell hashFunc r.key = none → ∀ r' ∈ s.carried, r'.key = r.key → r'.timestamp < r.timestamp) :
    ∃ logs', Replayable ⟨(ticked.apply r).2, s.carried ++ [r]⟩ logs' := by
  have holds : ticked.Holds logs := by
    rw [Engine.Holds, wal]
    exact replayable.holds
  have published := (holds.apply faithful).2
  have cells : (ticked.apply r).2.sw.hm = (merge s.eng.sw.hm r).1 := by rw [Engine.hm_apply, hm]
  rw [hm] at published
  cases accepted : (merge s.eng.sw.hm r).2 with
  | true =>
    rw [accepted, if_pos rfl] at published
    refine ⟨_, replayable.log (cells ▸ inv_merge replayable.inv r) published (fun key other => ?_) (Or.inl ?_)
      (replayable.newest_of_accepted accepted own newest)⟩
    · rw [cells, cell_merge replayable.inv, Function.update_of_ne other]
    · rw [cells]
      exact cell_merge_accepted replayable.inv accepted
  | false =>
    rw [accepted, if_neg Bool.false_ne_true] at published
    rw [merge_stale replayable.inv accepted] at cells
    refine ⟨logs, cells ▸ replayable.inv, published,
      fun i r' member => List.mem_append_left _ (replayable.logged i r' member), replayable.distinct.snoc own,
      fun key => ?_⟩
    rw [cells]
    by_cases same : key = r.key
    · subst same
      obtain ⟨v, held', above⟩ := exists_above_stale replayable.inv accepted
      cases replayable.last r.key with
      | untouched absent unseen =>
        rw [absent] at held'
        cases held'
      | @top r₀ inLog same latest held =>
        have isRecord : v = record r₀ := by
          rcases held with held | ⟨absent, -⟩
          · exact Option.some.inj (held'.symm.trans held)
          · rw [absent] at held'
            cases held'
        subst isRecord
        have below := timestamp_le_of_rank_le above
        rw [record_timestamp, record_timestamp] at below
        refine .top inLog same (fun r' member key => ?_) held
        rcases List.mem_append.mp member with before | last
        · exact latest r' before key
        · rwa [List.mem_singleton.mp last]
    · exact (replayable.last key).other (Ne.symm same) rfl (List.Subset.refl _)

/-- **One call** leaves the log ending as the map does. -/
theorem Replayable.step (replayable : s.Replayable logs) {c : Call} (faithful : s.Encodes c) (own : s.Distinct c)
    (newest : s.Newest c) : ∃ logs', (s.step c).Replayable logs' := by
  have performs := s.eng.performs c
  rw [Journal.step]
  generalize (s.eng.perform c).2 = eng at performs
  cases performs with
  | nothing silent =>
    rw [silent, Option.toList_none, List.append_nil]
    exact ⟨logs, replayable⟩
  | @apply _ r _ carries hm wal =>
    rw [carries]
    exact replayable.apply hm wal (faithful r carries) (own r carries) fun absent => newest r carries (Or.inr absent)
  | evict key reason req carries =>
    rw [carries]
    have inv : s.eng.tick.2.sw.hm.Inv hashFunc := replayable.inv
    obtain ⟨evictedInv, cells⟩ := Engine.evictMap_spec inv reason req
    have holds : (s.eng.tick.2.evictMap reason req).Holds logs := replayable.holds
    refine ⟨_, replayable.log evictedInv (holds.publish (faithful _ carries)).2 (fun key' other => ?_) ?_
      (newest _ carries (Or.inl rfl))⟩
    · exact (congrFun cells key').trans (Function.update_of_ne other ..)
    · have after : (s.eng.tick.2.evictMap reason req).sw.hm.cell hashFunc req.key = Engine.evicted reason req :=
        (congrFun cells req.key).trans (Function.update_self ..)
      cases reason with
      | ttl => exact Or.inl after
      | capacity => exact Or.inr ⟨after, rfl⟩

omit [Clocker C] in
/-- What the log of a key leaves answers as its record does. -/
theorem Replayable.answer_replaySlot (replayable : s.Replayable logs) (key : Key) :
    ((replaySlot (logs (Wal.segmentOf key)) key).map (withItemHash (hashFunc key))).bind answer = s.eng.get key := by
  rw [Engine.get_eq replayable.inv]
  cases replayable.last key with
  | untouched absent unseen =>
    rcases replaySlot_cases (logs (Wal.segmentOf key)) key with ⟨slot, -⟩ | ⟨r, inLog, same, -⟩
    · rw [slot, absent]
      rfl
    · exact absurd same (unseen r (replayable.logged _ r inLog))
  | @top r inLog same latest held =>
    subst same
    have slot := replaySlot_latest inLog (fun r' member => latest r' (replayable.logged _ r' member))
      fun r' member => replayable.distinct r (replayable.logged _ r inLog) r' (replayable.logged _ r' member)
    have live : (s.eng.sw.hm.cell hashFunc r.key).bind answer = answer r.toValue := by
      rcases held with held | ⟨absent, gone⟩
      · rw [held]
        rfl
      · rw [absent, gone]
        rfl
    rw [slot, live]
    exact answer_replayed r _

omit [Clocker C] in
/-- A restart answers from the latest request of every key. -/
theorem Replayable.get_restart (replayable : s.Replayable logs) {config : Config} (on : config.replays = true) (clock : C)
    (choices : Choices) (key : Key) : (s.eng.restart config clock choices).get key = s.eng.get key := by
  rw [Engine.get_eq (Engine.restart_inv ..), (replayable.holds.restart on clock choices).2 key,
    replayable.answer_replaySlot]

/-- **Evictions across a restart**: when every eviction, and every write of an absent
key, is later than all its key has seen, a restarted engine answers every `Get` as before. -/
theorem restart_get_evicting {config : Config} (on : config.replays = true) (clock clock' : C)
    (choices choices' : Choices) {calls : List Call}
    (encodes : Along step Encodes (start config clock choices : Journal count C) calls)
    (distinct : Along step Distinct (start config clock choices : Journal count C) calls)
    (newest : Along step Newest (start config clock choices : Journal count C) calls) (key : Key) :
    let s : Journal count C := runFrom step (start config clock choices) calls
    (s.eng.restart config clock' choices').get key = s.eng.get key := by
  intro s
  have reached := Along.invariant (I := fun (_ : List Call) (s : Journal count C) => ∃ logs, s.Replayable logs)
    ⟨_, .start (Config.wal_of_replays on) clock choices⟩ (fun past s c replayable here => ?_)
    ((encodes.and distinct).and newest)
  · obtain ⟨logs, replayable⟩ := reached
    exact replayable.get_restart on clock' choices' key
  · obtain ⟨logs, replayable⟩ := replayable
    exact replayable.step here.1.1 here.1.2 here.2

instance (s : Journal count C) (c : Call) : Decidable (s.Encodes c) :=
  inferInstanceAs (Decidable (∀ r ∈ s.eng.carries c, Faithful r))

instance (s : Journal count C) (c : Call) : Decidable (s.Distinct c) :=
  inferInstanceAs (Decidable (∀ r ∈ s.eng.carries c, ∀ r' ∈ s.carried, r'.key = r.key → r'.timestamp ≠ r.timestamp))

instance (s : Journal count C) (c : Call) : Decidable (s.Newest c) :=
  inferInstanceAs (Decidable (∀ r ∈ s.eng.carries c,
    c.isEviction = true ∨ s.eng.sw.hm.cell hashFunc r.key = none →
      ∀ r' ∈ s.carried, r'.key = r.key → r'.timestamp < r.timestamp))

end Journal

end Evictions

open Reference Protobuf

/-- A write, its eviction, and a second write of the key. -/
def writtenAgain : List Call := [.op (.set [97] [1]), .evict [97] .capacity, .op (.set [97] [2])]

theorem restart_get_evicting_again :
    let s : Journal 1 SystemClock := runFrom Journal.step (Journal.start durable steadyClock .plain) writtenAgain
    (s.eng.restart durable steadyClock .plain).get [97] = s.eng.get [97] :=
  Journal.restart_get_evicting (by decide) _ _ _ _ (by decide +kernel) (by decide +kernel) (by decide +kernel) [97]

/-- **An evicted key comes back**: the eviction of a replicated record from a minute
ahead draws a smaller timestamp, so replay prefers the record. -/
theorem restart_resurrects_evicted :
    let calls : List Call := [.apply (.set ⟨[97], [1], 61000 * 65536, [111]⟩), .evict [97] .capacity]
    let s : Journal 1 SystemClock := runFrom Journal.step (Journal.start durable steadyClock .plain) calls
    Along Journal.step Journal.Distinct (Journal.start durable steadyClock .plain : Journal 1 SystemClock) calls ∧
      s.eng.get [97] = none ∧ (s.eng.restart durable steadyClock .plain).get [97] = some [1] := by
  decide +kernel

end Oryx.Core
