import Oryx.Library.Runs
import Oryx.Clock.System
import Oryx.Wal.Protobuf
import Oryx.Engine.Operations

/-!
# Sessions on one node

Sequential runs of `Set`, `Delete`, `ApplySet` and `ApplyDelete` on an engine with its
hybrid clock, with stops and starts in between. A local write takes effect as long as
the clock is ahead of the map: the record under its key is older than the next reading
of the clock. The clock loses that lead in three ways: it starts again at zero with
every process, it ignores a replicated timestamp that is too far ahead while the map
stores it, and it stands still at its ceiling.
-/

namespace Oryx.Core
set_option autoImplicit false
open Oryx.Library Oryx.Hashmap Oryx.Writer Oryx.Hlc

inductive SessionAction where
  | set (key : Key) (value : Bytes)
  | delete (key : Key)
  /-- a replicated request arrives -/
  | apply (r : Request)
  /-- `Stop`, then `NewEngine` with a new clock on the same paths -/
  | restart (choices : Choices)
  /-- time passes -/
  | idle

abbrev Session (count : Nat) := Engine count SystemClock

namespace Session

/-! ## What the clock leaves behind -/

/-- The next reading of the clock will be later than `ts`, unless it is at its ceiling. -/
def Behind (c : SystemClock) (ts : Int64) : Prop :=
  ts.toInt ≤ c.clock.state.toNat ∨ Saturated c.clock.state ∨ ts.toInt < (sample c.wall).toNat * 65536

theorem Behind.mono {c c' : SystemClock} {ts : Int64} (behind : Behind c ts)
    (state : c.clock.state.toNat ≤ c'.clock.state.toNat) (wall : c.wall ≤ c'.wall) : Behind c' ts := by
  have later := UInt64.le_iff_toNat_le.mp (sample_mono wall)
  rcases behind with reached | full | past
  · exact Or.inl (by omega)
  · rw [saturated_iff] at full
    exact Or.inr (Or.inl (saturated_iff.mpr (by omega)))
  · exact Or.inr (Or.inr (by omega))

/-- `Now` leaves behind what was behind, and its own result. -/
theorem Behind.now {c : SystemClock} (forward : c.Forward) (returns : c.now.2.hung = false) :
    Behind c.now.2 c.now.1 ∧ ∀ {ts : Int64}, Behind c ts → Behind c.now.2 ts := by
  have wall := (forward.suffix c.now_suffix).2
  have ticks := SystemClock.now_ticks returns
  generalize c.now = ticked at ticks wall
  cases ticks with
  | saturated full state =>
    exact ⟨Or.inr (Or.inl (state ▸ full)), fun behind => behind.mono (by rw [state]) wall⟩
  | advanced advances late =>
    refine ⟨Or.inl ?_, fun behind => behind.mono advances.above.le wall⟩
    rw [toInt_toInt64 advances.bounded]

/-- Below its ceiling the clock reads later than all it has left behind. -/
theorem Behind.lt_now {c : SystemClock} {ts : Int64} (behind : Behind c ts) (forward : c.Forward)
    (returns : c.now.2.hung = false) (low : ¬Saturated c.clock.state) : ts < c.now.1 := by
  have wall := (forward.suffix c.now_suffix).2
  have ticks := SystemClock.now_ticks returns
  generalize c.now = ticked at ticks wall
  cases ticks with
  | saturated full state => exact absurd full low
  | advanced advances late =>
    have above := advances.above
    have later := UInt64.le_iff_toNat_le.mp (sample_mono wall)
    rw [Int64.lt_iff_toInt_lt, toInt_toInt64 advances.bounded]
    rcases behind with reached | full | past
    · omega
    · exact absurd full low
    · dsimp only at later
      omega

/-- `Update` leaves behind what was behind, and a timestamp that it takes in. -/
theorem Behind.update {c : SystemClock} {remote : Int64} (forward : c.Forward)
    (returns : (c.update remote).hung = false) :
    (remote < 0 ∨ absorbs remote (sample c.read.wall) = true → Behind (c.update remote) remote) ∧
      ∀ {ts : Int64}, Behind c ts → Behind (c.update remote) ts := by
  obtain ⟨up, takes⟩ := SystemClock.update_spec returns
  refine ⟨?_, fun behind => behind.mono up (forward.suffix (c.update_suffix remote)).2⟩
  rintro (negative | absorbed)
  · rw [Int64.lt_iff_toInt_lt, Int64.toInt_zero] at negative
    exact Or.inl (by omega)
  · exact (takes absorbed).imp le_of_lt Or.inl

section Sessions

variable {count : Nat} [NeZero count] [Security] [Proto]

def step (config : Config) (s : Session count) : SessionAction → Session count
  | .set key value => (Engine.set s key value).2
  | .delete key => (Engine.delete s key).2
  | .apply r => (Engine.apply s r).2
  | .restart choices => Engine.restart s config s.sw.clock.reset choices
  | .idle => { s with sw := { s.sw with clock := s.sw.clock.read } }

/-- A new engine on an empty disk. -/
def start (config : Config) (clock : SystemClock) (choices : Choices) : Session count :=
  newEngine count config clock.reset (.logOnly fun _ => []) choices

/-- A local write that returns and reports success is what the next `Get` sees. -/
def Effective (s : Session count) : SessionAction → Prop
  | .set key value =>
    (Engine.set s key value).2.sw.clock.hung = false → (Engine.set s key value).1 = none →
      (Engine.set s key value).2.get key = some value
  | .delete key =>
    (Engine.delete s key).2.sw.clock.hung = false → (Engine.delete s key).1.2 = none →
      (Engine.delete s key).2.get key = none
  | _ => True

/-- A replicated timestamp is one that `Update` takes in, or negative: below every local one. -/
def Absorbed (s : Session count) : SessionAction → Prop
  | .apply r => r.timestamp < 0 ∨ absorbs r.timestamp (sample s.sw.clock.read.wall) = true
  | _ => True

instance (s : Session count) : DecidablePred s.Absorbed
  | .apply r => inferInstanceAs (Decidable (r.timestamp < 0 ∨ absorbs r.timestamp (sample s.sw.clock.read.wall) = true))
  | .set _ _ | .delete _ | .restart _ | .idle => isTrue trivial

/-- The clock is below its ceiling when a local write asks for a timestamp. -/
def Unsaturated (s : Session count) : SessionAction → Prop
  | .set _ _ | .delete _ => ¬Saturated s.sw.clock.clock.state
  | _ => True

instance (s : Session count) : DecidablePred s.Unsaturated
  | .set _ _ | .delete _ => inferInstanceAs (Decidable (¬Saturated s.sw.clock.clock.state))
  | .apply _ | .restart _ | .idle => isTrue trivial

/-- At a restart the wall clock has passed every record. -/
def CaughtUp (s : Session count) : SessionAction → Prop
  | .restart _ => ∀ k v, s.sw.hm.cell hashFunc k = some v → v.timestamp.toInt < (sample s.sw.clock.wall).toNat * 65536
  | _ => True

/-- The request an action passes to the storage writer. -/
def issued (s : Session count) : SessionAction → Option Request
  | .set key value => some (.set ⟨key, value, (Engine.tick s).1, s.nodeID⟩)
  | .delete key => if Engine.live s key then some (.delete ⟨key, (Engine.tick s).1, s.nodeID⟩) else none
  | .apply r => some r
  | _ => none

/-- The codec reads back what it writes for the request. -/
def Readable (s : Session count) (a : SessionAction) : Prop := ∀ r ∈ s.issued a, ReadsBack r

/-- What a step does. -/
inductive Moves (config : Config) (s : Session count) : SessionAction → Session count → Prop where
  /-- a local write under a timestamp just drawn -/
  | write {a : SessionAction} {r : Request} (issues : r ∈ s.issued a) (drawn : r.timestamp = (Engine.tick s).1) :
    Moves config s a (Engine.apply (Engine.tick s).2 r).2
  | absent (key : Key) : Moves config s (.delete key) s
  | apply (r : Request) : Moves config s (.apply r) (Engine.apply s r).2
  | restart (choices : Choices) :
    Moves config s (.restart choices) (Engine.restart s config s.sw.clock.reset choices)
  | idle : Moves config s .idle { s with sw := { s.sw with clock := s.sw.clock.read } }

theorem step_moves (config : Config) (s : Session count) (a : SessionAction) : s.Moves config a (s.step config a) := by
  cases a with
  | set key value => exact .write rfl rfl
  | delete key =>
    by_cases found : Engine.live s key = true
    · rw [step, Engine.delete_live found]
      exact .write (by rw [issued, if_pos found]; rfl) rfl
    · rw [step, Engine.delete_absent found]
      exact .absent key
  | apply r => exact .apply r
  | restart choices => exact .restart choices
  | idle => exact .idle

/-! ## The clock is ahead of the map -/

/-- The clock has left every record behind. -/
structure Ahead (s : Session count) : Prop where
  inv : s.sw.hm.Inv hashFunc
  forward : s.sw.clock.Forward
  behind : ∀ k v, s.sw.hm.cell hashFunc k = some v → Behind s.sw.clock v.timestamp

variable {s : Session count}

omit [NeZero count] [Proto] in
theorem Ahead.tick (ahead : s.Ahead) (returns : (Engine.tick s).2.sw.clock.hung = false) : Ahead (Engine.tick s).2 where
  inv := ahead.inv
  forward := (ahead.forward.suffix s.sw.clock.now_suffix).1
  behind k v held := (Behind.now ahead.forward returns).2 (ahead.behind k v held)

theorem clock_apply (s : Session count) (r : Request) :
    (Engine.apply s r).2.sw.clock = s.sw.clock.update r.timestamp :=
  s.sw.clock_apply r

/-- A request whose timestamp the clock leaves behind. -/
theorem Ahead.apply (ahead : s.Ahead) {r : Request} (returns : (Engine.apply s r).2.sw.clock.hung = false)
    (behind : Behind (Engine.apply s r).2.sw.clock r.timestamp) : Ahead (Engine.apply s r).2 := by
  have clock := clock_apply s r
  refine ⟨?_, ?_, fun k v held => ?_⟩
  · rw [Engine.hm_apply]
    exact inv_merge ahead.inv r
  · rw [clock]
    exact (ahead.forward.suffix (s.sw.clock.update_suffix r.timestamp)).1
  · rw [Engine.hm_apply] at held
    rcases cell_merge_cases ahead.inv held with ⟨-, -, rfl⟩ | old
    · rwa [record_timestamp]
    · rw [clock] at returns ⊢
      exact (Behind.update ahead.forward returns).2 (ahead.behind k v old)

/-- **A local write** under a timestamp just drawn: the clock stays ahead, and below
its ceiling the write becomes the record. -/
theorem Ahead.write (ahead : s.Ahead) {r : Request} (drawn : r.timestamp = (Engine.tick s).1)
    (returns : (Engine.apply (Engine.tick s).2 r).2.sw.clock.hung = false) :
    Ahead (Engine.apply (Engine.tick s).2 r).2 ∧ (¬Saturated s.sw.clock.clock.state →
      (Engine.apply (Engine.tick s).2 r).2.sw.hm.cell hashFunc r.key = some (record r)) := by
  have clock := clock_apply (Engine.tick s).2 r
  have updated : ((Engine.tick s).2.sw.clock.update r.timestamp).hung = false := clock ▸ returns
  have ticked : s.sw.clock.now.2.hung = false := SystemClock.awake_of_update updated
  have next := ahead.tick ticked
  refine ⟨next.apply returns ?_, fun low => ?_⟩
  · rw [clock]
    refine (Behind.update next.forward updated).2 ?_
    rw [drawn]
    exact (Behind.now ahead.forward ticked).1
  · have newer (v : Value) (held : s.sw.hm.cell hashFunc r.key = some v) : v.timestamp < r.timestamp := by
      rw [drawn]
      exact (ahead.behind _ v held).lt_now ahead.forward ticked low
    rw [Engine.hm_apply, cell_merge_newer next.inv newer, Function.update_self]

/-- **One step** without a restart keeps the clock ahead. -/
theorem Ahead.step (ahead : s.Ahead) {config : Config} {a : SessionAction} (live : ∀ choices, a ≠ .restart choices)
    (absorbed : s.Absorbed a) (returns : (s.step config a).sw.clock.hung = false) : Ahead (s.step config a) := by
  have moves := step_moves config s a
  generalize Session.step config s a = s' at moves returns
  cases moves with
  | write issues drawn => exact (ahead.write drawn returns).1
  | absent key => exact ahead
  | apply r =>
    refine ahead.apply returns ?_
    rw [clock_apply] at returns ⊢
    exact (Behind.update ahead.forward returns).1 absorbed
  | restart choices => exact absurd rfl (live choices)
  | idle =>
    obtain ⟨forward, wall⟩ := ahead.forward.suffix s.sw.clock.read_suffix
    refine ⟨ahead.inv, forward, fun k v held => (ahead.behind k v held).mono ?_ wall⟩
    rw [SystemClock.clock_read]

/-- A process that sleeps forever makes no more calls. -/
theorem awake_of_step {config : Config} {a : SessionAction} (returns : (s.step config a).sw.clock.hung = false) :
    s.sw.clock.hung = false := by
  have moves := step_moves config s a
  generalize Session.step config s a = s' at moves returns
  cases moves with
  | write issues drawn =>
    rw [clock_apply] at returns
    exact SystemClock.awake_of_now (SystemClock.awake_of_update returns)
  | absent key => exact returns
  | apply r =>
    rw [clock_apply] at returns
    exact SystemClock.awake_of_update returns
  | restart choices => exact returns
  | idle => rwa [SystemClock.hung_read] at returns

/-- Below its ceiling a clock that is ahead makes local writes effective. -/
theorem Ahead.effective (config : Config) (ahead : s.sw.clock.hung = false → s.Ahead) {a : SessionAction}
    (low : s.Unsaturated a) : s.Effective a := by
  have awake (returns : (s.step config a).sw.clock.hung = false) : s.Ahead := ahead (awake_of_step returns)
  cases a with
  | set key value =>
    intro returns _
    obtain ⟨after, stored⟩ := (awake returns).write (r := .set ⟨key, value, (Engine.tick s).1, s.nodeID⟩) rfl returns
    exact Engine.get_of_cell after.inv (stored low)
  | delete key =>
    intro returns _
    have ahead := awake returns
    by_cases found : Engine.live s key = true
    · rw [Engine.delete_live found] at returns ⊢
      obtain ⟨after, stored⟩ := ahead.write (r := .delete ⟨key, (Engine.tick s).1, s.nodeID⟩) rfl returns
      exact Engine.get_of_cell after.inv (stored low)
    · rw [Engine.delete_absent found, ← Option.not_isSome_iff_eq_none, Engine.get_isSome]
      exact found
  | apply r => trivial
  | restart choices => trivial
  | idle => trivial

omit [NeZero count] in
theorem Ahead.start (config : Config) {clock : SystemClock} (forward : clock.Forward) (choices : Choices) :
    Ahead (start config clock choices : Session count) where
  inv := newEngine_inv config _ _ choices
  forward := forward
  behind k v held := by
    rw [Session.start, hm_newEngine_new, ShardedMap.cell_new] at held
    cases held

/-- **Replicated writes and local ones**: without restarts, local writes are effective
as long as the clock takes in every replicated timestamp and stays below its ceiling. -/
theorem effective_of_absorbed (config : Config) {clock : SystemClock} (forward : clock.Forward) (choices : Choices)
    {actions : List SessionAction} (running : ∀ choices, .restart choices ∉ actions)
    (absorbed : Along (step config) Absorbed (start config clock choices : Session count) actions)
    (unsaturated : Along (step config) Unsaturated (start config clock choices : Session count) actions) :
    Along (step config) Effective (start config clock choices : Session count) actions := by
  have others : ∀ a ∈ actions, ∀ choices, a ≠ .restart choices := by
    rintro a member choices rfl
    exact running choices member
  refine Along.imp (I := fun s => s.sw.clock.hung = false → s.Ahead) (fun s a ahead here returns => ?_)
    (fun s a ahead here => ?_) (fun _ => Ahead.start config forward choices) ((absorbed.and unsaturated).and_mem others)
  · exact (ahead (awake_of_step returns)).step here.2 here.1.1 returns
  · exact Ahead.effective config ahead here.1.2

/-! ## Restarts -/

/-- Nothing in the log is later than the record of its key. -/
def Traced (config : Config) (s : Session count) : Prop :=
  config.replays = true → ∃ logs, Engine.Holds s logs ∧
    ∀ i, ∀ r ∈ logs i, ∃ v, s.sw.hm.cell hashFunc r.key = some v ∧ r.timestamp ≤ v.timestamp

theorem Traced.apply {config : Config} (traced : s.Traced config) (inv : s.sw.hm.Inv hashFunc) {r : Request}
    (reads : ReadsBack r) : Traced config (Engine.apply s r).2 := by
  intro on
  obtain ⟨logs, holds, below⟩ := traced on
  obtain ⟨logs', next, only⟩ := holds.apply_readsBack reads
  refine ⟨logs', next, fun i r' member => ?_⟩
  rw [Engine.hm_apply]
  rcases only i r' member with old | ⟨rfl, accepted⟩
  · obtain ⟨v, held, le⟩ := below i r' old
    obtain ⟨v', held', up⟩ := exists_later_merge inv r held
    exact ⟨v', held', le.trans up⟩
  · exact ⟨record r', cell_merge_accepted inv accepted, (record_timestamp r').ge⟩

/-- After a restart every record is a logged request, and nothing in the log is later. -/
theorem Traced.restart {config : Config} (traced : s.Traced config) (choices : Choices) :
    Traced config (s.step config (.restart choices)) ∧
      ∀ k v, (s.step config (.restart choices)).sw.hm.cell hashFunc k = some v →
        ∃ v', s.sw.hm.cell hashFunc k = some v' ∧ v.timestamp ≤ v'.timestamp := by
  cases on : config.replays with
  | false =>
    refine ⟨fun on' => absurd (on.symm.trans on') Bool.false_ne_true, fun k v held => ?_⟩
    rw [Session.step, Engine.hm_restart_off s on, ShardedMap.cell_new] at held
    cases held
  | true =>
    obtain ⟨logs, holds, below⟩ := traced on
    obtain ⟨kept, recovered⟩ := holds.restart on s.sw.clock.reset choices
    refine ⟨fun _ => ⟨logs, kept, fun i r member => ?_⟩, fun k v held => ?_⟩
    · obtain ⟨w, -, placed⟩ := holds
      rcases replaySlot_cases (logs (Wal.segmentOf r.key)) r.key with ⟨-, absent⟩ | ⟨r', -, key, latest, slot⟩
      · exact absurd rfl (absent r (placed.placed i r member ▸ member))
      · refine ⟨_, (recovered r.key).trans (by rw [slot]; rfl), ?_⟩
        show r.timestamp ≤ (replayed r').timestamp
        rw [replayed_timestamp]
        exact latest r (placed.placed i r member ▸ member) rfl
    · rw [Session.step, recovered] at held
      rcases replaySlot_cases (logs (Wal.segmentOf k)) k with ⟨slot, -⟩ | ⟨r, inLog, key, -, slot⟩
      · rw [slot] at held
        cases held
      · rw [slot] at held
        obtain ⟨v', held', le⟩ := below _ r inLog
        obtain rfl := Option.some.inj held
        refine ⟨v', key ▸ held', ?_⟩
        show (replayed r).timestamp ≤ v'.timestamp
        rwa [replayed_timestamp]

/-- One step keeps the map's invariant and the log behind the map. -/
theorem Traced.step {config : Config} (traced : s.Traced config) (inv : s.sw.hm.Inv hashFunc) {a : SessionAction}
    (reads : s.Readable a) : (s.step config a).sw.hm.Inv hashFunc ∧ Traced config (s.step config a) := by
  have moves := step_moves config s a
  generalize Session.step config s a = s' at moves
  cases moves with
  | write issues drawn =>
    have ticked : Traced config (Engine.tick s).2 := traced
    refine ⟨?_, ticked.apply inv (reads _ issues)⟩
    rw [Engine.hm_apply]
    exact inv_merge inv _
  | absent key => exact ⟨inv, traced⟩
  | apply r =>
    refine ⟨?_, traced.apply inv (reads r rfl)⟩
    rw [Engine.hm_apply]
    exact inv_merge inv r
  | restart choices => exact ⟨Engine.restart_inv s config _ choices, (traced.restart choices).1⟩
  | idle => exact ⟨inv, traced⟩

/-- A restart after which the clock starts again ahead of the map. -/
theorem Ahead.restart {config : Config} (ahead : s.Ahead) (traced : s.Traced config) {choices : Choices}
    (caughtUp : s.CaughtUp (.restart choices)) : Ahead (s.step config (.restart choices)) where
  inv := Engine.restart_inv s config _ choices
  forward := ahead.forward
  behind k v held := by
    obtain ⟨v', held', le⟩ := (traced.restart choices).2 k v held
    have past := caughtUp k v' held'
    rw [Int64.le_iff_toInt_le] at le
    exact Or.inr (Or.inr (lt_of_le_of_lt le past))

/-- What holds between the calls of a session with restarts. -/
structure Sound (config : Config) (s : Session count) : Prop where
  inv : s.sw.hm.Inv hashFunc
  traced : s.Traced config
  ahead : s.sw.clock.hung = false → s.Ahead

theorem Sound.start (config : Config) {clock : SystemClock} (forward : clock.Forward) (choices : Choices) :
    Sound config (start config clock choices : Session count) where
  inv := newEngine_inv config _ _ choices
  traced on := ⟨fun _ => [], Engine.Holds.start (Config.wal_of_replays on) _ choices, by simp⟩
  ahead _ := Ahead.start config forward choices

theorem Sound.step {config : Config} (sound : s.Sound config) {a : SessionAction} (absorbed : s.Absorbed a)
    (reads : s.Readable a) (caughtUp : s.CaughtUp a) : Sound config (s.step config a) where
  inv := (sound.traced.step sound.inv reads).1
  traced := (sound.traced.step sound.inv reads).2
  ahead returns := by
    have ahead := sound.ahead (awake_of_step returns)
    by_cases restarts : ∃ choices, a = .restart choices
    · obtain ⟨choices, rfl⟩ := restarts
      exact ahead.restart sound.traced caughtUp
    · exact ahead.step (fun choices same => restarts ⟨choices, same⟩) absorbed returns

/-- **Local writes across restarts**: with every replicated timestamp taken in, local
writes are effective as long as no restart happens before the wall clock has passed
every record and the clock stays below its ceiling. -/
theorem effective_across_restarts (config : Config) {clock : SystemClock} (forward : clock.Forward) (choices : Choices)
    {actions : List SessionAction}
    (absorbed : Along (step config) Absorbed (start config clock choices : Session count) actions)
    (readable : Along (step config) Readable (start config clock choices : Session count) actions)
    (caughtUp : Along (step config) CaughtUp (start config clock choices : Session count) actions)
    (unsaturated : Along (step config) Unsaturated (start config clock choices : Session count) actions) :
    Along (step config) Effective (start config clock choices : Session count) actions := by
  refine Along.imp (I := Sound config) (fun s a sound here => ?_) (fun s a sound here => ?_)
    (Sound.start config forward choices) ((absorbed.and readable).and (caughtUp.and unsaturated))
  · exact sound.step here.1.1 here.1.2 here.2.1
  · exact Ahead.effective config sound.ahead here.2.2

end Sessions

end Session

open Reference Protobuf Session

/-- A replicated write from four seconds ahead, then a local one. -/
theorem effective_of_absorbed_ahead :
    Along (step durable) Effective (start durable steadyClock .plain : Session 1)
      [.apply (.set ⟨[97], [1], 5000 * 65536, [111]⟩), .set [97] [2]] :=
  effective_of_absorbed durable (by decide) .plain (by simp) (by decide +kernel) (by decide +kernel)

/-- **An ineffective write**: a replicated write from a minute ahead is stored and not
taken in by the clock. The local write after it reports success and changes nothing. -/
theorem set_ineffective :
    let s : Session 1 := runFrom (step durable) (start durable steadyClock .plain)
      [.apply (.set ⟨[97], [1], 61000 * 65536, [111]⟩)]
    let written := Engine.set s [97] [2]
    steadyClock.Forward ∧ written.2.sw.clock.hung = false ∧ written.1 = none ∧ written.2.get [97] = some [1] := by
  decide +kernel

/-- Two local writes with a restart between them. -/
theorem effective_across_restarts_local :
    Along (step durable) Effective (start durable steadyClock .plain : Session 1)
      [.set [97] [1], .restart .plain, .set [97] [2]] := by
  refine effective_across_restarts durable (by decide) .plain (by decide +kernel) ⟨?_, ?_, ?_, trivial⟩
    ⟨trivial, fun k v held => ?_, trivial, trivial⟩ (by decide +kernel)
  · have drawn : issued (start durable steadyClock .plain : Session 1) (.set [97] [1]) =
        some (.set ⟨[97], [1], 1001 * 65536, [110]⟩) := by decide +kernel
    rw [Readable, drawn]
    rintro r ⟨rfl⟩
    exact Faithful.readsBack (by decide +kernel)
  · exact nofun
  · have drawn : issued (runFrom (step durable) (start durable steadyClock .plain : Session 1)
        [.set [97] [1], .restart .plain]) (.set [97] [2]) = some (.set ⟨[97], [2], 1003 * 65536, [110]⟩) := by
      decide +kernel
    show ∀ r ∈ issued (runFrom (step durable) (start durable steadyClock .plain : Session 1)
        [.set [97] [1], .restart .plain]) (.set [97] [2]), ReadsBack r
    rw [drawn]
    rintro r ⟨rfl⟩
    exact Faithful.readsBack (by decide +kernel)
  · rw [step, Engine.set, Engine.hm_apply, Engine.hm_tick, start, hm_newEngine_new] at held
    rcases cell_merge_cases (ShardedMap.inv_new hashFunc) held with ⟨-, -, rfl⟩ | old
    · rw [record_timestamp]
      decide +kernel
    · rw [ShardedMap.cell_new] at old
      cases old

/-- **An ineffective write after a restart**: a replicated write from four seconds
ahead is taken in by the clock, but the clock starts again at zero. -/
theorem set_ineffective_after_restart :
    let actions : List SessionAction := [.apply (.set ⟨[97], [1], 5000 * 65536, [111]⟩), .restart .plain]
    let s : Session 1 := runFrom (step durable) (start durable steadyClock .plain) actions
    let written := Engine.set s [97] [2]
    steadyClock.Forward ∧ Along (step durable) Absorbed (start durable steadyClock .plain : Session 1) actions ∧
      written.2.sw.clock.hung = false ∧ written.1 = none ∧ written.2.get [97] = some [1] := by
  decide +kernel

end Oryx.Core
