import Oryx.Security.Reference
import Oryx.Snap.Files

/-!
# What a failed `clearSegment` leaves

`clearSegment` has a point of no return in each of its branches: the truncation when it keeps
nothing, the rename when it keeps what is behind the offset. A call that fails before that
point leaves the file as it was and the handle on it, and what is published later reaches it.
A call that fails behind it, with the error returned all the same, leaves a shorter file; behind
the rename it also leaves the segment with a handle that is closed.
-/

namespace Oryx.Snap
set_option autoImplicit false
open Oryx.Library

/-! ## A segment in use -/

/-- A segment of a running log: its file, whether `seg.file` is a closed handle, and whether
`seg.wrt` has failed. A `bufio.Writer` that has failed once refuses all that follows. -/
structure LiveSegment where
  segment : SegmentFile
  closed : Bool
  stuck : Bool

/-- A `Publish` of a record's bytes or a flush, with whether it returned without an error. -/
inductive LogEvent where
  | publish (record : Bytes) (ok : Bool)
  | flush (ok : Bool)

namespace LiveSegment

/-- The buffer holds more, and a part of it has been written. A closed handle takes nothing. -/
def Took (x : LiveSegment) (more : Bytes) (segment : SegmentFile) : Prop :=
  ∃ n, (x.closed = true → n = 0) ∧ segment = (x.segment.setBuffered (x.segment.buffered ++ more)).drain n

/-- What an event can do to the segment. When the buffer is flushed on the way is up to the
writer; a failure sticks to it. -/
def Step (x : LiveSegment) : LogEvent → LiveSegment → Prop
  | .publish record true, x' =>
    x.stuck = false ∧ x'.closed = x.closed ∧ x'.stuck = false ∧ x.Took record x'.segment
  | .publish record false, x' =>
    x'.closed = x.closed ∧ x'.stuck = true ∧ (x'.segment = x.segment ∨ ∃ n, x.Took (record.take n) x'.segment)
  | .flush true, x' =>
    x.stuck = false ∧ (x.closed = true → x.segment.buffered = []) ∧ x'.closed = x.closed ∧ x'.stuck = false ∧
      x'.segment = x.segment.drain x.segment.buffered.length
  | .flush false, x' =>
    x'.closed = x.closed ∧ x'.stuck = true ∧ (x'.segment = x.segment ∨ x.Took [] x'.segment)

inductive Runs : LiveSegment → List LogEvent → LiveSegment → Prop
  | done {x : LiveSegment} : Runs x [] x
  | step {x y z : LiveSegment} {event : LogEvent} {rest : List LogEvent} (first : x.Step event y)
      (later : Runs y rest z) : Runs x (event :: rest) z

/-- The bytes published without an error up to the last flush without an error. -/
def durable (pending : Bytes) : List LogEvent → Bytes
  | [] => []
  | .publish record ok :: rest => durable (if ok then pending ++ record else pending) rest
  | .flush ok :: rest => if ok then pending ++ durable [] rest else durable pending rest

/-- Whatever is published and flushed from here on is found in the file at the path. -/
def Attached (x : LiveSegment) : Prop :=
  ∀ events x', Runs x events x' → x.segment.file.content ++ durable [] events <+: x'.segment.file.content

end LiveSegment

section Drain

variable {s : SegmentFile}

theorem drain_linked (linked : s.unlinked = none) (n : Nat) :
    (s.drain n).unlinked = none ∧ s.file.content <+: (s.drain n).file.content ∧
      (s.drain n).file.content ++ (s.drain n).buffered = s.file.content ++ s.buffered := by
  obtain ⟨file, unlinked, position, buffered, tmp⟩ := s
  obtain rfl : unlinked = none := linked
  by_cases empty : buffered = []
  · simp [SegmentFile.drain, empty]
  · simp [SegmentFile.drain, empty, SegmentFile.setOpened, SegmentFile.setBuffered, SegmentFile.setPosition,
      SegmentFile.opened]

theorem drain_all (linked : s.unlinked = none) :
    (s.drain s.buffered.length).file.content = s.file.content ++ s.buffered ∧
      (s.drain s.buffered.length).buffered = [] := by
  have empty : (s.drain s.buffered.length).buffered = [] := by
    by_cases empty : s.buffered = []
    · simp [SegmentFile.drain, empty]
    · simp [SegmentFile.drain, empty, SegmentFile.setBuffered, SegmentFile.setPosition]
  have all := (drain_linked linked s.buffered.length).2.2
  rw [empty, List.append_nil] at all
  exact ⟨all, empty⟩

end Drain

namespace LiveSegment

/-- The handle is open on the file at the path, whose contents start with `base`, and unless
the writer has failed the file and the buffer together are `base` and what is pending. -/
structure Follows (x : LiveSegment) (base pending : Bytes) : Prop where
  linked : x.segment.unlinked = none
  starts : base <+: x.segment.file.content
  account : x.stuck = false → x.segment.file.content ++ x.segment.buffered = base ++ pending

variable {x y : LiveSegment} {base pending more : Bytes}

theorem Follows.took (follows : x.Follows base pending) {segment : SegmentFile} (took : x.Took more segment) :
    segment.unlinked = none ∧ base <+: segment.file.content ∧
      (x.stuck = false → segment.file.content ++ segment.buffered = base ++ (pending ++ more)) := by
  obtain ⟨n, _, rfl⟩ := took
  obtain ⟨linked, grown, all⟩ := drain_linked (s := x.segment.setBuffered (x.segment.buffered ++ more))
    follows.linked n
  refine ⟨linked, follows.starts.trans grown, fun working => all.trans ?_⟩
  have account := follows.account working
  rw [← List.append_assoc base, ← account, List.append_assoc]
  rfl

/-- **Step.** One event: `base` grows by what is pending when a flush succeeds. -/
theorem Follows.step (follows : x.Follows base pending) {event : LogEvent} (step : x.Step event y) :
    match event with
    | .publish record ok => y.Follows base (if ok then pending ++ record else pending)
    | .flush ok => if ok then y.Follows (base ++ pending) [] else y.Follows base pending := by
  have failed (more : Bytes) (stuck : y.stuck = true)
      (kept : y.segment = x.segment ∨ x.Took more y.segment) : y.Follows base pending := by
    have never {P : Prop} (working : y.stuck = false) : P := by
      rw [stuck] at working
      cases working
    rcases kept with same | took
    · exact ⟨by rw [same]; exact follows.linked, by rw [same]; exact follows.starts, never⟩
    · obtain ⟨linked, starts, _⟩ := follows.took took
      exact ⟨linked, starts, never⟩
  cases event with
  | publish record ok =>
    cases ok with
    | true =>
      obtain ⟨working, _, _, took⟩ := step
      obtain ⟨linked, starts, account⟩ := follows.took took
      exact ⟨linked, starts, fun _ => account working⟩
    | false =>
      obtain ⟨_, stuck, same | ⟨n, took⟩⟩ := step
      · exact failed [] stuck (Or.inl same)
      · exact failed _ stuck (Or.inr took)
  | flush ok =>
    cases ok with
    | true =>
      obtain ⟨working, _, _, _, drained⟩ := step
      obtain ⟨content, empty⟩ := drain_all follows.linked
      have written : y.segment.file.content = base ++ pending := by
        rw [drained, content, follows.account working]
      refine ⟨?_, ?_, fun _ => ?_⟩
      · rw [drained]
        exact (drain_linked follows.linked _).1
      · rw [written]
      · rw [written, drained, empty]
    | false =>
      obtain ⟨_, stuck, kept⟩ := step
      exact failed [] stuck kept

/-- **Run.** -/
theorem Follows.runs {events : List LogEvent} (runs : Runs x events y) (follows : x.Follows base pending) :
    base ++ durable pending events <+: y.segment.file.content := by
  induction runs generalizing base pending with
  | done =>
    rw [durable, List.append_nil]
    exact follows.starts
  | @step x y z event rest first later ih =>
    have next := follows.step first
    cases event with
    | publish record ok => exact ih next
    | flush ok =>
      cases ok with
      | true =>
        have grown := ih next
        rwa [List.append_assoc] at grown
      | false => exact ih next

theorem attached_of_linked (linked : x.segment.unlinked = none) (drained : x.segment.buffered = []) :
    x.Attached := by
  intro events x' runs
  refine Follows.runs runs ⟨linked, List.prefix_rfl, fun _ => ?_⟩
  rw [drained]

/-- A record that fits is taken whatever the handle: it waits in the buffer. -/
theorem exists_publish (working : x.stuck = false) (record : Bytes) : ∃ y, x.Step (.publish record true) y :=
  ⟨⟨(x.segment.setBuffered (x.segment.buffered ++ record)).drain 0, x.closed, false⟩, working, rfl, rfl, 0,
    fun _ => rfl, rfl⟩

theorem file_drain_zero (s : SegmentFile) : (s.drain 0).file = s.file := by
  obtain ⟨file, unlinked, position, buffered, tmp⟩ := s
  by_cases empty : buffered = []
  · simp [SegmentFile.drain, empty]
  · cases unlinked <;> simp [SegmentFile.drain, empty, SegmentFile.setOpened, SegmentFile.setBuffered,
      SegmentFile.setPosition, SegmentFile.opened]

/-- A segment whose handle is closed never writes again. -/
theorem Runs.file_of_closed {events : List LogEvent} (runs : Runs x events y) (closed : x.closed = true) :
    y.segment.file = x.segment.file := by
  have took {x : LiveSegment} {more : Bytes} {segment : SegmentFile} (closed : x.closed = true)
      (took : x.Took more segment) : segment.file = x.segment.file := by
    obtain ⟨n, nothing, rfl⟩ := took
    rw [nothing closed]
    exact file_drain_zero _
  induction runs with
  | done => rfl
  | @step x y z event rest first later ih =>
    cases event with
    | publish record ok =>
      cases ok with
      | true =>
        obtain ⟨_, still, _, taken⟩ := first
        exact (ih (still.trans closed)).trans (took closed taken)
      | false =>
        obtain ⟨still, _, same | ⟨n, taken⟩⟩ := first
        · rw [ih (still.trans closed), same]
        · exact (ih (still.trans closed)).trans (took closed taken)
    | flush ok =>
      cases ok with
      | true =>
        obtain ⟨_, nothing, still, _, drained⟩ := first
        rw [ih (still.trans closed), drained, nothing closed]
        exact file_drain_zero _
      | false =>
        obtain ⟨still, _, same | taken⟩ := first
        · rw [ih (still.trans closed), same]
        · exact (ih (still.trans closed)).trans (took closed taken)

end LiveSegment

/-! ## The run of `clearSegment` -/

section Clear

open DiskState

variable {count : Nat} {i : Fin count}

/-- A call that fails behind the point of no return of its branch; `bytes` is what the segment
held. -/
def LateFault (i : Fin count) (bytes : Bytes) : DiskOp count × Except Error Int → Prop
  | (.segment j (.seek offset), .error _) => j = i ∧ offset = 0 ∧ bytes ≠ []
  | (.segment j .close, .error _) | (.segment j .reopen, .error _) | (.segment j .seekNew, .error _) => j = i
  | _ => False

/-- Whether the old handle has been closed: an `os.File` is closed after `Close`, also when that
returns an error. -/
def closedBy (i : Fin count) (calls : List (DiskOp count × Except Error Int)) : Bool :=
  calls.any fun c =>
    match c.1 with
    | .segment j .close => j = i
    | _ => false

/-- A call that neither is such a failure nor closes the handle. -/
def Quiet (i : Fin count) (bytes : Bytes) (c : DiskOp count × Except Error Int) : Prop :=
  ¬LateFault i bytes c ∧ closedBy i [c] = false

/-- The file at the path holds `bytes`, the handle is on it, and nothing is buffered. -/
structure Whole (bytes : Bytes) (s : SegmentFile) : Prop where
  content : s.file.content = bytes
  linked : s.unlinked = none
  drained : s.buffered = []

/-- What a run that fails has left, by where it failed. -/
def Outcome (i : Fin count) (bytes : Bytes) (calls : List (DiskOp count × Except Error Int))
    (out : Except Error Unit) (s : SegmentFile) : Prop :=
  ∀ err, out = .error err →
    Whole bytes s ∧ (∀ c ∈ calls, Quiet i bytes c) ∨ s.file.content ≠ bytes ∧ ∃ c ∈ calls, LateFault i bytes c

/-- Every run of the program from here ends so. -/
def Comes (i : Fin count) (bytes : Bytes) (p : DiskProg count Unit) (d : DiskState count) : Prop :=
  ∀ calls out d', Prog.Ends DiskState.exec p d calls out d' → Outcome i bytes calls out (d'.segments i)

/-- A part in front of the point of no return: from `I`, it returns in `J` or fails with the
segment whole. -/
def Steps (i : Fin count) (bytes : Bytes) (I : SegmentFile → Prop) {α : Type} (p : DiskProg count α)
    (J : α → SegmentFile → Prop) : Prop :=
  ∀ d calls out d', I (d.segments i) → Prog.Ends DiskState.exec p d calls out d' →
    (∀ c ∈ calls, Quiet i bytes c) ∧ (∀ err, out = .error err → Whole bytes (d'.segments i)) ∧
      ∀ a, out = .ok a → J a (d'.segments i)

variable {bytes : Bytes} {I : SegmentFile → Prop} {op : SegmentOp}

theorem segment_exec {d d' : DiskState count} {reply : Except Error Int}
    (step : d.exec (.segment i op) reply d') : (d.segments i).exec op reply (d'.segments i) := by
  obtain ⟨s', done, rfl⟩ := exec_segment step
  rwa [segments_setSegment_self]

theorem steps_ask {J : Int → SegmentFile → Prop} (quiet : ∀ reply, Quiet i bytes (.segment i op, reply))
    (done : ∀ s n s', I s → s.perform op = some (n, s') → J n s')
    (fails : ∀ s s', I s → s.Spoils s' op → Whole bytes s') :
    Steps i bytes I (Prog.ask (.segment i op)) J := by
  intro d calls out d' start ends
  obtain ⟨rfl, step⟩ := ends.ask_cases
  have moved := segment_exec step
  refine ⟨fun c member => ?_, ?_, ?_⟩
  · rw [List.mem_singleton.mp member]
    exact quiet out
  · rintro err rfl
    exact fails _ _ start moved
  · rintro n rfl
    exact done _ _ _ start moved

/-- The calls of two parts after one another. -/
theorem Steps.bind {α β : Type} {J : α → SegmentFile → Prop} {K : β → SegmentFile → Prop} {p : DiskProg count α}
    {f : α → DiskProg count β} (first : Steps i bytes I p J) (second : ∀ a, Steps i bytes (J a) (f a) K) :
    Steps i bytes I (p >>= f) K := by
  intro d calls out d' start ends
  obtain ⟨before, after, a, middle, ran, rest, rfl⟩ | ⟨err, failed, rfl⟩ := ends.bind_cases
  · obtain ⟨quiet, _, reached⟩ := first d before _ middle start ran
    obtain ⟨quiet', whole, returned⟩ := second a middle after out d' (reached a rfl) rest
    exact ⟨List.forall_mem_append.mpr ⟨quiet, quiet'⟩, whole, returned⟩
  · obtain ⟨quiet, whole, _⟩ := first d calls _ d' start failed
    exact ⟨quiet, fun _ _ => whole err rfl, nofun⟩

theorem steps_pure {α : Type} {J : α → SegmentFile → Prop} (a : α) (imp : ∀ s, I s → J a s) :
    Steps i bytes I (pure a) J := by
  intro d calls out d' start ends
  cases ends
  refine ⟨nofun, nofun, ?_⟩
  rintro _ ⟨⟩
  exact imp _ start

theorem steps_onSegment {J : SegmentFile → Prop} (quiet : ∀ reply, Quiet i bytes (.segment i op, reply))
    (done : ∀ s n s', I s → s.perform op = some (n, s') → J s')
    (fails : ∀ s s', I s → s.Spoils s' op → Whole bytes s') :
    Steps i bytes I (onSegment i op) fun _ => J :=
  Steps.bind (steps_ask (J := fun _ => J) quiet done fails) fun _ => steps_pure () fun _ held => held

/-- A handler that makes calls the segment survives, and then fails itself. -/
theorem Steps.orElse {J : Unit → SegmentFile → Prop} {p : DiskProg count Unit} {handler : Error → DiskProg count Unit}
    (body : Steps i bytes I p J) (handled : ∀ err, Steps i bytes (Whole bytes) (handler err) J) :
    Steps i bytes I (tryCatch p handler) J := by
  intro d calls out d' start ends
  obtain ⟨a, ran, rfl⟩ | ⟨before, after, err, middle, failed, rest, rfl⟩ := ends.orElse_cases
  · exact body d calls _ d' start ran
  · obtain ⟨quiet, whole, _⟩ := body d before _ middle start failed
    obtain ⟨quiet', outcome⟩ := handled err middle after out d' (whole err rfl) rest
    exact ⟨List.forall_mem_append.mpr ⟨quiet, quiet'⟩, outcome⟩

theorem steps_throw {J : Unit → SegmentFile → Prop} (err : Error) :
    Steps i bytes (Whole bytes) (throw err) J := by
  intro d calls out d' start ends
  cases ends
  exact ⟨nofun, fun _ _ => start, nofun⟩

theorem steps_ignore {J : Unit → SegmentFile → Prop} (quiet : ∀ reply, Quiet i bytes (.segment i op, reply))
    (keeps : ∀ s reply s', I s → s.exec op reply s' → J () s') :
    Steps i bytes I (Prog.ignore (.segment i op)) J := by
  intro d calls out d' start ends
  obtain ⟨reply, rfl, rfl, step⟩ := ends.ignore_cases
  refine ⟨fun c member => ?_, nofun, fun _ _ => keeps _ reply _ start (segment_exec step)⟩
  rw [List.mem_singleton.mp member]
  exact quiet reply

/-- In front of the rest of a program. -/
theorem Steps.comes {α : Type} {J : α → SegmentFile → Prop} {p : DiskProg count α} {f : α → DiskProg count Unit}
    {d : DiskState count} (first : Steps i bytes I p J) (start : I (d.segments i))
    (rest : ∀ a d', J a (d'.segments i) → Comes i bytes (f a) d') : Comes i bytes (p >>= f) d := by
  intro calls out d' ends err isError
  obtain ⟨before, after, a, middle, ran, later, rfl⟩ | ⟨err, failed, rfl⟩ := ends.bind_cases
  · obtain ⟨quiet, _, reached⟩ := first d before _ middle start ran
    rcases rest a middle (reached a rfl) after out d' later err isError with ⟨whole, quiet'⟩ | ⟨differs, c, late, fault⟩
    · exact Or.inl ⟨whole, List.forall_mem_append.mpr ⟨quiet, quiet'⟩⟩
    · exact Or.inr ⟨differs, c, List.mem_append_right _ late, fault⟩
  · obtain ⟨quiet, whole, _⟩ := first d calls _ d' start failed
    exact Or.inl ⟨whole err rfl, quiet⟩

/-- A part behind the point of no return: the file stays another one, and when the part fails a
late fault is among its calls. -/
def Behind (i : Fin count) (bytes : Bytes) {α : Type} (p : DiskProg count α) : Prop :=
  ∀ d calls out d', (d.segments i).file.content ≠ bytes → Prog.Ends DiskState.exec p d calls out d' →
    (d'.segments i).file.content ≠ bytes ∧ ∀ err, out = .error err → ∃ c ∈ calls, LateFault i bytes c

theorem Behind.comes {p : DiskProg count Unit} (behind : Behind i bytes p) {d : DiskState count}
    (differs : (d.segments i).file.content ≠ bytes) : Comes i bytes p d := by
  intro calls out d' ends err isError
  obtain ⟨still, fault⟩ := behind d calls out d' differs ends
  exact Or.inr ⟨still, fault err isError⟩

theorem Behind.bind {α β : Type} {p : DiskProg count α} {f : α → DiskProg count β} (first : Behind i bytes p)
    (second : ∀ a, Behind i bytes (f a)) : Behind i bytes (p >>= f) := by
  intro d calls out d' differs ends
  obtain ⟨before, after, a, middle, ran, rest, rfl⟩ | ⟨err, failed, rfl⟩ := ends.bind_cases
  · obtain ⟨still, faults⟩ := second a middle after out d' (first d before _ middle differs ran).1 rest
    refine ⟨still, fun err isError => ?_⟩
    obtain ⟨c, member, fault⟩ := faults err isError
    exact ⟨c, List.mem_append_right _ member, fault⟩
  · obtain ⟨still, faults⟩ := first d calls _ d' differs failed
    exact ⟨still, fun _ _ => faults err rfl⟩

theorem behind_onSegment (op : SegmentOp)
    (keeps : ∀ (s : SegmentFile) reply s', s.exec op reply s' → s'.file.content = s.file.content)
    (faults : ∀ (s s' : SegmentFile) err, s.Spoils s' op → LateFault i bytes (.segment i op, .error err)) :
    Behind i bytes (onSegment i op) := by
  intro d calls out d' differs ends
  obtain ⟨before, after, n, middle, asked, rest, rfl⟩ | ⟨err, asked, rfl⟩ := ends.bind_cases
  · cases rest
    obtain ⟨_, step⟩ := asked.ask_cases
    refine ⟨?_, nofun⟩
    rw [keeps _ _ _ (segment_exec step)]
    exact differs
  · obtain ⟨rfl, step⟩ := asked.ask_cases
    have moved := segment_exec step
    refine ⟨?_, fun _ _ => ⟨_, List.mem_singleton_self _, faults _ _ err moved⟩⟩
    rw [keeps _ _ _ moved]
    exact differs

theorem Behind.orElse {p : DiskProg count Unit} {handler : Error → DiskProg count Unit} (body : Behind i bytes p)
    (handled : ∀ err d calls out d', (d.segments i).file.content ≠ bytes →
      Prog.Ends DiskState.exec (handler err) d calls out d' → (d'.segments i).file.content ≠ bytes) :
    Behind i bytes (tryCatch p handler) := by
  intro d calls out d' differs ends
  obtain ⟨a, ran, rfl⟩ | ⟨before, after, err, middle, failed, rest, rfl⟩ := ends.orElse_cases
  · exact body d calls _ d' differs ran
  · obtain ⟨still, faults⟩ := body d before _ middle differs failed
    obtain ⟨c, member, fault⟩ := faults err rfl
    exact ⟨handled err middle after out d' still rest, fun _ _ => ⟨c, List.mem_append_left _ member, fault⟩⟩

/-! ## The two branches -/

/-- The calls that neither fail late nor close the handle. -/
def early : SegmentOp → Bool
  | .seek offset => offset ≠ 0
  | .close | .reopen | .seekNew => false
  | _ => true

theorem quiet_of_early (isEarly : early op = true) (reply : Except Error Int) :
    Quiet i bytes (.segment i op, reply) := by
  cases op with
  | seek offset =>
    have nonzero : offset ≠ 0 := by simpa [early] using isEarly
    cases reply with
    | ok n => exact ⟨id, rfl⟩
    | error err => exact ⟨fun late => nonzero late.2.1, rfl⟩
  | close => cases isEarly
  | reopen => cases isEarly
  | seekNew => cases isEarly
  | _ => cases reply <;> exact ⟨id, rfl⟩

theorem Whole.opened {s : SegmentFile} (whole : Whole bytes s) : s.opened = s.file := by
  rw [SegmentFile.opened, whole.linked]
  rfl

theorem Whole.spoils_tmp {s s' : SegmentFile} (whole : Whole bytes s)
    (spoils : ∃ tmp position, s' = (s.setClearTmp tmp).setPosition position) : Whole bytes s' := by
  obtain ⟨tmp, position, rfl⟩ := spoils
  exact ⟨whole.content, whole.linked, whole.drained⟩

theorem steps_removeTmp :
    Steps i bytes (Whole bytes) (Prog.ignore (.segment i .removeTmp)) fun _ => Whole bytes := by
  refine steps_ignore (quiet_of_early rfl) ?_
  rintro s (err | n) s' whole step
  · obtain rfl : s' = s := step
    exact whole
  · obtain ⟨tmp, _, same⟩ := Option.map_eq_some_iff.mp step
    obtain ⟨-, rfl⟩ := Prod.mk.inj same
    exact ⟨whole.content, whole.linked, whole.drained⟩

theorem steps_closeTmp :
    Steps i bytes (Whole bytes) (Prog.ignore (.segment i .closeTmp)) fun _ => Whole bytes := by
  refine steps_ignore (quiet_of_early rfl) ?_
  rintro s (err | n) s' whole step
  · exact whole.spoils_tmp step
  · obtain ⟨-, rfl⟩ := Prod.mk.inj (Option.some.inj step)
    exact whole

section Parts

variable {J : SegmentFile → Prop} (isEarly : early op = true)
  (done : ∀ s n s', I s → s.perform op = some (n, s') → J s')
  (fails : ∀ s s', I s → s.Spoils s' op → Whole bytes s')
include isEarly done fails

theorem steps_orDiscard : Steps i bytes I (orDiscard i op) fun _ => J :=
  Steps.orElse (steps_onSegment (quiet_of_early isEarly) done fails) fun err =>
    steps_closeTmp.bind fun _ => steps_removeTmp.bind fun _ => steps_throw err

theorem steps_orRemove : Steps i bytes I (orRemove i op) fun _ => J :=
  Steps.orElse (steps_onSegment (quiet_of_early isEarly) done fails) fun err =>
    steps_removeTmp.bind fun _ => steps_throw err

end Parts

/-- The segment is whole, and its temporary file holds `copied`. -/
def HoldsCopy (bytes copied : Bytes) (s : SegmentFile) : Prop :=
  Whole bytes s ∧ ∃ tmp, s.clearTmp = some tmp ∧ tmp.content = copied

theorem HoldsCopy.tmp {copied : Bytes} {s : SegmentFile} (holds : HoldsCopy bytes copied s)
    {f : Stored Bytes → Int × SegmentFile} {out : Int × SegmentFile} (done : s.clearTmp.map f = some out) :
    ∃ tmp, tmp.content = copied ∧ f tmp = out := by
  obtain ⟨_, tmp, isTmp, same⟩ := holds
  rw [isTmp] at done
  exact ⟨tmp, same, Option.some.inj done⟩

theorem steps_seek {offset : Int} (inside : 0 < offset) :
    Steps i bytes (Whole bytes) (onSegment i (.seek offset)) fun _ s => Whole bytes s ∧ s.position = offset.toNat := by
  have nonzero : early (.seek offset) = true := by simp [early, inside.ne']
  refine steps_onSegment (quiet_of_early nonzero) ?_ ?_
  · intro s n s' whole done
    rw [SegmentFile.perform, if_neg (by omega)] at done
    obtain ⟨-, rfl⟩ := Prod.mk.inj (Option.some.inj done)
    exact ⟨⟨whole.content, whole.linked, whole.drained⟩, rfl⟩
  · rintro s s' whole rfl
    exact whole

theorem steps_openTmp (position : Nat) :
    Steps i bytes (fun s => Whole bytes s ∧ s.position = position) (onSegment i .openTmp) fun _ s =>
      HoldsCopy bytes [] s ∧ s.position = position := by
  refine steps_onSegment (quiet_of_early rfl) ?_ ?_
  · rintro s n s' ⟨whole, sought⟩ done
    obtain ⟨-, rfl⟩ := Prod.mk.inj (Option.some.inj done)
    exact ⟨⟨⟨whole.content, whole.linked, whole.drained⟩, _, rfl, rfl⟩, sought⟩
  · rintro s s' ⟨whole, _⟩ spoils
    exact whole.spoils_tmp spoils

theorem steps_copyTmp (position : Nat) :
    Steps i bytes (fun s => HoldsCopy bytes [] s ∧ s.position = position) (orDiscard i .copyTmp) fun _ =>
      HoldsCopy bytes (bytes.drop position) := by
  refine steps_orDiscard rfl ?_ ?_
  · rintro s n s' ⟨holds, sought⟩ done
    have whole := holds.1
    obtain ⟨tmp, empty, same⟩ := holds.tmp done
    obtain ⟨-, rfl⟩ := Prod.mk.inj same
    refine ⟨⟨whole.content, whole.linked, whole.drained⟩, _, rfl, ?_⟩
    show tmp.content ++ s.opened.content.drop s.position = _
    rw [empty, whole.opened, whole.content, sought, List.nil_append]
  · rintro s s' ⟨⟨whole, _⟩, _⟩ spoils
    exact whole.spoils_tmp spoils

theorem steps_syncTmp (copied : Bytes) :
    Steps i bytes (HoldsCopy bytes copied) (orDiscard i .syncTmp) fun _ => HoldsCopy bytes copied := by
  refine steps_orDiscard rfl ?_ ?_
  · intro s n s' holds done
    obtain ⟨tmp, same, moved⟩ := holds.tmp done
    obtain ⟨-, rfl⟩ := Prod.mk.inj moved
    exact ⟨⟨holds.1.content, holds.1.linked, holds.1.drained⟩, _, rfl, same⟩
  · rintro s s' ⟨whole, _⟩ spoils
    exact whole.spoils_tmp spoils

theorem steps_closeCopy (copied : Bytes) :
    Steps i bytes (HoldsCopy bytes copied) (orRemove i .closeTmp) fun _ => HoldsCopy bytes copied := by
  refine steps_orRemove rfl ?_ ?_
  · intro s n s' holds done
    obtain ⟨-, rfl⟩ := Prod.mk.inj (Option.some.inj done)
    exact holds
  · rintro s s' ⟨whole, _⟩ spoils
    exact whole.spoils_tmp spoils

/-- The point of no return of the copy. -/
theorem steps_renameTmp {copied : Bytes} (shorter : copied ≠ bytes) :
    Steps i bytes (HoldsCopy bytes copied) (orRemove i .renameTmp) fun _ s => s.file.content ≠ bytes := by
  refine steps_orRemove rfl ?_ ?_
  · intro s n s' holds done
    obtain ⟨tmp, same, moved⟩ := holds.tmp done
    obtain ⟨-, rfl⟩ := Prod.mk.inj moved
    rw [← same] at shorter
    exact shorter
  · rintro s s' ⟨whole, _⟩ rfl
    exact whole

/-- The calls behind the rename do not touch the file at the path. -/
theorem exec_behind_rename {s s' : SegmentFile} {reply : Except Error Int}
    (behind : op = .close ∨ op = .reopen ∨ op = .seekNew ∨ op = .closeNew) (step : s.exec op reply s') : s' = s := by
  rcases behind with rfl | rfl | rfl | rfl
  all_goals
    cases reply with
    | ok n => exact (Prod.mk.inj (Option.some.inj step)).2.symm
    | error err => exact step

theorem behind_adopt : Behind i bytes (onSegment i .adopt) := by
  refine behind_onSegment .adopt ?_ fun _ _ _ never => False.elim never
  rintro s (err | n) s' step
  · exact False.elim step
  · obtain ⟨-, rfl⟩ := Prod.mk.inj (Option.some.inj step)
    rfl

theorem behind_seekNew :
    Behind i bytes (tryCatch (onSegment i .seekNew) fun err => do
      Prog.ignore (.segment i .closeNew)
      throw err) := by
  refine Behind.orElse (behind_onSegment .seekNew (fun _ _ _ step => ?_) fun _ _ _ _ => rfl) ?_
  · rw [exec_behind_rename (by simp) step]
  · intro err d calls out d' differs ends
    obtain ⟨before, after, _, middle, ran, rest, rfl⟩ | ⟨_, failed, _⟩ := ends.bind_cases
    · cases rest
      obtain ⟨reply, _, _, step⟩ := ran.ignore_cases
      rw [exec_behind_rename (by simp) (segment_exec step)]
      exact differs
    · obtain ⟨_, _, never, _⟩ := failed.ignore_cases
      cases never

/-- **The branch that keeps the trailing bytes.** -/
theorem comes_keepTrailing {offset : Int} (inside : 0 < offset) (short : offset < bytes.length)
    {d : DiskState count} (whole : Whole bytes (d.segments i)) : Comes i bytes (keepTrailing i offset) d := by
  have shorter : bytes.drop offset.toNat ≠ bytes := by
    intro same
    have lengths := congrArg List.length same
    rw [List.length_drop] at lengths
    omega
  have unmoved {op : SegmentOp} (behind : op = .close ∨ op = .reopen ∨ op = .seekNew ∨ op = .closeNew)
      (s : SegmentFile) (reply : Except Error Int) (s' : SegmentFile) (step : s.exec op reply s') :
      s'.file.content = s.file.content := by
    rw [exec_behind_rename behind step]
  refine (steps_seek inside).comes whole fun _ _ sought => ?_
  refine (steps_openTmp offset.toNat).comes sought fun _ _ opened => ?_
  refine (steps_copyTmp offset.toNat).comes opened fun _ _ copied => ?_
  refine (steps_syncTmp _).comes copied fun _ _ synced => ?_
  refine (steps_closeCopy _).comes synced fun _ _ closed => ?_
  refine (steps_renameTmp shorter).comes closed fun _ _ renamed => ?_
  refine Behind.comes ?_ renamed
  refine Behind.bind (behind_onSegment .close (unmoved (by simp)) fun _ _ _ _ => rfl) fun _ => ?_
  refine Behind.bind (behind_onSegment .reopen (unmoved (by simp)) fun _ _ _ _ => rfl) fun _ => ?_
  exact Behind.bind behind_seekNew fun _ => behind_adopt

/-- The point of no return when nothing is kept. -/
theorem steps_truncate :
    Steps i bytes (Whole bytes) (onSegment i .truncate) fun _ => Whole [] := by
  refine steps_onSegment (quiet_of_early rfl) ?_ ?_
  · intro s n s' whole done
    obtain ⟨-, rfl⟩ := Prod.mk.inj (Option.some.inj done)
    have linked := whole.linked
    simp only [SegmentFile.setOpened, linked]
    exact ⟨rfl, rfl, whole.drained⟩
  · rintro s s' whole rfl
    exact whole

theorem exec_seekStart {s s' : SegmentFile} {reply : Except Error Int} (step : s.exec (.seek 0) reply s') :
    s' = s ∨ s' = s.setPosition 0 := by
  cases reply with
  | ok n => exact Or.inr (Prod.mk.inj (Option.some.inj step)).2.symm
  | error err => exact Or.inl step

theorem exec_reset {s s' : SegmentFile} {reply : Except Error Int} (step : s.exec .reset reply s') :
    s' = s.setBuffered [] := by
  cases reply with
  | ok n => exact (Prod.mk.inj (Option.some.inj step)).2.symm
  | error err => exact False.elim step

/-- **The branch that keeps nothing.** A segment that was empty is whole all the way. -/
theorem comes_dropAll {d : DiskState count} (whole : Whole bytes (d.segments i)) :
    Comes i bytes (dropAll i) d := by
  refine steps_truncate.comes whole fun _ d truncated => ?_
  by_cases empty : bytes = []
  · subst empty
    have sought : Steps i [] (Whole []) (onSegment i (.seek 0)) fun _ => Whole [] := by
      refine steps_onSegment (fun reply => ?_) ?_ ?_
      · cases reply with
        | ok n => exact ⟨id, rfl⟩
        | error err => exact ⟨fun late => late.2.2 rfl, rfl⟩
      · intro s n s' whole done
        obtain ⟨-, rfl⟩ := Prod.mk.inj (Option.some.inj done)
        exact ⟨whole.content, whole.linked, whole.drained⟩
      · rintro s s' whole rfl
        exact whole
    have reset : Steps i [] (Whole []) (onSegment i .reset) fun _ => Whole [] := by
      refine steps_onSegment (quiet_of_early rfl) ?_ fun _ _ _ never => False.elim never
      intro s n s' whole done
      obtain ⟨-, rfl⟩ := Prod.mk.inj (Option.some.inj done)
      exact ⟨whole.content, whole.linked, rfl⟩
    intro calls out d' ends err isError
    obtain ⟨quiet, left, _⟩ := (sought.bind fun _ => reset) d calls out d' truncated ends
    exact Or.inl ⟨left err isError, quiet⟩
  · have differs : (d.segments i).file.content ≠ bytes := by
      rw [truncated.content]
      exact Ne.symm empty
    refine Behind.comes (Behind.bind (behind_onSegment (.seek 0) ?_ fun _ _ _ _ => ⟨rfl, rfl, empty⟩) fun _ =>
      behind_onSegment .reset ?_ fun _ _ _ never => False.elim never) differs
    · intro s reply s' step
      rcases exec_seekStart step with rfl | rfl <;> rfl
    · intro s reply s' step
      rw [exec_reset step]
      rfl

theorem steps_seekEnd :
    Steps i bytes (Whole bytes) (Prog.ask (.segment i .seekEnd)) fun n s => Whole bytes s ∧ n = bytes.length := by
  refine steps_ask (quiet_of_early rfl) ?_ ?_
  · intro s n s' whole done
    obtain ⟨rfl, rfl⟩ := Prod.mk.inj (Option.some.inj done)
    exact ⟨⟨whole.content, whole.linked, whole.drained⟩, by rw [whole.opened, whole.content]⟩
  · rintro s s' whole rfl
    exact whole

/-- **`clearSegment` behind its flush.** -/
theorem comes_clear (offset : Int) {d : DiskState count} (whole : Whole bytes (d.segments i)) :
    Comes i bytes (do
      let currSize ← Prog.ask (.segment i .seekEnd)
      if offset ≤ 0 ∨ currSize ≤ offset then dropAll i else keepTrailing i offset) d := by
  refine steps_seekEnd.comes whole fun currSize d sought => ?_
  obtain ⟨whole, rfl⟩ := sought
  split
  · exact comes_dropAll whole
  · rename_i inside
    exact comes_keepTrailing (by omega) (by omega) whole

theorem whole_flush {s s' : SegmentFile} {n : Int} (linked : s.unlinked = none)
    (done : s.perform .flush = some (n, s')) : Whole s.view.flush.file s' := by
  obtain ⟨-, rfl⟩ := Prod.mk.inj (Option.some.inj done)
  obtain ⟨content, empty⟩ := drain_all linked
  exact ⟨content, (drain_linked linked _).1, empty⟩

theorem not_closedBy {calls : List (DiskOp count × Except Error Int)} (quiet : ∀ c ∈ calls, Quiet i bytes c) :
    closedBy i calls = false := by
  refine List.any_eq_false.mpr fun c member => ?_
  have here := (quiet c member).2
  rw [closedBy, List.any_cons, List.any_nil, Bool.or_false] at here
  rw [here]
  exact Bool.false_ne_true

/-- **A failed `clearSegment`**, whatever calls have failed in it after the flush: the file at
the path has the bytes it had after the flush, and what is published and flushed later is found
there, exactly when no call failed behind the point of no return. The handle is then still open. -/
theorem failed_clear_whole_iff (i : Fin count) (offset : Int) (d : DiskState count)
    (linked : (d.segments i).unlinked = none) (calls : List (DiskOp count × Except Error Int)) (err : Error)
    (d' : DiskState count) (failed : Prog.Ends DiskState.exec (clearSegment i offset) d calls (.error err) d')
    (flushed : ∀ e, (.segment i .flush, .error e) ∉ calls) :
    let bytes := (d.segments i).view.flush.file
    let left : LiveSegment := ⟨d'.segments i, closedBy i calls, false⟩
    (((d'.segments i).file.content = bytes ∧ left.Attached) ↔ ∀ c ∈ calls, ¬LateFault i bytes c) ∧
      ((∀ c ∈ calls, ¬LateFault i bytes c) → left.closed = false) := by
  intro bytes left
  have outcome : Outcome i bytes calls (.error err) (d'.segments i) := by
    obtain ⟨before, after, _, middle, flush, rest, rfl⟩ | ⟨e, flush, _⟩ := failed.bind_cases
    · obtain ⟨first, second, n, reached, asked, returned, rfl⟩ | ⟨_, _, never⟩ := flush.bind_cases
      · cases returned
        obtain ⟨rfl, step⟩ := asked.ask_cases
        have whole := whole_flush linked (segment_exec step)
        intro e isError
        rcases comes_clear offset whole after _ d' rest e isError with ⟨whole, quiet⟩ | ⟨differs, c, late, fault⟩
        · exact Or.inl ⟨whole, List.forall_mem_cons.mpr ⟨⟨id, rfl⟩, quiet⟩⟩
        · exact Or.inr ⟨differs, c, List.mem_cons_of_mem _ late, fault⟩
      · cases never
    · obtain ⟨_, _, _, _, _, returned, _⟩ | ⟨e, asked, _⟩ := flush.bind_cases
      · cases returned
      · obtain ⟨rfl, _⟩ := asked.ask_cases
        exact absurd (List.mem_singleton_self _) (flushed e)
  rcases outcome err rfl with ⟨whole, quiet⟩ | ⟨differs, c, member, fault⟩
  · refine ⟨⟨fun _ c member => (quiet c member).1, fun _ => ⟨whole.content, ?_⟩⟩, fun _ => not_closedBy quiet⟩
    exact LiveSegment.attached_of_linked whole.linked whole.drained
  · exact ⟨⟨fun kept => absurd kept.1 differs, fun none => absurd fault (none c member)⟩,
      fun none => absurd fault (none c member)⟩

end Clear

open Reference

/-- A segment of three bytes in sync with its file. -/
def threeBytes : DiskState 1 := ⟨none, none, fun _ => ⟨.synced [1, 2, 3], none, 3, [], none⟩⟩

/-- The temporary file cannot be created. -/
def openFails : List (DiskOp 1 × Except Error Int) :=
  [(.segment 0 .flush, .ok 0), (.segment 0 .seekEnd, .ok 3), (.segment 0 (.seek 1), .ok 1),
    (.segment 0 .openTmp, .error (ascii "no space left on device"))]

theorem failed_clear_openFails :
    ∃ d', Prog.Ends DiskState.exec (clearSegment 0 1) threeBytes openFails
        (.error (ascii "no space left on device")) d' ∧
      (d'.segments 0).file.content = [1, 2, 3] ∧ LiveSegment.Attached ⟨d'.segments 0, false, false⟩ := by
  have failed : Prog.Ends DiskState.exec (clearSegment 0 1) threeBytes openFails
      (.error (ascii "no space left on device")) _ :=
    .call rfl (.call rfl (.call rfl (.call ⟨_, ⟨none, 1, rfl⟩, rfl⟩ .fail)))
  have whole := failed_clear_whole_iff 0 1 threeBytes rfl openFails _ _ failed (by simp [openFails])
  exact ⟨_, failed, whole.1.mpr (by simp [openFails, LateFault])⟩

/-- The file cannot be opened again behind the rename. -/
def reopenFails : List (DiskOp 1 × Except Error Int) :=
  [(.segment 0 .flush, .ok 0), (.segment 0 .seekEnd, .ok 3), (.segment 0 (.seek 1), .ok 1),
    (.segment 0 .openTmp, .ok 0), (.segment 0 .copyTmp, .ok 2), (.segment 0 .syncTmp, .ok 0),
    (.segment 0 .closeTmp, .ok 0), (.segment 0 .renameTmp, .ok 0), (.segment 0 .close, .ok 0),
    (.segment 0 .reopen, .error (ascii "too many open files"))]

/-- The error is returned with the file cut, and the segment goes on with a closed handle: it
takes a record, and nothing ever reaches the file at the path again. -/
theorem reopen_fails_detached :
    ∃ d', Prog.Ends DiskState.exec (clearSegment 0 1) threeBytes reopenFails (.error (ascii "too many open files")) d' ∧
      (threeBytes.segments 0).view.flush.file = [1, 2, 3] ∧ (d'.segments 0).file.content = [2, 3] ∧
      (let left : LiveSegment := ⟨d'.segments 0, closedBy 0 reopenFails, false⟩
       (∃ x, left.Step (.publish [9] true) x) ∧
        ∀ events x, LiveSegment.Runs left events x → x.segment.file.content = [2, 3]) := by
  refine ⟨_, .call rfl (.call rfl (.call rfl (.call rfl (.call rfl (.call rfl (.call rfl (.call rfl (.call rfl
    (.call ⟨_, rfl, rfl⟩ .fail))))))))), rfl, rfl, ?_, ?_⟩
  · exact LiveSegment.exists_publish rfl [9]
  · intro events x runs
    rw [runs.file_of_closed rfl]
    rfl

end Oryx.Snap
