/-!
# Programs whose calls may fail

A program over a device is a tree of calls. What a call can do is a relation
between the device's states: a call may succeed, fail cleanly, or fail half-way. A
process can be stopped at any point of a run, so a guarantee about the device is
about every state a run visits (`Visits`). `Safe` is the program logic for such
guarantees: it follows the program's text, with a postcondition for runs that
return and the guarantee alone for those that fail.
-/

namespace Oryx.Library
set_option autoImplicit false

/-- A program: it returns, fails, or makes a call and goes on with the reply. -/
inductive Prog (Op Reply ε α : Type) where
  | ret (a : α)
  | fail (err : ε)
  | call (op : Op) (next : Except ε Reply → Prog Op Reply ε α)

namespace Prog

variable {Op Reply ε α β : Type}

def bind : Prog Op Reply ε α → (α → Prog Op Reply ε β) → Prog Op Reply ε β
  | ret a, f => f a
  | fail err, _ => fail err
  | call op next, f => call op fun reply => (next reply).bind f

/-- Run `handler` when the program fails. -/
def orElse : Prog Op Reply ε α → (ε → Prog Op Reply ε α) → Prog Op Reply ε α
  | ret a, _ => ret a
  | fail err, handler => handler err
  | call op next, handler => call op fun reply => (next reply).orElse handler

instance : Monad (Prog Op Reply ε) where
  pure := ret
  bind := bind

instance : MonadExceptOf ε (Prog Op Reply ε) where
  throw := fail
  tryCatch := orElse

/-- One call; its error is the program's. -/
def ask (op : Op) : Prog Op Reply ε Reply :=
  call op fun
    | .ok reply => ret reply
    | .error err => fail err

/-- One call whose answer is not looked at. -/
def ignore (op : Op) : Prog Op Reply ε Unit := call op fun _ => ret ()

/-! ## What a run can visit -/

variable {S : Type} {exec : S → Op → Except ε Reply → S → Prop}

/-- The states a run of the program from `s` can be stopped in. -/
inductive Visits (exec : S → Op → Except ε Reply → S → Prop) : Prog Op Reply ε α → S → S → Prop
  | here {p : Prog Op Reply ε α} {s : S} : Visits exec p s s
  | later {op : Op} {next : Except ε Reply → Prog Op Reply ε α} {s s' t : S} {reply : Except ε Reply}
      (step : exec s op reply s') (rest : Visits exec (next reply) s' t) : Visits exec (call op next) s t

/-- Every state visited from `s` meets `Q`, and a run that returns ends in `post`. -/
def Safe (exec : S → Op → Except ε Reply → S → Prop) (Q : S → Prop) :
    Prog Op Reply ε α → (α → S → Prop) → S → Prop
  | ret a, post, s => Q s ∧ post a s
  | fail _, _, s => Q s
  | call op next, post, s => Q s ∧ ∀ reply s', exec s op reply s' → Safe exec Q (next reply) post s'

variable {Q : S → Prop} {p : Prog Op Reply ε α} {f : α → Prog Op Reply ε β} {post : α → S → Prop} {s : S}

/-- **Soundness of the logic.** -/
theorem Safe.visits (safe : Safe exec Q p post s) {t : S} (visits : Visits exec p s t) : Q t := by
  induction visits with
  | @here p s =>
    cases p with
    | ret a => exact safe.1
    | fail err => exact safe
    | call op next => exact safe.1
  | later step _ ih => exact ih (safe.2 _ _ step)

theorem Safe.mono (safe : Safe exec Q p post s) {weaker : α → S → Prop} (imp : ∀ a t, Q t → post a t → weaker a t) :
    Safe exec Q p weaker s := by
  induction p generalizing s with
  | ret a => exact ⟨safe.1, imp a s safe.1 safe.2⟩
  | fail err => exact safe
  | call op next ih => exact ⟨safe.1, fun reply s' step => ih reply (safe.2 reply s' step)⟩

/-- Sequencing: what the first part returns in is where the second starts. -/
theorem Safe.bind {after : β → S → Prop} (safe : Safe exec Q p (fun a t => Safe exec Q (f a) after t) s) :
    Safe exec Q (p >>= f) after s := by
  induction p generalizing s with
  | ret a => exact safe.2
  | fail err => exact safe
  | call op next ih => exact ⟨safe.1, fun reply s' step => ih reply (safe.2 reply s' step)⟩

/-- A handler starts in any state that meets the guarantee. -/
theorem Safe.orElse (safe : Safe exec Q p post s) {handler : ε → Prog Op Reply ε α}
    (handles : ∀ err t, Q t → Safe exec Q (handler err) post t) : Safe exec Q (tryCatch p handler) post s := by
  induction p generalizing s with
  | ret a => exact safe
  | fail err => exact handles err s safe
  | call op next ih => exact ⟨safe.1, fun reply s' step => ih reply (safe.2 reply s' step)⟩

theorem safe_ask {op : Op} {post : Reply → S → Prop} (start : Q s)
    (steps : ∀ reply s', exec s op reply s' → Q s' ∧ ∀ r, reply = .ok r → post r s') :
    Safe exec Q (ask op) post s := by
  refine ⟨start, fun reply s' step => ?_⟩
  obtain ⟨good, done⟩ := steps reply s' step
  cases reply with
  | ok r => exact ⟨good, done r rfl⟩
  | error err => exact good

theorem safe_ignore {op : Op} {post : Unit → S → Prop} (start : Q s)
    (steps : ∀ reply s', exec s op reply s' → Q s' ∧ post () s') : Safe exec Q (ignore op) post s :=
  ⟨start, steps⟩

/-! ## Runs to their end -/

/-- A run to its end: the calls with their replies, what the program ends with, and where. -/
inductive Ends (exec : S → Op → Except ε Reply → S → Prop) :
    Prog Op Reply ε α → S → List (Op × Except ε Reply) → Except ε α → S → Prop
  | ret {a : α} {s : S} : Ends exec (ret a) s [] (.ok a) s
  | fail {err : ε} {s : S} : Ends exec (fail err) s [] (.error err) s
  | call {op : Op} {next : Except ε Reply → Prog Op Reply ε α} {s s' t : S} {reply : Except ε Reply}
      {calls : List (Op × Except ε Reply)} {out : Except ε α} (step : exec s op reply s')
      (rest : Ends exec (next reply) s' calls out t) : Ends exec (call op next) s ((op, reply) :: calls) out t

variable {calls : List (Op × Except ε Reply)} {t : S}

theorem Ends.bind_cases {out : Except ε β} (ends : Ends exec (p >>= f) s calls out t) :
    (∃ first rest a s', Ends exec p s first (.ok a) s' ∧ Ends exec (f a) s' rest out t ∧ calls = first ++ rest) ∨
      ∃ err, Ends exec p s calls (.error err) t ∧ out = .error err := by
  induction p generalizing s calls with
  | ret a => exact Or.inl ⟨[], calls, a, s, .ret, ends, rfl⟩
  | fail err =>
    cases ends
    exact Or.inr ⟨err, .fail, rfl⟩
  | call op next ih =>
    cases ends with
    | call step rest =>
      obtain ⟨first, second, a, s', before, after, rfl⟩ | ⟨err, failed, rfl⟩ := ih _ rest
      · exact Or.inl ⟨_, second, a, s', .call step before, after, rfl⟩
      · exact Or.inr ⟨err, .call step failed, rfl⟩

theorem Ends.orElse_cases {out : Except ε α} {handler : ε → Prog Op Reply ε α}
    (ends : Ends exec (tryCatch p handler) s calls out t) :
    (∃ a, Ends exec p s calls (.ok a) t ∧ out = .ok a) ∨
      ∃ first rest err s', Ends exec p s first (.error err) s' ∧ Ends exec (handler err) s' rest out t ∧
        calls = first ++ rest := by
  induction p generalizing s calls with
  | ret a =>
    cases ends
    exact Or.inl ⟨a, .ret, rfl⟩
  | fail err => exact Or.inr ⟨[], calls, err, s, .fail, ends, rfl⟩
  | call op next ih =>
    cases ends with
    | call step rest =>
      obtain ⟨a, done, rfl⟩ | ⟨first, second, err, s', failed, handled, rfl⟩ := ih _ rest
      · exact Or.inl ⟨a, .call step done, rfl⟩
      · exact Or.inr ⟨_, second, err, s', .call step failed, handled, rfl⟩

theorem Ends.ask_cases {op : Op} {out : Except ε Reply} (ends : Ends exec (ask op) s calls out t) :
    calls = [(op, out)] ∧ exec s op out t := by
  cases ends with
  | @call _ _ _ _ _ reply _ _ step rest =>
    cases reply <;> cases rest <;> exact ⟨rfl, step⟩

theorem Ends.ignore_cases {op : Op} {out : Except ε Unit} (ends : Ends exec (ignore op) s calls out t) :
    ∃ reply, calls = [(op, reply)] ∧ out = .ok () ∧ exec s op reply t := by
  cases ends with
  | call step rest =>
    cases rest
    exact ⟨_, rfl, rfl, step⟩

/-! ## The run in which nothing fails -/

/-- The program's run when each call does what `perform` says. -/
def run (perform : S → Op → Option (Reply × S)) : Prog Op Reply ε α → S → Option (α × S)
  | ret a, s => some (a, s)
  | fail _, _ => none
  | call op next, s =>
    match perform s op with
    | none => none
    | some (reply, s') => (next (.ok reply)).run perform s'

variable {perform : S → Op → Option (Reply × S)}

@[simp] theorem run_pure (a : α) (s : S) : (pure a : Prog Op Reply ε α).run perform s = some (a, s) := rfl

@[simp] theorem run_bind (p : Prog Op Reply ε α) (f : α → Prog Op Reply ε β) (s : S) :
    (p >>= f).run perform s = (p.run perform s).bind fun out => (f out.1).run perform out.2 := by
  induction p generalizing s with
  | ret a => rfl
  | fail err => rfl
  | call op next ih =>
    change run perform (call op fun reply => next reply >>= f) s = _
    rw [run, run]
    cases perform s op with
    | none => rfl
    | some out => exact ih (.ok out.1) out.2

@[simp] theorem run_ask (op : Op) (s : S) : (ask op : Prog Op Reply ε Reply).run perform s = perform s op := by
  rw [ask, run]
  cases perform s op <;> rfl

/-- The handler of a part that runs through is never started. -/
theorem run_orElse {handler : ε → Prog Op Reply ε α} {out : α × S} (through : p.run perform s = some out) :
    (tryCatch p handler : Prog Op Reply ε α).run perform s = some out := by
  induction p generalizing s with
  | ret a => exact through
  | fail err => cases through
  | call op next ih =>
    change run perform (call op fun reply => tryCatch (next reply) handler) s = _
    rw [run] at through ⊢
    cases performed : perform s op with
    | none => simp only [performed, reduceCtorEq] at through
    | some part =>
      simp only [performed] at through
      exact ih (.ok part.1) through

/-- It is one of the runs, when calls can do what `perform` says. -/
theorem visits_of_run (allowed : ∀ s op reply s', perform s op = some (reply, s') → exec s op (.ok reply) s')
    {out : α × S} (through : p.run perform s = some out) : Visits exec p s out.2 := by
  induction p generalizing s with
  | ret a =>
    obtain rfl := Option.some.inj through
    exact .here
  | fail err => cases through
  | call op next ih =>
    rw [run] at through
    cases performed : perform s op with
    | none => simp only [performed, reduceCtorEq] at through
    | some part =>
      simp only [performed] at through
      exact .later (allowed _ _ _ _ performed) (ih (.ok part.1) through)

end Prog

end Oryx.Library
