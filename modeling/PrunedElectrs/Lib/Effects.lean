/-
PrunedElectrs/Lib/Effects.lean

Programs that talk to their surroundings, and the runs they can have.

A `Prog` performs operations, each answered by a reply whose type depends on
the operation, and ends with a value or an error.  Nothing is assumed about who
answers: `Exec p es r` says that with the replies recorded in `es` the program
performs exactly the operations recorded in `es` and ends with `r`, so a
statement about all `es` is a statement about all surroundings.  `exec_bind`
and its companions invert an execution along the structure of the program;
they are how every statement about a program is proved.

`run` executes a program against an environment, which answers from what has
happened so far, and `runFrom` against one with a state of its own.
-/
import Mathlib.Tactic.Common

namespace Effects

variable {Op : Type} {Reply : Op → Type} {ε α β γ : Type}

/-- A program: its outcome, or an operation and how to go on after each reply. -/
inductive Prog (Reply : Op → Type) (ε α : Type) : Type
  | done (r : Except ε α)
  | step (op : Op) (next : Reply op → Prog Reply ε α)

/-- An operation that was performed, with its reply. -/
structure Event (Reply : Op → Type) where
  op : Op
  reply : Reply op

namespace Prog

/-- Sequencing: an error ends the program. -/
def bind : Prog Reply ε α → (α → Prog Reply ε β) → Prog Reply ε β
  | done (.ok a), f => f a
  | done (.error e), _ => done (.error e)
  | step op next, f => step op fun r => (next r).bind f

instance : Monad (Prog Reply ε) where
  pure a := done (.ok a)
  bind := bind

/-- A computation without operations. -/
def lift (r : Except ε α) : Prog Reply ε α := done r

/-- The program that ends in an error. -/
def throw (e : ε) : Prog Reply ε α := done (.error e)

/-- A single operation. -/
def perform (op : Op) : Prog Reply ε (Reply op) := step op fun r => done (.ok r)

/-- The outcome of a program as a value. -/
def capture : Prog Reply ε α → Prog Reply ε (Except ε α)
  | done r => done (.ok r)
  | step op next => step op fun r => (next r).capture

/-- The same program, with its errors passed through `f`. -/
def mapError {ε' : Type} (f : ε → ε') : Prog Reply ε α → Prog Reply ε' α
  | done r => done (r.mapError f)
  | step op next => step op fun r => (next r).mapError f

/-- Execute against an environment that answers from what has happened so far. -/
def run (env : List (Event Reply) → (op : Op) → Reply op) :
    List (Event Reply) → Prog Reply ε α → List (Event Reply) × Except ε α
  | _, done r => ([], r)
  | before, step op next =>
      let e : Event Reply := ⟨op, env before op⟩
      let (es, r) := run env (before ++ [e]) (next e.reply)
      (e :: es, r)

/-- Execute against an environment with a state of its own. -/
def runFrom {σ : Type} (env : σ → (op : Op) → Reply op × σ) :
    σ → Prog Reply ε α → List (Event Reply) × Except ε α
  | _, done r => ([], r)
  | s, step op next =>
      let (reply, s') := env s op
      let (es, r) := runFrom env s' (next reply)
      (⟨op, reply⟩ :: es, r)

/-- Execute against an environment with a state of its own, for the outcome and
the state it ends in. -/
def eval {σ : Type} (env : σ → (op : Op) → Reply op × σ) : σ → Prog Reply ε α → Except ε α × σ
  | s, done r => (r, s)
  | s, step op next => eval env (env s op).2 (next (env s op).1)

/-- Execute against an environment that may leave an operation unanswered for
ever; the program then never ends. -/
def await {σ : Type} (env : σ → (op : Op) → Option (Reply op × σ)) :
    σ → Prog Reply ε α → Option (List (Event Reply) × Except ε α × σ)
  | s, done r => some ([], r, s)
  | s, step op next => do
      let (reply, s') ← env s op
      let (es, r, s'') ← await env s' (next reply)
      return (⟨op, reply⟩ :: es, r, s'')

end Prog

/-- The executions of a program: the operations with their replies, and the outcome. -/
inductive Exec : Prog Reply ε α → List (Event Reply) → Except ε α → Prop
  | done {r : Except ε α} : Exec (.done r) [] r
  | step {op : Op} {next : Reply op → Prog Reply ε α} {reply : Reply op}
      {es : List (Event Reply)} {r : Except ε α} :
      Exec (next reply) es r → Exec (.step op next) (⟨op, reply⟩ :: es) r

/-- Every environment leads to an execution. -/
theorem exec_run (env : List (Event Reply) → (op : Op) → Reply op)
    (before : List (Event Reply)) (p : Prog Reply ε α) :
    Exec p (p.run env before).1 (p.run env before).2 := by
  induction p generalizing before with
  | done r => exact .done
  | step op next ih => exact .step (ih (env before op) _)

theorem exec_runFrom {σ : Type} (env : σ → (op : Op) → Reply op × σ) (s : σ)
    (p : Prog Reply ε α) : Exec p (p.runFrom env s).1 (p.runFrom env s).2 := by
  induction p generalizing s with
  | done r => exact .done
  | step op next ih => exact .step (ih (env s op).1 (env s op).2)

/-- Every reply of a run is the environment's answer. -/
theorem reply_of_run {env : List (Event Reply) → (op : Op) → Reply op} {p : Prog Reply ε α}
    {before pre post : List (Event Reply)} {e : Event Reply}
    (h : (p.run env before).1 = pre ++ e :: post) : e.reply = env (before ++ pre) e.op := by
  induction p generalizing before pre with
  | done r => cases pre <;> cases h
  | step op next ih =>
      cases pre with
      | nil =>
          obtain ⟨rfl, -⟩ := List.cons.inj h
          rw [List.append_nil]
      | cons x pre =>
          obtain ⟨rfl, hrest⟩ := List.cons.inj h
          rw [ih _ hrest, List.append_assoc, List.singleton_append]

/-- The replies are those of an environment whose state goes from `s` to `s'`. -/
inductive Answered {σ : Type} (env : σ → (op : Op) → Reply op × σ) :
    σ → List (Event Reply) → σ → Prop
  | nil {s : σ} : Answered env s [] s
  | cons {s s' : σ} {op : Op} {es : List (Event Reply)} :
      Answered env (env s op).2 es s' → Answered env s (⟨op, (env s op).1⟩ :: es) s'

section Answered

variable {σ : Type} {env : σ → (op : Op) → Reply op × σ} {s s' : σ}

/-- An evaluation is an execution whose replies the environment gave. -/
theorem exec_eval (env : σ → (op : Op) → Reply op × σ) (s : σ) (p : Prog Reply ε α) :
    ∃ es, Exec p es (p.eval env s).1 ∧ Answered env s es (p.eval env s).2 := by
  induction p generalizing s with
  | done r => exact ⟨[], .done, .nil⟩
  | step op next ih =>
      obtain ⟨es, hexec, hanswered⟩ := ih (env s op).1 (env s op).2
      exact ⟨_, .step hexec, .cons hanswered⟩

/-- What happens in two parts is answered in two parts. -/
theorem Answered.of_append {es es' : List (Event Reply)} (h : Answered env s (es ++ es') s') :
    ∃ s₁, Answered env s es s₁ ∧ Answered env s₁ es' s' := by
  induction es generalizing s with
  | nil => exact ⟨s, .nil, h⟩
  | cons e es ih =>
      cases h with
      | cons h =>
          obtain ⟨s₁, h₁, h₂⟩ := ih h
          exact ⟨s₁, .cons h₁, h₂⟩

end Answered

/-- An operation that is answered. -/
theorem await_step {σ : Type} {env : σ → (op : Op) → Option (Reply op × σ)} {s s' : σ} {op : Op}
    {next : Reply op → Prog Reply ε α} {reply : Reply op} (h : env s op = some (reply, s')) :
    (Prog.step op next).await env s
      = ((next reply).await env s').map fun x => (⟨op, reply⟩ :: x.1, x.2) := by
  rw [Prog.await, h, Option.map_eq_bind]
  rfl

/-- An operation that is left unanswered. -/
theorem await_step_none {σ : Type} {env : σ → (op : Op) → Option (Reply op × σ)} {s : σ} {op : Op}
    {next : Reply op → Prog Reply ε α} (h : env s op = none) :
    (Prog.step op next).await env s = none := by
  rw [Prog.await, h]
  rfl

/-! ### Inverting executions -/

variable {es : List (Event Reply)} {r : Except ε α}

theorem exec_lift {r' : Except ε α} :
    Exec (Prog.lift r' : Prog Reply ε α) es r ↔ es = [] ∧ r = r' := by
  constructor
  · rintro ⟨⟩
    exact ⟨rfl, rfl⟩
  · rintro ⟨rfl, rfl⟩
    exact .done

theorem exec_step {op : Op} {next : Reply op → Prog Reply ε α} :
    Exec (.step op next) es r ↔
      ∃ reply es', es = ⟨op, reply⟩ :: es' ∧ Exec (next reply) es' r := by
  constructor
  · rintro (_ | h)
    exact ⟨_, _, rfl, h⟩
  · rintro ⟨reply, es', rfl, h⟩
    exact .step h

theorem exec_pure {a : α} :
    Exec (pure a : Prog Reply ε α) es r ↔ es = [] ∧ r = .ok a := exec_lift

theorem exec_throw {e : ε} :
    Exec (Prog.throw e : Prog Reply ε α) es r ↔ es = [] ∧ r = .error e := exec_lift

theorem exec_perform {op : Op} {r : Except ε (Reply op)} :
    Exec (Prog.perform op : Prog Reply ε (Reply op)) es r ↔
      ∃ reply, es = [⟨op, reply⟩] ∧ r = .ok reply := by
  rw [Prog.perform, exec_step]
  constructor
  · rintro ⟨reply, es', rfl, h⟩
    obtain ⟨rfl, rfl⟩ := exec_pure.mp h
    exact ⟨reply, rfl, rfl⟩
  · rintro ⟨reply, rfl, rfl⟩
    exact ⟨reply, [], rfl, .done⟩

/-- A sequence fails in its first part, or runs it and then its second. -/
theorem exec_bind {p : Prog Reply ε β} {f : β → Prog Reply ε α} :
    Exec (p >>= f) es r ↔
      (∃ e, r = .error e ∧ Exec p es (.error e))
      ∨ ∃ es₁ es₂ b, es = es₁ ++ es₂ ∧ Exec p es₁ (.ok b) ∧ Exec (f b) es₂ r := by
  show Exec (p.bind f) es r ↔ _
  induction p generalizing es with
  | done rp =>
      rcases rp with e | b
      · constructor
        · intro h
          obtain ⟨rfl, rfl⟩ := exec_throw.mp h
          exact .inl ⟨e, rfl, .done⟩
        · rintro (⟨e', rfl, h⟩ | ⟨es₁, es₂, b, rfl, h, -⟩)
          · obtain ⟨rfl, he⟩ := exec_throw.mp h
            exact exec_throw.mpr ⟨rfl, congrArg _ (Except.error.inj he)⟩
          · obtain ⟨-, he⟩ := exec_throw.mp h
            cases he
      · constructor
        · exact fun h => .inr ⟨[], es, b, rfl, .done, h⟩
        · rintro (⟨e', rfl, h⟩ | ⟨es₁, es₂, b', rfl, h, hf⟩)
          · obtain ⟨-, he⟩ := exec_pure.mp h
            cases he
          · obtain ⟨rfl, he⟩ := exec_pure.mp h
            obtain rfl := Except.ok.inj he
            exact hf
  | step op next ih =>
      constructor
      · intro h
        obtain ⟨reply, es', rfl, hnext⟩ := exec_step.mp h
        rcases (ih reply).mp hnext with ⟨e, rfl, hp⟩ | ⟨es₁, es₂, b, rfl, hp, hf⟩
        · exact .inl ⟨e, rfl, .step hp⟩
        · exact .inr ⟨⟨op, reply⟩ :: es₁, es₂, b, rfl, .step hp, hf⟩
      · rintro (⟨e, rfl, h⟩ | ⟨es₁, es₂, b, rfl, h, hf⟩)
        · obtain ⟨reply, es', rfl, hnext⟩ := exec_step.mp h
          exact .step ((ih reply).mpr (.inl ⟨e, rfl, hnext⟩))
        · obtain ⟨reply, es', rfl, hnext⟩ := exec_step.mp h
          exact .step ((ih reply).mpr (.inr ⟨es', es₂, b, rfl, hnext, hf⟩))

theorem exec_capture {p : Prog Reply ε α} {r : Except ε (Except ε α)} :
    Exec p.capture es r ↔ ∃ r', r = .ok r' ∧ Exec p es r' := by
  induction p generalizing es with
  | done rp =>
      constructor
      · intro h
        obtain ⟨rfl, rfl⟩ := exec_pure.mp h
        exact ⟨rp, rfl, .done⟩
      · rintro ⟨r', rfl, h⟩
        obtain ⟨rfl, rfl⟩ := exec_lift.mp h
        exact .done
  | step op next ih =>
      constructor
      · intro h
        obtain ⟨reply, es', rfl, hnext⟩ := exec_step.mp h
        obtain ⟨r', rfl, hp⟩ := (ih reply).mp hnext
        exact ⟨r', rfl, .step hp⟩
      · rintro ⟨r', rfl, h⟩
        obtain ⟨reply, es', rfl, hnext⟩ := exec_step.mp h
        exact .step ((ih reply).mpr ⟨r', rfl, hnext⟩)

theorem exec_mapError {ε' : Type} {f : ε → ε'} {p : Prog Reply ε α} {r : Except ε' α} :
    Exec (p.mapError f) es r ↔ ∃ r', Exec p es r' ∧ r = r'.mapError f := by
  induction p generalizing es with
  | done rp =>
      constructor
      · intro h
        obtain ⟨rfl, rfl⟩ := exec_lift.mp h
        exact ⟨rp, .done, rfl⟩
      · rintro ⟨r', h, rfl⟩
        obtain ⟨rfl, rfl⟩ := exec_lift.mp h
        exact .done
  | step op next ih =>
      constructor
      · intro h
        obtain ⟨reply, es', rfl, hnext⟩ := exec_step.mp h
        obtain ⟨r', hp, rfl⟩ := (ih reply).mp hnext
        exact ⟨r', .step hp, rfl⟩
      · rintro ⟨r', h, rfl⟩
        obtain ⟨reply, es', rfl, hnext⟩ := exec_step.mp h
        exact .step ((ih reply).mpr ⟨r', hnext, rfl⟩)

/-! ### Sequences that begin with a simple part -/

theorem exec_perform_bind {op : Op} {f : Reply op → Prog Reply ε α} :
    Exec (Prog.perform op >>= f) es r ↔
      ∃ reply es', es = ⟨op, reply⟩ :: es' ∧ Exec (f reply) es' r := exec_step

theorem exec_lift_bind {r' : Except ε β} {f : β → Prog Reply ε α} :
    Exec (Prog.lift r' >>= f) es r ↔
      (∃ e, r' = .error e ∧ es = [] ∧ r = .error e) ∨ ∃ b, r' = .ok b ∧ Exec (f b) es r := by
  rcases r' with e | b
  · refine exec_throw.trans ⟨fun ⟨hes, hr⟩ => .inl ⟨e, rfl, hes, hr⟩, ?_⟩
    rintro (⟨e', he, hes, hr⟩ | ⟨b, hb, -⟩)
    · obtain rfl := Except.error.inj he
      exact ⟨hes, hr⟩
    · cases hb
  · refine ⟨fun h => .inr ⟨b, rfl, h⟩, ?_⟩
    rintro (⟨e', he, -⟩ | ⟨b', hb, h⟩)
    · cases he
    · obtain rfl := Except.ok.inj hb
      exact h

theorem exec_lift_ok_bind {b : β} {f : β → Prog Reply ε α} :
    Exec (Prog.lift (.ok b) >>= f) es r ↔ Exec (f b) es r := Iff.rfl

theorem exec_capture_bind {p : Prog Reply ε β} {f : Except ε β → Prog Reply ε α} :
    Exec (p.capture >>= f) es r ↔
      ∃ es₁ es₂ r', es = es₁ ++ es₂ ∧ Exec p es₁ r' ∧ Exec (f r') es₂ r := by
  rw [exec_bind]
  constructor
  · rintro (⟨e, -, h⟩ | ⟨es₁, es₂, r', rfl, h, hf⟩)
    · obtain ⟨r', hr, -⟩ := exec_capture.mp h
      cases hr
    · obtain ⟨r'', hr, hp⟩ := exec_capture.mp h
      obtain rfl := Except.ok.inj hr
      exact ⟨es₁, es₂, r', rfl, hp, hf⟩
  · rintro ⟨es₁, es₂, r', rfl, hp, hf⟩
    exact .inr ⟨es₁, es₂, r', rfl, exec_capture.mpr ⟨r', rfl, hp⟩, hf⟩

/-! ### Putting executions together -/

theorem Exec.bind {p : Prog Reply ε β} {f : β → Prog Reply ε α} {es' : List (Event Reply)} {b : β}
    (hp : Exec p es (.ok b)) (hf : Exec (f b) es' r) : Exec (p >>= f) (es ++ es') r :=
  exec_bind.mpr (.inr ⟨es, es', b, rfl, hp, hf⟩)

theorem Exec.bind_pure {p : Prog Reply ε β} {b : β} {a : α} (hp : Exec p es (.ok b)) :
    Exec (p >>= fun _ => pure a) es (.ok a) :=
  exec_bind.mpr (.inr ⟨es, [], b, (List.append_nil es).symm, hp, exec_pure.mpr ⟨rfl, rfl⟩⟩)

theorem Exec.lift_bind {r' : Except ε β} {b : β} (hr : r' = .ok b) {f : β → Prog Reply ε α}
    (hf : Exec (f b) es r) : Exec (Prog.lift r' >>= f) es r :=
  exec_lift_bind.mpr (.inr ⟨b, hr, hf⟩)

/-! ### What holds of every execution -/

/-- `Q` holds of every execution: of whether it succeeds, and of what it did. -/
def Every (Q : Bool → List (Event Reply) → Prop) (p : Prog Reply ε α) : Prop :=
  ∀ es r, Exec p es r → Q r.isOk es

variable {Q : Bool → List (Event Reply) → Prop}

theorem every_lift (hQ : ∀ ok, Q ok []) (r : Except ε α) :
    Every Q (Prog.lift r : Prog Reply ε α) := by
  intro es r' h
  obtain ⟨rfl, rfl⟩ := exec_lift.mp h
  exact hQ _

theorem every_perform {op : Op} (hQ : ∀ reply, Q true [⟨op, reply⟩]) :
    Every Q (Prog.perform op : Prog Reply ε (Reply op)) := by
  intro es r h
  obtain ⟨reply, rfl, rfl⟩ := exec_perform.mp h
  exact hQ reply

/-- What holds of the first part and goes on to hold behind it holds of the whole. -/
theorem Every.bind (happend : ∀ es es' ok, Q true es → Q ok es' → Q ok (es ++ es'))
    {p : Prog Reply ε β} {f : β → Prog Reply ε α} (hp : Every Q p) (hf : ∀ b, Every Q (f b)) :
    Every Q (p >>= f) := by
  intro es r h
  rcases exec_bind.mp h with ⟨e, rfl, hfail⟩ | ⟨es₁, es₂, b, rfl, hfirst, hrest⟩
  · exact hp _ _ hfail
  · exact happend _ _ _ (hp _ _ hfirst) (hf b _ _ hrest)

end Effects
