/-
PrunedElectrs/Lib/Runs.lean

Runs of a transition system whose steps emit events, and what holds of them.

A safety property of what a system says to the outside is a property of an
event together with everything that was emitted before it.  `Run.invariant`
is the usual induction, with the history as part of the invariant; from an
invariant and a property that every event of a single step has, `Run.event`
concludes that every event of the run has it at its place.
-/
import Mathlib.Data.List.Basic

namespace Runs

variable {σ ε : Type*}

/-- The runs from an initial state: the events emitted, and the state reached. -/
inductive Run (init : σ → Prop) (step : σ → List ε → σ → Prop) : List ε → σ → Prop
  | init {s : σ} : init s → Run init step [] s
  | step {es new : List ε} {s s' : σ} : Run init step es s → step s new s' →
      Run init step (es ++ new) s'

/-- `P pre e` holds of every event `e` of the list, where `pre` are the events before it. -/
def Always (P : List ε → ε → Prop) (es : List ε) : Prop :=
  ∀ pre e post, es = pre ++ e :: post → P pre e

theorem always_nil (P : List ε → ε → Prop) : Always P [] := by
  intro pre e post h
  cases pre <;> cases h

theorem Always.append {P : List ε → ε → Prop} {es new : List ε} (h : Always P es)
    (hnew : Always (fun pre e => P (es ++ pre) e) new) : Always P (es ++ new) := by
  intro pre e post heq
  rcases List.append_eq_append_iff.mp heq with ⟨mid, rfl, hmid⟩ | ⟨mid, rfl, hmid⟩
  · exact hnew mid e post hmid
  · cases mid with
    | nil =>
        have hfirst := hnew [] e post hmid.symm
        rwa [List.append_nil, List.append_nil] at hfirst
    | cons x mid =>
        rw [List.cons_append, List.cons.injEq] at hmid
        obtain ⟨rfl, rfl⟩ := hmid
        exact h pre e mid rfl

theorem Always.front {P : List ε → ε → Prop} {es new : List ε} (h : Always P (es ++ new)) :
    Always P es := by
  rintro pre e post rfl
  exact h pre e (post ++ new) (List.append_assoc pre (e :: post) new)

theorem Always.of_append {P : List ε → ε → Prop} {es new : List ε} (h : Always P (es ++ new)) :
    Always (fun pre e => P (es ++ pre) e) new := by
  rintro pre e post rfl
  exact h (es ++ pre) e post (List.append_assoc es pre (e :: post)).symm

theorem always_singleton {P : List ε → ε → Prop} {e : ε} (h : P [] e) : Always P [e] := by
  intro pre e' post heq
  cases pre with
  | nil =>
      rw [List.nil_append, List.cons.injEq] at heq
      rw [← heq.1]
      exact h
  | cons x pre => simp at heq

theorem always_cons {P : List ε → ε → Prop} {e : ε} {es : List ε} (he : P [] e)
    (h : Always (fun pre e' => P (e :: pre) e') es) : Always P (e :: es) :=
  (always_singleton he).append h

/-- An event seen through `f` has its place in the whole list. -/
theorem exists_of_filterMap {β : Type*} {f : ε → Option β} {es : List ε} {front back : List β}
    {b : β} (h : es.filterMap f = front ++ b :: back) :
    ∃ pre e post, es = pre ++ e :: post ∧ f e = some b
      ∧ pre.filterMap f = front ∧ post.filterMap f = back := by
  obtain ⟨pre, rest, rfl, hfront, hrest⟩ := List.filterMap_eq_append_iff.mp h
  obtain ⟨mid, e, post, rfl, hmid, he, hback⟩ := List.filterMap_eq_cons_iff.mp hrest
  have hnil : mid.filterMap f = [] := List.filterMap_eq_nil_iff.mpr hmid
  refine ⟨pre ++ mid, e, post, (List.append_assoc pre mid (e :: post)).symm, he, ?_, hback⟩
  rw [List.filterMap_append, hnil, List.append_nil]
  exact hfront

variable {init : σ → Prop} {step : σ → List ε → σ → Prop}

/-- What the initial states have and every step keeps, every run keeps. -/
theorem Run.invariant {I : List ε → σ → Prop} (hinit : ∀ s, init s → I [] s)
    (hstep : ∀ es s new s', I es s → step s new s' → I (es ++ new) s') {es : List ε} {s : σ}
    (h : Run init step es s) : I es s := by
  induction h with
  | init hs => exact hinit _ hs
  | step _ hst ih => exact hstep _ _ _ _ ih hst

/-- What every event of a step from an invariant state has, every event of a
run has. -/
theorem Run.event {I : List ε → σ → Prop} {P : List ε → ε → Prop}
    (hinit : ∀ s, init s → I [] s)
    (hstep : ∀ es s new s', I es s → step s new s' → I (es ++ new) s')
    (hevent : ∀ es s new s', I es s → step s new s' → Always (fun pre e => P (es ++ pre) e) new)
    {es : List ε} {s : σ} (h : Run init step es s) : Always P es := by
  induction h with
  | init _ => exact always_nil P
  | step hrun hst ih => exact ih.append (hevent _ _ _ _ (hrun.invariant hinit hstep) hst)

end Runs
