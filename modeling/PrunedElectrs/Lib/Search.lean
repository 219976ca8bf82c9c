/-
PrunedElectrs/Lib/Search.lean

Candidates searched by several threads, of which the first find is kept.

Each thread goes through its own candidates in order.  At some of them it looks
whether there is a find already, and passes them over if there is; what it sees
may be out of date, so not passing over is always possible.  `find_of_run` says
what is kept when all threads are through, in any interleaving and for any
distribution of the candidates: a candidate that passes, or none because none
does.  Every step takes a candidate, so all interleavings end (`Step.left_lt`),
and no thread has to wait (`exists_step`).
-/
import Mathlib.Data.List.Basic
import Mathlib.Logic.Relation
import Mathlib.Tactic.Common

namespace Search

variable {α : Type*}

/-- What each thread has before it, and what was found. -/
structure State (α : Type*) where
  left : List (List α)
  found : Option α

variable (passes looks : α → Prop)

/-- One of the threads looks at its next element. -/
inductive Step : State α → State α → Prop
  | skip {front back : List (List α)} {rest : List α} {a b : α} : looks a →
      Step ⟨front ++ (a :: rest) :: back, some b⟩ ⟨front ++ rest :: back, some b⟩
  | fail {front back : List (List α)} {rest : List α} {a : α} {found : Option α} : ¬ passes a →
      Step ⟨front ++ (a :: rest) :: back, found⟩ ⟨front ++ rest :: back, found⟩
  | first {front back : List (List α)} {rest : List α} {a : α} : passes a →
      Step ⟨front ++ (a :: rest) :: back, none⟩ ⟨front ++ rest :: back, some a⟩
  | later {front back : List (List α)} {rest : List α} {a b : α} : passes a →
      Step ⟨front ++ (a :: rest) :: back, some b⟩ ⟨front ++ rest :: back, some b⟩

/-- What is left of a search. -/
def Left (s : State α) : Prop := ∃ candidates ∈ s.left, candidates ≠ []

/-- A candidate that passes was found, or those that are gone do not pass. -/
def Sound (all : List α) (s : State α) : Prop :=
  match s.found with
  | some a => a ∈ all ∧ passes a
  | none => ∀ a ∈ all, passes a → a ∈ s.left.flatten

variable {passes looks} {s s' : State α}

/-- A step takes one candidate, from one thread. -/
theorem Step.exists_taken (h : Step passes looks s s') :
    ∃ front back a rest, s.left = front ++ (a :: rest) :: back
      ∧ s'.left = front ++ rest :: back := by
  cases h with
  | skip _ => exact ⟨_, _, _, _, rfl, rfl⟩
  | fail _ => exact ⟨_, _, _, _, rfl, rfl⟩
  | first _ => exact ⟨_, _, _, _, rfl, rfl⟩
  | later _ => exact ⟨_, _, _, _, rfl, rfl⟩

theorem Step.left_lt (h : Step passes looks s s') :
    s'.left.flatten.length < s.left.flatten.length := by
  obtain ⟨front, back, a, rest, hs, hs'⟩ := h.exists_taken
  rw [hs, hs', List.flatten_append, List.flatten_append, List.flatten_cons, List.flatten_cons,
    List.length_append, List.length_append, List.length_append, List.length_append,
    List.length_cons]
  omega

/-- What is left was left before. -/
theorem Step.left_subset (h : Step passes looks s s') : s'.left.flatten ⊆ s.left.flatten := by
  obtain ⟨front, back, a, rest, hs, hs'⟩ := h.exists_taken
  rw [hs, hs']
  intro b hb
  simp only [List.flatten_append, List.flatten_cons, List.mem_append, List.mem_cons] at hb ⊢
  rcases hb with hb | hb | hb
  · exact .inl hb
  · exact .inr (.inl (.inr hb))
  · exact .inr (.inr hb)

theorem sound_step {all : List α} (hall : s.left.flatten ⊆ all) (hs : Sound passes all s)
    (h : Step passes looks s s') : Sound passes all s' := by
  cases h with
  | skip _ => exact hs
  | @fail front back rest a found hfails =>
      cases found with
      | some b => exact hs
      | none =>
          intro b hb hpasses
          have hleft := hs b hb hpasses
          -- the one that is gone does not pass
          have hne : b ≠ a := fun e => hfails (e ▸ hpasses)
          simp only [List.flatten_append, List.flatten_cons, List.mem_append, List.mem_cons]
            at hleft ⊢
          rcases hleft with hleft | (hleft | hleft) | hleft
          · exact .inl hleft
          · exact absurd hleft hne
          · exact .inr (.inl hleft)
          · exact .inr (.inr hleft)
  | @first front back rest a hpasses =>
      refine ⟨hall ?_, hpasses⟩
      simp only [List.flatten_append, List.flatten_cons, List.mem_append, List.mem_cons]
      exact .inr (.inl (.inl trivial))
  | later _ => exact hs

/-- A search from its start to a state. -/
def Run (passes looks : α → Prop) (parts : List (List α)) (s : State α) : Prop :=
  Relation.ReflTransGen (Step passes looks) ⟨parts, none⟩ s

theorem Run.sound {parts : List (List α)} (h : Run passes looks parts s) :
    s.left.flatten ⊆ parts.flatten ∧ Sound passes parts.flatten s := by
  induction h with
  | refl => exact ⟨List.Subset.refl _, fun a ha _ => ha⟩
  | tail _ hstep ih =>
      exact ⟨List.Subset.trans hstep.left_subset ih.1, sound_step ih.1 ih.2 hstep⟩

/-- **What a search finds** when all threads are through: a candidate that
passes, or none because none does. -/
theorem find_of_run {parts : List (List α)} (h : Run passes looks parts s) (hdone : ¬ Left s) :
    (∀ a, s.found = some a → a ∈ parts.flatten ∧ passes a)
      ∧ (s.found = none → ∀ a ∈ parts.flatten, ¬ passes a) := by
  have hsound := h.sound.2
  refine ⟨fun a ha => ?_, fun hnone a ha hpasses => ?_⟩
  · rw [Sound, ha] at hsound
    exact hsound
  · rw [Sound, hnone] at hsound
    obtain ⟨candidates, hmem, hin⟩ := List.mem_flatten.mp (hsound a ha hpasses)
    exact hdone ⟨candidates, hmem, List.ne_nil_of_mem hin⟩

/-- A thread that has something before it can take it. -/
theorem exists_step (h : Left s) : ∃ s', Step passes looks s s' := by
  obtain ⟨left, found⟩ := s
  obtain ⟨candidates, hmem, hne⟩ := h
  obtain ⟨front, back, rfl⟩ := List.append_of_mem hmem
  obtain ⟨a, rest, rfl⟩ := List.exists_cons_of_ne_nil hne
  by_cases hpasses : passes a
  · cases found with
    | none => exact ⟨_, .first hpasses⟩
    | some b => exact ⟨_, .later hpasses⟩
  · exact ⟨_, .fail hpasses⟩

/-- Every search can be brought to its end. -/
theorem Run.exists_done {parts : List (List α)} (h : Run passes looks parts s) :
    ∃ s', Run passes looks parts s' ∧ ¬ Left s' := by
  induction hn : s.left.flatten.length using Nat.strongRecOn generalizing s with
  | ind n ih =>
      by_cases hleft : Left s
      · obtain ⟨s', hstep⟩ : ∃ s', Step passes looks s s' := exists_step hleft
        exact ih _ (hn ▸ hstep.left_lt) (h.tail hstep) rfl
      · exact ⟨s, h, hleft⟩

end Search
