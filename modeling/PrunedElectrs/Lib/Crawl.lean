/-
PrunedElectrs/Lib/Crawl.lean

Searching outwards in rounds, where only some of what is found leads on.

A round asks everything that was told of in the round before and has not been
asked yet.  An answer tells of more, but is followed only where it is `good`.
Nothing is assumed of the answers: the same one may answer differently if asked
twice, so everything is stated over the log of what was answered.

`Heard good tells log seeds n a` is that `a` is a seed or told of by a chain of
`n` good answers in the log.  `Search` is the state of a search after `n` rounds:
those asked are those heard of within fewer than `n` steps.  A round keeps it
(`Search.round`), and a search that has nothing left to ask has asked all that
is ever heard of (`Search.closed`).
-/
import Mathlib.Data.List.Nodup
import Mathlib.Tactic.Common

namespace Crawl

variable {α ρ : Type*} (good : ρ → Prop) (tells : ρ → List α)

/-- Told of in `n` steps: by a good answer of one that was heard of before. -/
inductive Heard (log : List (α × ρ)) (seeds : List α) : ℕ → α → Prop
  | seed {a : α} : a ∈ seeds → Heard log seeds 0 a
  | told {n : ℕ} {b a : α} {r : ρ} : Heard log seeds n b → (b, r) ∈ log → good r → a ∈ tells r →
      Heard log seeds (n + 1) a

/-- Those that have been asked. -/
def asked (log : List (α × ρ)) : List α := log.map Prod.fst

/-- Those that the good answers among these tell of. -/
def Told (answers : List (α × ρ)) (a : α) : Prop :=
  ∃ b r, (b, r) ∈ answers ∧ good r ∧ a ∈ tells r

variable {good tells}

theorem Heard.mono {log more : List (α × ρ)} {seeds : List α} {n : ℕ} {a : α}
    (h : Heard good tells log seeds n a) : Heard good tells (log ++ more) seeds n a := by
  induction h with
  | seed hseed => exact .seed hseed
  | told _ hb hgood htells ih => exact .told ih (List.mem_append_left _ hb) hgood htells

theorem mem_asked {log : List (α × ρ)} {a : α} : a ∈ asked log ↔ ∃ r, (a, r) ∈ log := by
  simp [asked]

variable (good tells)

/-- A search after `n` rounds, with what it has still to look at. -/
structure Search (seeds : List α) (n : ℕ) (log : List (α × ρ)) (frontier : α → Prop) : Prop where
  heard : ∀ a ∈ asked log, ∃ m < n, Heard good tells log seeds m a
  asked : ∀ m < n, ∀ a, Heard good tells log seeds m a → a ∈ asked log
  next : ∀ a, Heard good tells log seeds n a → a ∈ Crawl.asked log ∨ frontier a
  ahead : ∀ a, frontier a → Heard good tells log seeds n a

variable {good tells} {seeds : List α} {n : ℕ} {log answers : List (α × ρ)}
  {frontier : α → Prop}

theorem Search.start (seeds : List α) : Search good tells seeds 0 [] (· ∈ seeds) where
  heard a ha := by cases ha
  asked m hm := absurd hm (Nat.not_lt_zero m)
  next a h := by
    cases h with
    | seed hseed => exact .inr hseed
  ahead a ha := .seed ha

/-- Asking those that have not been asked adds nothing to what was heard of
before. -/
theorem Search.heard_of_append (h : Search good tells seeds n log frontier)
    (hfresh : ∀ a ∈ Crawl.asked answers, a ∉ Crawl.asked log) {m : ℕ} (hm : m ≤ n) {a : α}
    (ha : Heard good tells (log ++ answers) seeds m a) : Heard good tells log seeds m a := by
  induction ha with
  | seed hseed => exact .seed hseed
  | @told m b a r _ hb hgood htells ih =>
      have hheard := ih (by omega)
      rcases List.mem_append.mp hb with hb | hb
      · exact .told hheard hb hgood htells
      · exact absurd (h.asked m (by omega) b hheard) (hfresh b (mem_asked.mpr ⟨r, hb⟩))

/-- One round: those of the frontier are asked that have not been asked, and what
the good ones tell of is the frontier of the next round. -/
theorem Search.round (h : Search good tells seeds n log frontier)
    (hasked : ∀ a, a ∈ Crawl.asked answers ↔ frontier a ∧ a ∉ Crawl.asked log) :
    Search good tells seeds (n + 1) (log ++ answers) (Told good tells answers) := by
  have hfresh : ∀ a ∈ Crawl.asked answers, a ∉ Crawl.asked log := fun a ha => ((hasked a).mp ha).2
  have happend : ∀ a, a ∈ Crawl.asked (log ++ answers)
      ↔ a ∈ Crawl.asked log ∨ a ∈ Crawl.asked answers := by
    intro a
    rw [Crawl.asked, List.map_append, List.mem_append]
    rfl
  -- what has been heard of by now has been asked by the end of the round
  have hall : ∀ m ≤ n, ∀ a, Heard good tells log seeds m a → a ∈ Crawl.asked (log ++ answers) := by
    intro m hm a ha
    rw [happend]
    by_cases hlog : a ∈ Crawl.asked log
    · exact .inl hlog
    · rcases Nat.lt_or_eq_of_le hm with hlt | rfl
      · exact absurd (h.asked m hlt a ha) hlog
      · rcases h.next a ha with hin | hfront
        · exact absurd hin hlog
        · exact .inr ((hasked a).mpr ⟨hfront, hlog⟩)
  refine ⟨fun a ha => ?_, fun m hm a ha => ?_, fun a ha => ?_, ?_⟩
  · rcases (happend a).mp ha with hlog | hans
    · obtain ⟨m, hm, hheard⟩ := h.heard a hlog
      exact ⟨m, by omega, hheard.mono⟩
    · exact ⟨n, Nat.lt_succ_self n, (h.ahead a ((hasked a).mp hans).1).mono⟩
  · exact hall m (by omega) a (h.heard_of_append hfresh (by omega) ha)
  · cases ha with
    | @told _ b _ r hb hin hgood htells =>
        rcases List.mem_append.mp hin with hlog | hans
        · obtain ⟨m, hm, hheard⟩ := h.heard b (mem_asked.mpr ⟨r, hlog⟩)
          exact .inl (hall (m + 1) hm a (.told hheard hlog hgood htells))
        · exact .inr ⟨b, r, hans, hgood, htells⟩
  · rintro a ⟨b, r, hans, hgood, htells⟩
    have hb := h.ahead b ((hasked b).mp (mem_asked.mpr ⟨r, hans⟩)).1
    exact .told hb.mono (List.mem_append_right _ hans) hgood htells

/-- With nothing left to ask, all has been asked that is ever heard of. -/
theorem Search.closed (h : Search good tells seeds n log frontier)
    (hdone : ∀ a, frontier a → a ∈ Crawl.asked log) {m : ℕ} {a : α}
    (ha : Heard good tells log seeds m a) : a ∈ Crawl.asked log := by
  have hsoon : ∀ m ≤ n, ∀ a, Heard good tells log seeds m a → a ∈ Crawl.asked log := by
    intro m hm a ha
    rcases Nat.lt_or_eq_of_le hm with hlt | rfl
    · exact h.asked m hlt a ha
    · exact (h.next a ha).elim id (hdone a)
  cases ha with
  | seed hseed => exact hsoon 0 (Nat.zero_le n) a (.seed hseed)
  | @told m b a r hb hin hgood htells =>
      obtain ⟨k, hk, hheard⟩ := h.heard b (mem_asked.mpr ⟨r, hin⟩)
      exact hsoon (k + 1) hk a (.told hheard hin hgood htells)

end Crawl
