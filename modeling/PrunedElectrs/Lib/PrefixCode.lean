/-
PrunedElectrs/Lib/PrefixCode.lean

Codes whose words tell where they end.

A `PrefixCode` reads one word off the front of a symbol string and leaves the
rest, exactly undoing `encode`.  Nothing is assumed about word lengths: a
format in which the first symbols announce how many follow is the intended
instance.  From the one-word laws the file derives

* unique decodability (`flatMap_encode_inj`): a string is the concatenation of
  at most one list of words;
* that the greedy walk `decodeAll` is exact (`decodeAll_eq_some_iff`): it
  succeeds on a string precisely when the string is such a concatenation, and
  then it finds the list.

The walk terminates because no word is empty.
-/
import Mathlib.Data.List.Basic

namespace Wire

variable {σ α : Type*}

/-- A code over symbols `σ` for those values of `α` that satisfy `Word`. -/
structure PrefixCode (σ α : Type*) where
  /-- The values the code can carry. -/
  Word : α → Prop
  encode : α → List σ
  /-- Read one word off the front, and leave the rest. -/
  decode : List σ → Option (α × List σ)
  encode_ne_nil : ∀ a, encode a ≠ []
  decode_encode : ∀ {a}, Word a → ∀ rest, decode (encode a ++ rest) = some (a, rest)
  of_decode : ∀ {b a rest}, decode b = some (a, rest) → Word a ∧ b = encode a ++ rest

namespace PrefixCode

variable (c : PrefixCode σ α)

theorem length_rest_lt {b rest : List σ} {a : α} (h : c.decode b = some (a, rest)) :
    rest.length < b.length := by
  obtain ⟨-, rfl⟩ := c.of_decode h
  have hpos := List.length_pos_iff.mpr (c.encode_ne_nil a)
  rw [List.length_append]
  omega

/-! ### Unique decodability -/

/-- A word is determined by any string it starts. -/
theorem encode_append_inj {a a' : α} {r r' : List σ} (ha : c.Word a) (ha' : c.Word a')
    (h : c.encode a ++ r = c.encode a' ++ r') : a = a' ∧ r = r' := by
  have e := c.decode_encode ha r
  rw [h, c.decode_encode ha' r'] at e
  cases e
  exact ⟨rfl, rfl⟩

/-- **Unique decodability**: a string decomposes into words in one way. -/
theorem flatMap_encode_inj {hs hs' : List α} (hw : ∀ a ∈ hs, c.Word a)
    (hw' : ∀ a ∈ hs', c.Word a) (h : hs.flatMap c.encode = hs'.flatMap c.encode) :
    hs = hs' := by
  induction hs generalizing hs' with
  | nil =>
      cases hs' with
      | nil => rfl
      | cons a' hs' =>
          rw [List.flatMap_nil, List.flatMap_cons, eq_comm, List.append_eq_nil_iff] at h
          exact absurd h.1 (c.encode_ne_nil a')
  | cons a hs ih =>
      cases hs' with
      | nil =>
          rw [List.flatMap_nil, List.flatMap_cons, List.append_eq_nil_iff] at h
          exact absurd h.1 (c.encode_ne_nil a)
      | cons a' hs' =>
          rw [List.forall_mem_cons] at hw hw'
          rw [List.flatMap_cons, List.flatMap_cons] at h
          obtain ⟨rfl, hrest⟩ := c.encode_append_inj hw.1 hw'.1 h
          rw [ih hw.2 hw'.2 hrest]

/-! ### The greedy walk -/

/-- Read words until the string is used up; `none` where no word can be read. -/
def decodeAll : List σ → Option (List α)
  | [] => some []
  | x :: xs =>
      match _h : c.decode (x :: xs) with
      | none => none
      | some (a, rest) => (decodeAll rest).map (a :: ·)
termination_by b => b.length
decreasing_by exact c.length_rest_lt _h

@[simp] theorem decodeAll_nil : c.decodeAll [] = some [] := by rw [decodeAll]

theorem decodeAll_of_decode_none {b : List σ} (hb : b ≠ []) (h : c.decode b = none) :
    c.decodeAll b = none := by
  cases b with
  | nil => exact absurd rfl hb
  | cons x xs =>
      rw [decodeAll]
      split
      · rfl
      · next e => rw [h] at e; cases e

theorem decodeAll_of_decode_some {b rest : List σ} {a : α} (h : c.decode b = some (a, rest)) :
    c.decodeAll b = (c.decodeAll rest).map (a :: ·) := by
  cases b with
  | nil => exact absurd (c.length_rest_lt h) (Nat.not_lt_zero _)
  | cons x xs =>
      rw [decodeAll]
      split
      · next e => rw [h] at e; cases e
      · next e => rw [h] at e; cases e; rfl

/-- The walk finds the words of a concatenation. -/
theorem decodeAll_flatMap_encode {hs : List α} (hw : ∀ a ∈ hs, c.Word a) :
    c.decodeAll (hs.flatMap c.encode) = some hs := by
  induction hs with
  | nil => rw [List.flatMap_nil, decodeAll_nil]
  | cons a hs ih =>
      rw [List.forall_mem_cons] at hw
      rw [List.flatMap_cons, c.decodeAll_of_decode_some (c.decode_encode hw.1 _), ih hw.2,
        Option.map_some]

/-- What the walk returns is a decomposition of the string into words. -/
theorem of_decodeAll : ∀ {b : List σ} {hs : List α}, c.decodeAll b = some hs →
    (∀ a ∈ hs, c.Word a) ∧ b = hs.flatMap c.encode := by
  -- induction on the length of what is left, which every word shortens
  intro b
  induction n : b.length using Nat.strongRecOn generalizing b with
  | ind n ih =>
      intro hs h
      by_cases hb : b = []
      · subst hb
        rw [decodeAll_nil, Option.some.injEq] at h
        subst h
        exact ⟨by simp, rfl⟩
      rcases e : c.decode b with - | ⟨a, rest⟩
      · rw [c.decodeAll_of_decode_none hb e] at h
        cases h
      · rw [c.decodeAll_of_decode_some e, Option.map_eq_some_iff] at h
        obtain ⟨tl, htl, rfl⟩ := h
        obtain ⟨hword, hbytes⟩ := c.of_decode e
        obtain ⟨hwords, hrest⟩ := ih rest.length (n ▸ c.length_rest_lt e) rfl htl
        refine ⟨List.forall_mem_cons.mpr ⟨hword, hwords⟩, ?_⟩
        rw [List.flatMap_cons, ← hrest, ← hbytes]

/-- **The walk is exact.** -/
theorem decodeAll_eq_some_iff {b : List σ} {hs : List α} :
    c.decodeAll b = some hs ↔ (∀ a ∈ hs, c.Word a) ∧ b = hs.flatMap c.encode := by
  constructor
  · exact c.of_decodeAll
  · rintro ⟨hw, rfl⟩
    exact c.decodeAll_flatMap_encode hw

end PrefixCode

end Wire
