/-
PrunedElectrs/Lib/Merkle.lean

Binary hash trees over a list of leaves, an odd layer repeating its last node.

A tree is climbed layer by layer: `next` pairs the nodes of a layer and combines
each pair by `f`.  The functions of a tree (`root`, `branch`, `calls`) all recurse
on the next layer, and every statement about them is an induction along the
layers, `root.induct`.

The root says nothing about the number of leaves (`root_append_last`).  Among
lists of one length it determines the leaves (`eq_of_root`), and a branch of the
tree's depth determines the leaf it starts from (`leaf_of_fold`); both unless
the combinations made on the two sides collide (`Collide`), a statement about
finitely many arguments of `f`.
-/
import Mathlib.Data.Nat.Bitwise
import Mathlib.Data.Nat.Log
import Mathlib.Tactic.Common

namespace Merkle

variable {α : Type*}

/-! ### Layers -/

/-- A layer with an even number of nodes: an odd one repeats its last. -/
def evened (l : List α) : List α := if l.length % 2 = 1 then l ++ l.getLast?.toList else l

/-- Neighbours, two by two. -/
def pairs : List α → List (α × α)
  | [] => []
  | [_] => []
  | a :: b :: l => (a, b) :: pairs l

theorem length_pairs (l : List α) : (pairs l).length = l.length / 2 := by
  induction l using pairs.induct with
  | case1 => simp [pairs]
  | case2 a => simp [pairs]
  | case3 a b l ih =>
      rw [pairs, List.length_cons, ih, List.length_cons, List.length_cons]
      omega

theorem pairs_getElem? (l : List α) (j : ℕ) (h : 2 * j + 1 < l.length) :
    (pairs l)[j]? = some (l[2 * j], l[2 * j + 1]) := by
  induction j generalizing l with
  | zero =>
      match l, h with
      | a :: b :: l, _ => rfl
  | succ j ih =>
      match l, h with
      | a :: b :: l, h =>
          have hl : 2 * j + 1 < l.length := by
            rw [List.length_cons, List.length_cons] at h
            omega
          rw [pairs, List.getElem?_cons_succ, ih l hl]
          rfl

/-- Lists of one even length are told apart by their pairs. -/
theorem pairs_inj {l l' : List α} (heven : l.length % 2 = 0) (hlen : l.length = l'.length)
    (h : pairs l = pairs l') : l = l' := by
  induction l using pairs.induct generalizing l' with
  | case1 => exact (List.length_eq_zero_iff.mp hlen.symm).symm
  | case2 a => cases heven
  | case3 a b l ih =>
      match l', hlen with
      | a' :: b' :: l', hlen =>
          rw [pairs, pairs, List.cons.injEq, Prod.mk.injEq] at h
          obtain ⟨⟨rfl, rfl⟩, hrest⟩ := h
          rw [List.length_cons, List.length_cons] at heven hlen
          rw [ih (by omega) (by simpa using hlen) hrest]

theorem evened_of_even {l : List α} (h : l.length % 2 = 0) : evened l = l :=
  if_neg (by omega)

theorem length_evened (l : List α) : (evened l).length = 2 * ((l.length + 1) / 2) := by
  rw [evened]
  split_ifs with h
  · have hne : l ≠ [] := by
      rintro rfl
      cases h
    rw [List.getLast?_eq_some_getLast hne, Option.toList_some, List.length_append,
      List.length_singleton]
    omega
  · omega

theorem evened_cons_cons (a b : α) (l : List α) : evened (a :: b :: l) = a :: b :: evened l := by
  have hmod : (a :: b :: l).length % 2 = l.length % 2 := Nat.add_mod_right _ 2
  rw [evened, evened, hmod]
  split_ifs with h
  · cases l with
    | nil => cases h
    | cons c l => rfl
  · rfl

theorem evened_getElem? {l : List α} {i : ℕ} (h : i < l.length) : (evened l)[i]? = l[i]? := by
  rw [evened]
  split_ifs
  · exact List.getElem?_append_left h
  · rfl

theorem evened_inj {l l' : List α} (hlen : l.length = l'.length) (h : evened l = evened l') :
    l = l' := by
  have htake : ∀ m : List α, (evened m).take m.length = m := by
    intro m
    rw [evened]
    split_ifs
    · exact List.take_left
    · exact List.take_length
  rw [← htake l, h, hlen, htake l']

variable (f : α → α → α)

/-- The layer above. -/
def next (l : List α) : List α := (pairs (evened l)).map fun p => f p.1 p.2

theorem length_next (l : List α) : (next f l).length = (l.length + 1) / 2 := by
  rw [next, List.length_map, length_pairs, length_evened]
  omega

theorem length_next_lt {l : List α} (h : 1 < l.length) : (next f l).length < l.length := by
  rw [length_next]
  omega

/-! ### The tree over a layer -/

/-- The root, where there are leaves. -/
def root (l : List α) : Option α := if 1 < l.length then root (next f l) else l.head?
termination_by l.length
decreasing_by exact length_next_lt f ‹_›

/-- The nodes beside the path from leaf `i` to the root, the lowest first. -/
def branch (l : List α) (i : ℕ) : List α :=
  if 1 < l.length then (evened l)[i ^^^ 1]?.toList ++ branch (next f l) (i / 2) else []
termination_by l.length
decreasing_by exact length_next_lt f ‹_›

/-- The combinations that make up the tree. -/
def calls (l : List α) : List (α × α) :=
  if 1 < l.length then pairs (evened l) ++ calls (next f l) else []
termination_by l.length
decreasing_by exact length_next_lt f ‹_›

/-- A node at position `i` and the one beside it, in the order they are combined in. -/
def ordered (i : ℕ) (a s : α) : α × α := if i % 2 = 0 then (a, s) else (s, a)

/-- Climb along a branch from a node at position `i`. -/
def fold : ℕ → α → List α → α
  | _, a, [] => a
  | i, a, s :: br => fold (i / 2) (f (ordered i a s).1 (ordered i a s).2) br

/-- The combinations made on the way. -/
def foldCalls : ℕ → α → List α → List (α × α)
  | _, _, [] => []
  | i, a, s :: br =>
      ordered i a s :: foldCalls (i / 2) (f (ordered i a s).1 (ordered i a s).2) br

/-- Two of the combinations have the same result and different arguments. -/
def Collide (P Q : List (α × α)) : Prop := ∃ p ∈ P, ∃ q ∈ Q, p ≠ q ∧ f p.1 p.2 = f q.1 q.2

variable {f} {l l' : List α} {i : ℕ} {a : α}

theorem Collide.mono {P P' Q Q' : List (α × α)} (h : Collide f P Q) (hP : P ⊆ P')
    (hQ : Q ⊆ Q') : Collide f P' Q' := by
  obtain ⟨p, hp, q, hq, hne, he⟩ := h
  exact ⟨p, hP hp, q, hQ hq, hne, he⟩

theorem ordered_inj {a' s s' : α} (h : ordered i a s = ordered i a' s') : a = a' ∧ s = s' := by
  rw [ordered, ordered] at h
  split_ifs at h
  · exact ⟨congrArg Prod.fst h, congrArg Prod.snd h⟩
  · exact ⟨congrArg Prod.snd h, congrArg Prod.fst h⟩

theorem root_of_le (h : ¬ 1 < l.length) : root f l = l.head? := by rw [root, if_neg h]

theorem root_of_lt (h : 1 < l.length) : root f l = root f (next f l) := by
  rw [root, if_pos h]

theorem branch_of_le (h : ¬ 1 < l.length) : branch f l i = [] := by rw [branch, if_neg h]

theorem calls_of_lt (h : 1 < l.length) : calls f l = pairs (evened l) ++ calls f (next f l) := by
  rw [calls, if_pos h]

theorem exists_root (hl : l ≠ []) : ∃ r, root f l = some r := by
  induction l using root.induct f with
  | case1 l hlt ih =>
      rw [root_of_lt hlt]
      refine ih fun hnil => ?_
      have hlen := length_next f l
      rw [hnil, List.length_nil] at hlen
      omega
  | case2 l hle =>
      rw [root_of_le hle]
      exact ⟨l.head hl, List.head?_eq_some_head hl⟩

/-! ### Branches -/

/-- The neighbour of a position. -/
theorem xor_one (i : ℕ) : i ^^^ 1 = if i % 2 = 0 then i + 1 else i - 1 := by
  have hdiv : (i ^^^ 1) / 2 = i / 2 := by
    rw [Nat.xor_div_two]
    exact Nat.xor_zero _
  have hmod : (i ^^^ 1) % 2 = (i + 1) % 2 := Nat.xor_mod_two_eq
  split_ifs <;> omega

theorem xor_one_lt (h : i < l.length) : i ^^^ 1 < (evened l).length := by
  rw [length_evened, xor_one]
  split_ifs <;> omega

/-- The first node of a branch, and the rest of it. -/
theorem branch_eq_cons (hl : 1 < l.length) (hi : i < l.length) :
    branch f l i = (evened l).get ⟨i ^^^ 1, xor_one_lt hi⟩ :: branch f (next f l) (i / 2) := by
  rw [branch, if_pos hl, List.getElem?_eq_getElem (xor_one_lt hi)]
  rfl

/-- **A branch has one node for each layer above the leaves.** -/
theorem length_branch (hi : i < l.length) : (branch f l i).length = Nat.clog 2 l.length := by
  induction l using root.induct f generalizing i with
  | case1 l hl ih =>
      have hnext : i / 2 < (next f l).length := by
        rw [length_next]
        omega
      rw [branch_eq_cons hl hi, List.length_cons, ih hnext, length_next,
        Nat.clog_of_two_le (le_refl 2) hl]
      rfl
  | case2 l hl =>
      rw [branch_of_le hl, Nat.clog_of_right_le_one (by omega)]
      rfl

/-- The pair that a node is part of. -/
theorem pairs_div_two (hi : i < l.length) :
    (pairs (evened l))[i / 2]? = some (ordered i l[i] ((evened l).get ⟨i ^^^ 1, xor_one_lt hi⟩)) := by
  have hlen := length_evened l
  have hxor := xor_one i
  have hlt : i < (evened l).length := by omega
  have hsame : (evened l)[i] = l[i] := by
    have hopt := evened_getElem? hi
    rwa [List.getElem?_eq_getElem hlt, List.getElem?_eq_getElem hi, Option.some.injEq] at hopt
  rw [pairs_getElem? _ _ (by omega), ← hsame, ordered, Option.some.injEq]
  simp only [List.get_eq_getElem]
  split_ifs with heven
  · rw [if_pos heven] at hxor
    congr 2 <;> omega
  · rw [if_neg heven] at hxor
    congr 2 <;> omega

theorem next_div_two (hi : i < l.length) {s : α} (hs : (evened l).get ⟨i ^^^ 1, xor_one_lt hi⟩ = s) :
    (next f l)[i / 2]? = some (f (ordered i l[i] s).1 (ordered i l[i] s).2) := by
  rw [next, List.getElem?_map, pairs_div_two hi, hs, Option.map_some]

/-- **Completeness**: the branch of a leaf leads from it to the root. -/
theorem root_eq_fold (hi : i < l.length) : root f l = some (fold f i l[i] (branch f l i)) := by
  induction l using root.induct f generalizing i with
  | case1 l hl ih =>
      have hnext : i / 2 < (next f l).length := by
        rw [length_next]
        omega
      have habove := next_div_two (f := f) hi rfl
      rw [List.getElem?_eq_getElem hnext, Option.some.injEq] at habove
      rw [root_of_lt hl, ih hnext, habove, branch_eq_cons hl hi, fold]
  | case2 l hl =>
      match l, hl, hi with
      | [a], hl, hi =>
          obtain rfl : i = 0 := by simpa using hi
          rw [root_of_le hl, branch_of_le hl]
          rfl
      | a :: b :: l, hl, _ => simp at hl

/-- **Soundness**: no other leaf is led to the root from this position, by a
branch of the tree's depth, nor this leaf by another branch. -/
theorem leaf_of_fold {br : List α} (hi : i < l.length) (hlen : br.length = (branch f l i).length)
    (hroot : root f l = some (fold f i a br)) :
    (l[i] = a ∧ br = branch f l i) ∨ Collide f (foldCalls f i a br) (calls f l) := by
  induction l using root.induct f generalizing i a br with
  | case1 l hl ih =>
      have hnext : i / 2 < (next f l).length := by
        rw [length_next]
        omega
      rw [branch_eq_cons hl hi, List.length_cons] at hlen
      obtain ⟨s, br, rfl⟩ := List.exists_cons_of_length_eq_add_one hlen
      rw [List.length_cons, Nat.add_right_cancel_iff] at hlen
      rw [root_of_lt hl, fold] at hroot
      rcases ih hnext hlen hroot with ⟨habove, hbr⟩ | hcollide
      · by_cases hsame : ordered i a s = ordered i l[i] ((evened l).get ⟨i ^^^ 1, xor_one_lt hi⟩)
        · obtain ⟨rfl, rfl⟩ := ordered_inj hsame
          rw [branch_eq_cons hl hi, ← hbr]
          exact .inl ⟨rfl, rfl⟩
        -- the same node above two different pairs
        · refine .inr ⟨_, List.mem_cons_self, _, ?_, hsame, ?_⟩
          · rw [calls_of_lt hl]
            exact List.mem_append_left _ (List.mem_of_getElem? (pairs_div_two hi))
          · have hpair := next_div_two (f := f) hi rfl
            rw [List.getElem?_eq_getElem hnext, Option.some.injEq] at hpair
            rw [← habove, hpair]
      · refine .inr (hcollide.mono (List.subset_cons_self _ _) ?_)
        rw [calls_of_lt hl]
        exact List.subset_append_right _ _
  | case2 l hl =>
      rw [branch_of_le hl] at hlen ⊢
      obtain rfl := List.length_eq_zero_iff.mp hlen
      match l, hl, hi with
      | [b], hl, hi =>
          obtain rfl : i = 0 := by simpa using hi
          rw [root_of_le hl] at hroot
          exact .inl ⟨Option.some.inj hroot, rfl⟩
      | b :: c :: l, hl, _ => simp at hl

/-- From the first leaf on, the branch is on the right at every layer. -/
theorem fold_zero (f : α → α → α) (a : α) (br : List α) : fold f 0 a br = br.foldl f a := by
  induction br generalizing a with
  | nil => rfl
  | cons s br ih =>
      rw [fold, List.foldl_cons]
      exact ih (f a s)

/-- What stands behind the first node of the layer above. -/
theorem next_cons_cons (a b : α) (l : List α) : next f (a :: b :: l) = f a b :: next f l := by
  rw [next, evened_cons_cons, pairs, List.map_cons, next]

/-- The branch of the first leaf is made of the other leaves alone. -/
theorem branch_zero (f : α → α → α) (a b : α) (l : List α) :
    branch f (a :: l) 0 = branch f (b :: l) 0 := by
  induction hn : l.length using Nat.strongRecOn generalizing l a b with
  | ind n ih =>
      match l with
      | [] => rw [branch_of_le (by simp), branch_of_le (by simp)]
      | c :: l =>
          have hcons : ∀ x : α, branch f (x :: c :: l) 0 = c :: branch f (f x c :: next f l) 0 := by
            intro x
            have hsib : (evened (x :: c :: l))[0 ^^^ 1]? = some c := evened_getElem? (by simp)
            rw [branch, if_pos (by simp), hsib, next_cons_cons]
            rfl
          have hshorter : (next f l).length < n := by
            rw [length_next, ← hn, List.length_cons]
            omega
          rw [hcons a, hcons b, ih _ hshorter (f a c) (f b c) (next f l) rfl]

/-! ### What the tree is made of -/

section Forall

variable {P : α → Prop}

theorem forall_evened (hl : ∀ a ∈ l, P a) : ∀ a ∈ evened l, P a := by
  intro a ha
  rw [evened] at ha
  split_ifs at ha
  · rcases List.mem_append.mp ha with ha | ha
    · exact hl a ha
    · exact hl a (List.mem_of_getLast? (Option.mem_toList.mp ha))
  · exact hl a ha

theorem forall_pairs (hl : ∀ a ∈ l, P a) : ∀ p ∈ pairs l, P p.1 ∧ P p.2 := by
  induction l using pairs.induct with
  | case1 => exact fun _ hp => absurd hp List.not_mem_nil
  | case2 a => exact fun _ hp => absurd hp List.not_mem_nil
  | case3 a b l ih =>
      rw [List.forall_mem_cons, List.forall_mem_cons] at hl
      obtain ⟨ha, hb, hl⟩ := hl
      rw [pairs, List.forall_mem_cons]
      exact ⟨⟨ha, hb⟩, ih hl⟩

theorem of_root (hf : ∀ a b, P (f a b)) (hl : ∀ a ∈ l, P a) (h : root f l = some a) : P a := by
  induction l using root.induct f with
  | case1 l hlt ih =>
      rw [root_of_lt hlt] at h
      refine ih (fun b hb => ?_) h
      obtain ⟨p, -, rfl⟩ := List.mem_map.mp hb
      exact hf _ _
  | case2 l hle =>
      rw [root_of_le hle] at h
      exact hl a (List.mem_of_head? h)

/-- What holds of the leaves and of every node above them holds of all nodes. -/
theorem forall_calls (hf : ∀ a b, P (f a b)) (hl : ∀ a ∈ l, P a) :
    ∀ p ∈ calls f l, P p.1 ∧ P p.2 := by
  induction l using root.induct f with
  | case1 l hlt ih =>
      rw [calls_of_lt hlt, List.forall_mem_append]
      refine ⟨forall_pairs (forall_evened hl), ih fun a ha => ?_⟩
      obtain ⟨p, -, rfl⟩ := List.mem_map.mp ha
      exact hf _ _
  | case2 l hle =>
      rw [calls, if_neg hle]
      exact fun _ hp => absurd hp List.not_mem_nil

theorem forall_foldCalls (hf : ∀ a b, P (f a b)) {br : List α} (ha : P a) (hbr : ∀ s ∈ br, P s) :
    ∀ p ∈ foldCalls f i a br, P p.1 ∧ P p.2 := by
  induction br generalizing i a with
  | nil => exact fun _ hp => absurd hp List.not_mem_nil
  | cons s br ih =>
      rw [List.forall_mem_cons] at hbr
      rw [foldCalls, List.forall_mem_cons]
      refine ⟨?_, ih (hf _ _) hbr.2⟩
      rw [ordered]
      split_ifs
      · exact ⟨ha, hbr.1⟩
      · exact ⟨hbr.1, ha⟩

end Forall

/-! ### Roots -/

/-- **Lists of one length with one root are the same.** -/
theorem eq_of_root (hlen : l.length = l'.length) (hroot : root f l = root f l') :
    l = l' ∨ Collide f (calls f l) (calls f l') := by
  induction l using root.induct f generalizing l' with
  | case1 l hl ih =>
      have hl' : 1 < l'.length := hlen ▸ hl
      have hnext : (next f l).length = (next f l').length := by
        rw [length_next, length_next, hlen]
      rw [root_of_lt hl, root_of_lt hl'] at hroot
      rcases ih hnext hroot with hsame | hcollide
      · by_cases hpairs : pairs (evened l) = pairs (evened l')
        · have hlens : (evened l).length = (evened l').length := by
            rw [length_evened, length_evened, hlen]
          have heven : (evened l).length % 2 = 0 := by
            rw [length_evened]
            omega
          exact .inl (evened_inj hlen (pairs_inj heven hlens hpairs))
        -- some node stands above two different pairs
        · right
          by_contra hno
          refine hpairs (List.ext_getElem? fun j => ?_)
          have hj := congrArg (·[j]?) hsame
          simp only [next, List.getElem?_map] at hj
          rcases hp : (pairs (evened l))[j]? with - | p <;>
            rcases hq : (pairs (evened l'))[j]? with - | q <;> rw [hp, hq] at hj
          · cases hj
          · cases hj
          · rw [Option.map_some, Option.map_some, Option.some.injEq] at hj
            by_contra hne
            refine hno ⟨p, ?_, q, ?_, fun e => hne (congrArg some e), hj⟩
            · rw [calls_of_lt hl]
              exact List.mem_append_left _ (List.mem_of_getElem? hp)
            · rw [calls_of_lt hl']
              exact List.mem_append_left _ (List.mem_of_getElem? hq)
      · refine .inr (hcollide.mono ?_ ?_)
        · rw [calls_of_lt hl]
          exact List.subset_append_right _ _
        · rw [calls_of_lt hl']
          exact List.subset_append_right _ _
  | case2 l hl =>
      rw [root_of_le hl, root_of_le (hlen ▸ hl)] at hroot
      match l, l', hl, hlen with
      | [], [], _, _ => exact .inl rfl
      | [a], [b], _, _ => exact .inl (congrArg (fun x => [x]) (Option.some.inj hroot))
      | a :: b :: l, _, hl, _ => simp at hl

/-- Repeating the last of an odd number of leaves leaves the root as it is. -/
theorem root_append_last (hodd : l.length % 2 = 1) (hl : 1 < l.length) :
    root f (l ++ l.getLast?.toList) = root f l := by
  have heven : evened l = l ++ l.getLast?.toList := if_pos hodd
  have hlen := length_evened l
  rw [heven] at hlen
  have hsame : evened (l ++ l.getLast?.toList) = evened l := by
    rw [evened_of_even (by omega), heven]
  rw [root_of_lt (by omega), root_of_lt hl, next, next, hsame]

end Merkle
