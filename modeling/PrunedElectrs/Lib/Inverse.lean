/-
PrunedElectrs/Lib/Inverse.lean

A list together with the map that finds an element's position.

Maps are functions into `Option`; `insertKey` and `removeKey` are their updates.
`IsInverse m l` says that `m` finds exactly the elements of `l`, each at its
position; it can only hold of a list without repetitions.  The lemmas say what
has to happen to the map when the list is cut (`IsInverse.foldl_remove`) and
when it grows (`IsInverse.foldl_insert`).
-/
import Mathlib.Data.List.Nodup
import Mathlib.Logic.Function.Basic

namespace Wire

variable {κ ν : Type*} [DecidableEq κ]

/-- The map with a key set. -/
def insertKey (m : κ → Option ν) (k : κ) (v : ν) : κ → Option ν := Function.update m k (some v)

/-- The map without a key. -/
def removeKey (m : κ → Option ν) (k : κ) : κ → Option ν := Function.update m k none

@[simp] theorem insertKey_self (m : κ → Option ν) (k : κ) (v : ν) : insertKey m k v k = some v :=
  Function.update_self ..

theorem insertKey_of_ne {k k' : κ} (h : k' ≠ k) (m : κ → Option ν) (v : ν) :
    insertKey m k v k' = m k' := Function.update_of_ne h ..

@[simp] theorem removeKey_self (m : κ → Option ν) (k : κ) : removeKey m k k = none :=
  Function.update_self ..

theorem removeKey_of_ne {k k' : κ} (h : k' ≠ k) (m : κ → Option ν) :
    removeKey m k k' = m k' := Function.update_of_ne h ..

/-- `m` finds exactly the elements of `l`, each at its position. -/
def IsInverse (m : κ → Option ℕ) (l : List κ) : Prop :=
  ∀ k i, m k = some i ↔ l[i]? = some k

theorem foldl_removeKey_apply (m : κ → Option ν) (d : List κ) (k : κ) :
    d.foldl removeKey m k = if k ∈ d then none else m k := by
  induction d generalizing m with
  | nil => simp
  | cons x d ih =>
      rw [List.foldl_cons, ih]
      by_cases hd : k ∈ d
      · simp [hd]
      · by_cases hx : k = x
        · subst hx
          simp [hd]
        · simp [hd, hx, removeKey_of_ne hx]

namespace IsInverse

variable {m : κ → Option ℕ} {l d : List κ}

/-- Removing the elements of a suffix from the map cuts the suffix off. -/
theorem foldl_remove (h : IsInverse m (l ++ d)) (hnodup : (l ++ d).Nodup) :
    IsInverse (d.foldl removeKey m) l := by
  intro k i
  rw [foldl_removeKey_apply]
  obtain ⟨-, -, hdisj⟩ := List.nodup_append.mp hnodup
  split_ifs with hd
  · have hl : l[i]? ≠ some k := fun e => hdisj k (List.mem_of_getElem? e) k hd rfl
    simp [hl]
  · rw [h k i]
    by_cases hi : i < l.length
    · rw [List.getElem?_append_left hi]
    · have hright : (l ++ d)[i]? ≠ some k := fun e => by
        rw [List.getElem?_append_right (by omega)] at e
        exact hd (List.mem_of_getElem? e)
      have hleft : l[i]? ≠ some k := by
        rw [List.getElem?_eq_none (by omega)]
        simp
      simp [hright, hleft]

theorem insert (h : IsInverse m l) {k : κ} (hk : k ∉ l) :
    IsInverse (insertKey m k l.length) (l ++ [k]) := by
  intro k' i
  by_cases hkk : k' = k
  · subst hkk
    rw [insertKey_self, Option.some.injEq]
    constructor
    · rintro rfl
      simp
    · intro e
      by_cases hi : i < l.length
      · rw [List.getElem?_append_left hi] at e
        exact absurd (List.mem_of_getElem? e) hk
      · have hlen := (List.getElem?_eq_some_iff.mp e).1
        rw [List.length_append, List.length_singleton] at hlen
        omega
  · rw [insertKey_of_ne hkk, h k' i]
    by_cases hi : i < l.length
    · rw [List.getElem?_append_left hi]
    · have hright : (l ++ [k])[i]? ≠ some k' := fun e => by
        rw [List.getElem?_append_right (by omega)] at e
        exact hkk (List.mem_singleton.mp (List.mem_of_getElem? e))
      have hleft : l[i]? ≠ some k' := by
        rw [List.getElem?_eq_none (by omega)]
        simp
      simp [hright, hleft]

/-- Inserting further elements at the positions from the end on. -/
theorem foldl_insert (h : IsInverse m l) {d : List κ} (hnodup : (l ++ d).Nodup) :
    IsInverse ((d.zipIdx l.length).foldl (fun m p => insertKey m p.1 p.2) m)
      (l ++ d) := by
  induction d generalizing m l with
  | nil => simpa using h
  | cons k d ih =>
      have hk : k ∉ l := fun hk =>
        (List.nodup_append.mp hnodup).2.2 k hk k List.mem_cons_self rfl
      rw [List.append_cons] at hnodup ⊢
      have hstep := ih (h.insert hk) hnodup
      rw [List.length_append, List.length_singleton] at hstep
      rw [List.zipIdx_cons, List.foldl_cons]
      exact hstep

end IsInverse

end Wire
