/-
PrunedElectrs/Lib/HashLinked.lean

Lists whose elements name their predecessors by hash.

`l` is hash-linked when it is a `List.IsChain` for `On`: every element's `prev`
is the hash of the element before it.  Nothing in the list says at which
position an element stands, so everything positional has to come from the
hashes being apart (`Apart`): no two elements collide, and no element has the
hash the first one names as its predecessor.  Under that assumption

* the hashes of a linked list are distinct (`nodup_map_hash`), so a position
  can be looked up by hash;
* the list is determined by its first element and the hash of its last
  (`eq_of_getLast_hash`), so "the path to a tip" is well defined.

Where only collisions are excluded, two linked lists that share an element at a
position share everything before it (`take_eq_of_shared`).
-/
import Mathlib.Data.List.Chain
import Mathlib.Data.List.Nodup
import Mathlib.Data.Set.Function

namespace HashLinked

variable {α κ : Type*} (hash prev : α → κ)

/-- `b` names `a` as its predecessor. -/
def On (a b : α) : Prop := prev b = hash a

/-- The hashes of the elements of `S` are apart, also from the hash that `g`
names as its predecessor. -/
structure Apart (g : α) (S : Set α) : Prop where
  inj : Set.InjOn hash S
  null : ∀ a ∈ S, hash a ≠ prev g

variable {hash prev}

theorem Apart.mono {g : α} {S T : Set α} (h : Apart hash prev g T) (hST : S ⊆ T) :
    Apart hash prev g S :=
  ⟨h.inj.mono hST, fun a ha => h.null a (hST ha)⟩

/-- For a concrete list the assumption is decidable. -/
theorem Apart.of_nodup {g : α} {l : List α} (hnodup : (l.map hash).Nodup)
    (hnull : prev g ∉ l.map hash) : Apart hash prev g {a | a ∈ l} where
  inj := List.inj_on_of_nodup_map hnodup
  null := fun _ ha e => hnull (e ▸ List.mem_map_of_mem ha)

/-- Two elements with the same hash stand at the same position. -/
theorem hash_ne_of_lt {g : α} {l : List α} (hl : (g :: l).IsChain (On hash prev))
    (hS : Apart hash prev g {a | a ∈ g :: l}) :
    ∀ (i j : ℕ) (hij : i < j) (hj : j < (g :: l).length),
      hash ((g :: l)[i]) ≠ hash ((g :: l)[j]) := by
  intro i
  have hlink := List.isChain_iff_getElem.mp hl
  induction i with
  | zero =>
      -- the first element again would need a predecessor with the null hash
      intro j hij hj e
      obtain ⟨j, rfl⟩ : ∃ k, j = k + 1 := ⟨j - 1, by omega⟩
      have hsame := hS.inj (List.getElem_mem _) (List.getElem_mem hj) e
      have hprev : prev ((g :: l)[j + 1]) = hash ((g :: l)[j]) := hlink j hj
      rw [← hsame] at hprev
      exact hS.null _ (List.getElem_mem _) hprev.symm
  | succ i ih =>
      intro j hij hj e
      obtain ⟨j, rfl⟩ : ∃ k, j = k + 1 := ⟨j - 1, by omega⟩
      have hsame := hS.inj (List.getElem_mem _) (List.getElem_mem hj) e
      have hi : prev ((g :: l)[i + 1]) = hash ((g :: l)[i]) := hlink i (by omega)
      have hj' : prev ((g :: l)[j + 1]) = hash ((g :: l)[j]) := hlink j hj
      rw [hsame, hj'] at hi
      exact ih j (by omega) (by omega) hi.symm

/-- The hashes of a linked list are distinct. -/
theorem nodup_map_hash {g : α} {l : List α} (hl : (g :: l).IsChain (On hash prev))
    (hS : Apart hash prev g {a | a ∈ g :: l}) : ((g :: l).map hash).Nodup := by
  rw [List.nodup_iff_injective_get]
  intro ⟨i, hi⟩ ⟨j, hj⟩ e
  rw [List.length_map] at hi hj
  simp only [List.get_eq_getElem, List.getElem_map] at e
  have hne := hash_ne_of_lt hl hS
  rcases Nat.lt_trichotomy i j with h | h | h
  · exact absurd e (hne i j h hj)
  · exact Fin.ext h
  · exact absurd e.symm (hne j i h hi)

theorem nodup_of_isChain {g : α} {l : List α} (hl : (g :: l).IsChain (On hash prev))
    (hS : Apart hash prev g {a | a ∈ g :: l}) : (g :: l).Nodup :=
  (nodup_map_hash hl hS).of_map hash

/-- A linked list is the only one to its last hash. -/
theorem eq_of_getLast_hash {g : α} {S : Set α} (hS : Apart hash prev g S) :
    ∀ {l m : List α}, (g :: l).IsChain (On hash prev) → (g :: m).IsChain (On hash prev) →
      (∀ a ∈ g :: l, a ∈ S) → (∀ a ∈ g :: m, a ∈ S) →
      hash ((g :: l).getLast (List.cons_ne_nil _ _))
        = hash ((g :: m).getLast (List.cons_ne_nil _ _)) → l = m := by
  intro l
  -- on the common end; where one list runs out, its first element names the null hash
  induction l using List.reverseRecOn with
  | nil =>
      intro m _ hm hlS hmS e
      rcases List.eq_nil_or_concat m with rfl | ⟨m, b, rfl⟩
      · rfl
      · rw [List.concat_eq_append] at hm hmS e
        have hb : g = b := hS.inj (hlS g (by simp)) (hmS b (by simp)) (by simpa using e)
        have hon := (List.isChain_append.mp (List.cons_append ▸ hm)).2.2
        obtain ⟨a, ha⟩ : ∃ a, (g :: m).getLast? = some a := ⟨_, List.getLast?_cons⟩
        have hprev : prev b = hash a := hon a ha b rfl
        have hamem : a ∈ S := by
          refine hmS a ?_
          rw [← List.cons_append]
          exact List.mem_append_left _ (List.mem_of_getLast? ha)
        exact absurd (hb ▸ hprev.symm) (hS.null a hamem)
  | append_singleton l a ih =>
      intro m hl hm hlS hmS e
      have honl := (List.isChain_append.mp (List.cons_append ▸ hl))
      obtain ⟨x, hx⟩ : ∃ x, (g :: l).getLast? = some x := ⟨_, List.getLast?_cons⟩
      have hxa : prev a = hash x := honl.2.2 x hx a rfl
      have hxmem : x ∈ S := by
        refine hlS x ?_
        rw [← List.cons_append]
        exact List.mem_append_left _ (List.mem_of_getLast? hx)
      rcases List.eq_nil_or_concat m with rfl | ⟨m, b, rfl⟩
      · have ha : a = g := hS.inj (hlS a (by simp)) (hmS g (by simp)) (by simpa using e)
        exact absurd (ha ▸ hxa.symm) (hS.null x hxmem)
      · rw [List.concat_eq_append] at hm hmS e ⊢
        have honm := (List.isChain_append.mp (List.cons_append ▸ hm))
        obtain ⟨y, hy⟩ : ∃ y, (g :: m).getLast? = some y := ⟨_, List.getLast?_cons⟩
        have hyb : prev b = hash y := honm.2.2 y hy b rfl
        have hab : a = b := hS.inj (hlS a (by simp)) (hmS b (by simp)) (by simpa using e)
        have hxy : hash ((g :: l).getLast (List.cons_ne_nil _ _))
            = hash ((g :: m).getLast (List.cons_ne_nil _ _)) := by
          rw [List.getLast?_eq_some_getLast (List.cons_ne_nil _ _), Option.some.injEq] at hx hy
          rw [hx, hy, ← hxa, ← hyb, hab]
        have hlm := ih honl.1 honm.1 (fun z hz => hlS z (List.mem_append_left [a] hz))
          (fun z hz => hmS z (List.mem_append_left [b] hz)) hxy
        rw [hlm, hab]

/-- Two linked lists that share an element at a position share what is before it. -/
theorem take_eq_of_shared {S : Set α} (hS : Set.InjOn hash S) {l m : List α}
    (hl : l.IsChain (On hash prev)) (hm : m.IsChain (On hash prev)) (hlS : ∀ a ∈ l, a ∈ S)
    (hmS : ∀ a ∈ m, a ∈ S) {i : ℕ} {a : α} (hla : l[i]? = some a) (hma : m[i]? = some a) :
    l.take (i + 1) = m.take (i + 1) := by
  induction i generalizing a with
  | zero => rw [List.take_add_one, List.take_add_one, hla, hma, List.take_zero, List.take_zero]
  | succ i ih =>
      -- the elements before them are both named by `a`
      obtain ⟨hil, rfl⟩ := List.getElem?_eq_some_iff.mp hla
      obtain ⟨him, hsame⟩ := List.getElem?_eq_some_iff.mp hma
      have hprevl : prev l[i + 1] = hash l[i] := List.isChain_iff_getElem.mp hl i hil
      have hprevm : prev m[i + 1] = hash m[i] := List.isChain_iff_getElem.mp hm i him
      rw [hsame, hprevl] at hprevm
      have hbefore : l[i] = m[i] :=
        hS (hlS _ (List.getElem_mem _)) (hmS _ (List.getElem_mem _)) hprevm
      have hrest : l.take (i + 1) = m.take (i + 1) :=
        ih (List.getElem?_eq_getElem (by omega))
          ((List.getElem?_eq_getElem (by omega)).trans (congrArg some hbefore.symm))
      calc l.take (i + 1 + 1)
          = l.take (i + 1) ++ (l[i + 1]?).toList := List.take_add_one
        _ = m.take (i + 1) ++ (m[i + 1]?).toList := by rw [hrest, hla, hma]
        _ = m.take (i + 1 + 1) := List.take_add_one.symm

end HashLinked
