/-
PrunedElectrs/Lib/Register.lean

A register that several parties lower, by a check and a later store.

A party loads the register, and may store a value below what it loaded; between
the two the others go on.  Events are of any type, and `access` says which of
them are loads and stores.  The register holds the least value stored, and only
falls, at every moment exactly when no store comes behind a lower one that its
check has not seen (`value_eq_least`, `inTurn_of_value_eq_least`).
-/
import Mathlib.Data.List.DropRight
import Mathlib.Order.Lattice
import PrunedElectrs.Lib.Runs

namespace Register

open Runs

/-- An access to the register, by a party. -/
inductive Access (ι α : Type*)
  | load (who : ι) (value : α)
  | store (who : ι) (value : α)

variable {ε ι α : Type*} (access : ε → Option (Access ι α)) (init : α)

/-! ### The value -/

/-- The value an event stores. -/
def stored (e : ε) : Option α :=
  match access e with
  | some (.store _ v) => some v
  | _ => none

/-- The values stored, in order. -/
def recorded (acts : List ε) : List α := acts.filterMap (stored access)

/-- What the register holds. -/
def value (acts : List ε) : α := (recorded access acts).getLast?.getD init

variable {access init}

theorem stored_of_store {e : ε} {who : ι} {v : α} (h : access e = some (.store who v)) :
    stored access e = some v := by
  rw [stored, h]

theorem stored_of_load {e : ε} {who : ι} {v : α} (h : access e = some (.load who v)) :
    stored access e = none := by
  rw [stored, h]

theorem stored_of_none {e : ε} (h : access e = none) : stored access e = none := by
  rw [stored, h]

theorem recorded_append (acts acts' : List ε) :
    recorded access (acts ++ acts') = recorded access acts ++ recorded access acts' :=
  List.filterMap_append

theorem recorded_concat_of_none {acts : List ε} {e : ε} (h : stored access e = none) :
    recorded access (acts ++ [e]) = recorded access acts := by
  rw [recorded_append, recorded, recorded, List.filterMap_cons_none h, List.filterMap_nil,
    List.append_nil]

theorem recorded_concat_of_some {acts : List ε} {e : ε} {v : α} (h : stored access e = some v) :
    recorded access (acts ++ [e]) = recorded access acts ++ [v] := by
  rw [recorded_append, recorded, recorded, List.filterMap_cons_some h, List.filterMap_nil]

theorem value_concat_of_none {acts : List ε} {e : ε} (h : stored access e = none) :
    value access init (acts ++ [e]) = value access init acts := by
  rw [value, recorded_concat_of_none h, value]

theorem value_concat_of_some {acts : List ε} {e : ε} {v : α} (h : stored access e = some v) :
    value access init (acts ++ [e]) = v := by
  rw [value, recorded_concat_of_some h, List.getLast?_concat, Option.getD_some]

/-- The register holds its initial value or one that was stored. -/
theorem value_eq_or_mem (acts : List ε) :
    value access init acts = init ∨ value access init acts ∈ recorded access acts := by
  rw [value]
  rcases h : (recorded access acts).getLast? with - | v
  · exact .inl rfl
  · exact .inr (List.mem_of_getLast? h)

/-! ### The least value stored -/

section Least

variable [LinearOrder α]

variable (access init) in
/-- The least value stored, and at most the initial one. -/
def least (acts : List ε) : α := (recorded access acts).foldr min init

theorem least_le {acts : List ε} {v : α} (h : v ∈ recorded access acts) :
    least access init acts ≤ v := by
  rw [least]
  generalize recorded access acts = vs at h
  induction vs with
  | nil => cases h
  | cons v' vs ih =>
      rcases List.mem_cons.mp h with rfl | h
      · exact min_le_left _ _
      · exact (min_le_right _ _).trans (ih h)

theorem least_le_init (acts : List ε) : least access init acts ≤ init := by
  rw [least]
  induction recorded access acts with
  | nil => exact le_rfl
  | cons v vs ih => exact (min_le_right _ _).trans ih

theorem le_least {acts : List ε} {v : α} (hinit : v ≤ init)
    (h : ∀ v' ∈ recorded access acts, v ≤ v') : v ≤ least access init acts := by
  rw [least]
  generalize recorded access acts = vs at h
  induction vs with
  | nil => exact hinit
  | cons v' vs ih =>
      rw [List.forall_mem_cons] at h
      exact le_min h.1 (ih h.2)

theorem least_concat_of_none {acts : List ε} {e : ε} (h : stored access e = none) :
    least access init (acts ++ [e]) = least access init acts := by
  rw [least, recorded_concat_of_none h, least]

/-- A store that is no higher than any before it is the least. -/
theorem least_concat_of_some {acts : List ε} {e : ε} {v : α} (h : stored access e = some v)
    (hv : v ≤ least access init acts) : least access init (acts ++ [e]) = v := by
  refine le_antisymm (least_le ?_) (le_least (hv.trans (least_le_init acts)) fun v' hv' => ?_)
  · rw [recorded_concat_of_some h]
    exact List.mem_append_right _ List.mem_cons_self
  · rw [recorded_concat_of_some h] at hv'
    rcases List.mem_append.mp hv' with hv' | hv'
    · exact hv.trans (least_le hv')
    · rw [List.mem_singleton.mp hv']

/-- The least value only falls. -/
theorem least_append_le (acts acts' : List ε) :
    least access init (acts ++ acts') ≤ least access init acts :=
  le_least (least_le_init _) fun v hv => least_le (by
    rw [recorded_append]
    exact List.mem_append_left _ hv)

/-- A register that always holds the least value stored only falls. -/
theorem value_append_le {acts : List ε}
    (h : ∀ pre, pre <+: acts → value access init pre = least access init pre)
    {pre post : List ε} (hacts : pre ++ post <+: acts) :
    value access init (pre ++ post) ≤ value access init pre := by
  rw [h _ hacts, h pre ((List.prefix_append pre post).trans hacts)]
  exact least_append_le pre post

end Least

/-! ### Stores in turn -/

variable [DecidableEq ι]

variable (access init)

/-- The event is a load by this one. -/
def isLoad (who : ι) (e : ε) : Bool :=
  match access e with
  | some (.load who' _) => decide (who' = who)
  | _ => false

/-- What happened since the party last loaded the register. -/
def sinceLoad (who : ι) (acts : List ε) : List ε :=
  acts.rtakeWhile fun e => !isLoad access who e

/-- No lower value was stored since the party's load. -/
def InTurn [LE α] (pre : List ε) (e : ε) : Prop :=
  match access e with
  | some (.store who v) => ∀ v' ∈ recorded access (sinceLoad access who pre), v ≤ v'
  | _ => True

/-- A load gives what the register holds, and a store is below what the party
has loaded last. -/
def Checked [LT α] (pre : List ε) (e : ε) : Prop :=
  match access e with
  | some (.load _ v) => v = value access init pre
  | some (.store who v) => ∃ front e' v', pre = front ++ e' :: sinceLoad access who pre
      ∧ access e' = some (.load who v') ∧ v < v'
  | none => True

variable {access init}

theorem sinceLoad_append {who : ι} {front rest : List ε} {e : ε} {v : α}
    (he : access e = some (.load who v)) (hrest : ∀ e ∈ rest, isLoad access who e = false) :
    sinceLoad access who (front ++ e :: rest) = rest := by
  induction rest using List.reverseRecOn with
  | nil => exact List.rtakeWhile_concat_neg _ _ _ (by simp [isLoad, he])
  | append_singleton rest e' ih =>
      rw [List.forall_mem_append, List.forall_mem_singleton] at hrest
      rw [sinceLoad, ← List.cons_append, ← List.append_assoc,
        List.rtakeWhile_concat_pos _ _ _ (by simp [hrest.2]), ← sinceLoad, ih hrest.1]

variable [LinearOrder α]

/-- A store in turn is no higher than any before it. -/
theorem le_least_of_inTurn {acts front : List ε} {e e' : ε} {who : ι} {v v' : α}
    (hacts : acts = front ++ e' :: sinceLoad access who acts)
    (he : access e = some (.store who v)) (he' : access e' = some (.load who v'))
    (hlt : v < v') (hload : v' = least access init front) (hturn : InTurn access acts e) :
    v ≤ least access init acts := by
  rw [InTurn, he] at hturn
  have hle : v ≤ least access init front := hload ▸ hlt.le
  refine le_least (hle.trans (least_le_init front)) fun w hw => ?_
  rw [hacts, recorded_append, recorded, recorded,
    List.filterMap_cons_none (stored_of_load he')] at hw
  rcases List.mem_append.mp hw with hw | hw
  · exact hle.trans (least_le hw)
  · exact hturn w hw

/-- Where every store is in turn the register holds the least value stored, at
every moment. -/
theorem value_eq_least {acts : List ε} (hchecked : Always (Checked access init) acts)
    (hturn : Always (InTurn access) acts) :
    ∀ pre, pre <+: acts → value access init pre = least access init pre := by
  induction acts using List.reverseRecOn with
  | nil =>
      intro pre hpre
      rw [List.prefix_nil.mp hpre]
      rfl
  | append_singleton acts e ih =>
      have ih := ih hchecked.front hturn.front
      intro pre hpre
      rcases List.prefix_concat_iff.mp hpre with rfl | hpre
      · have hcheck := hchecked acts e [] rfl
        rw [Checked] at hcheck
        rcases he : access e with - | ⟨who, v⟩ | ⟨who, v⟩
        · rw [value_concat_of_none (stored_of_none he), least_concat_of_none (stored_of_none he)]
          exact ih acts List.prefix_rfl
        · rw [value_concat_of_none (stored_of_load he), least_concat_of_none (stored_of_load he)]
          exact ih acts List.prefix_rfl
        · rw [he] at hcheck
          obtain ⟨front, e', v', hacts, he', hlt⟩ := hcheck
          -- the value loaded was the least of its time
          have hload : v' = least access init front := by
            have hfront := hchecked.front front e' _ hacts
            rw [Checked, he'] at hfront
            exact hfront.trans (ih front ⟨_, hacts.symm⟩)
          rw [value_concat_of_some (stored_of_store he), least_concat_of_some (stored_of_store he)
            (le_least_of_inTurn hacts he he' hlt hload (hturn acts e [] rfl))]
      · exact ih pre hpre

/-- And where it holds the least value at every moment, every store is in turn. -/
theorem inTurn_of_value_eq_least {acts : List ε}
    (h : ∀ pre, pre <+: acts → value access init pre = least access init pre) :
    Always (InTurn access) acts := by
  rintro pre e post rfl
  rw [InTurn]
  rcases he : access e with - | ⟨who, v⟩ | ⟨who, v⟩
  · trivial
  · trivial
  intro v' hv'
  have hafter := h (pre ++ [e]) ⟨post, by rw [List.append_assoc]; rfl⟩
  rw [value_concat_of_some (stored_of_store he)] at hafter
  rw [hafter]
  refine least_le ?_
  rw [recorded_append]
  refine List.mem_append_left _ ?_
  obtain ⟨front, hfront⟩ := List.rtakeWhile_suffix (fun e => !isLoad access who e) pre
  rw [← hfront, recorded_append]
  exact List.mem_append_right _ hv'

end Register
