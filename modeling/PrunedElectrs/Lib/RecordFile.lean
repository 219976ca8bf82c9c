/-
PrunedElectrs/Lib/RecordFile.lean

Flat files of records of one width, and replaying one into a state machine.

A file is the concatenation of its records, so the record at an index is found
by multiplying (`Uniform.slot`), and a file that ends in a part of a record
still tells how many whole ones it has (`Uniform.count_torn`), which is what any
cut leaves of a file (`Uniform.take_torn`).  `chunks` cuts
any file at a width, whether or not it was written at that width.

`replay` feeds records to a step function that may refuse one; a handler says
what a refusal means.  Records that were accepted when they were written are
accepted again (`replay_of_foldlM`), and a replay ends no lower than it began,
in any order that accepting a record respects (`le_of_replay`).
-/
import Mathlib.Algebra.BigOperators.Group.List.Lemmas

namespace RecordFile

variable {α : Type*} {w : ℕ} {rs : List (List α)}

/-! ### Records of one width -/

/-- All records have the width. -/
def Uniform (w : ℕ) (rs : List (List α)) : Prop := ∀ r ∈ rs, r.length = w

theorem Uniform.take (h : Uniform w rs) (n : ℕ) : Uniform w (rs.take n) := fun r hr =>
  h r (List.mem_of_mem_take hr)

theorem Uniform.append {rs' : List (List α)} (h : Uniform w rs) (h' : Uniform w rs') :
    Uniform w (rs ++ rs') := fun r hr => (List.mem_append.mp hr).elim (h r) (h' r)

theorem Uniform.length_flatten (h : Uniform w rs) : rs.flatten.length = rs.length * w := by
  rw [List.length_flatten, List.map_congr_left h, List.map_const', List.sum_replicate,
    Nat.nsmul_eq_mul]

/-- The records of a file end and start at multiples of the width. -/
theorem Uniform.take_mul (h : Uniform w rs) {n : ℕ} (hn : n ≤ rs.length) (tail : List α) :
    (rs.flatten ++ tail).take (n * w) = (rs.take n).flatten := by
  have hlen : (rs.take n).flatten.length = n * w := by
    rw [(h.take n).length_flatten, List.length_take_of_le hn]
  rw [← List.take_append_drop n rs, List.flatten_append, List.append_assoc, ← hlen,
    List.take_left, List.take_append_drop]

theorem Uniform.drop_mul (h : Uniform w rs) {n : ℕ} (hn : n ≤ rs.length) (tail : List α) :
    (rs.flatten ++ tail).drop (n * w) = (rs.drop n).flatten ++ tail := by
  have hlen : (rs.take n).flatten.length = n * w := by
    rw [(h.take n).length_flatten, List.length_take_of_le hn]
  rw [← List.take_append_drop n rs, List.flatten_append, List.append_assoc, ← hlen,
    List.drop_left, List.take_append_drop]

/-- The slot of the record at an index starts at that many widths. -/
theorem Uniform.slot (h : Uniform w rs) {i : ℕ} (hi : i < rs.length) (tail : List α) :
    ((rs.flatten ++ tail).drop (i * w)).take w = rs[i] := by
  rw [h.drop_mul hi.le, List.drop_eq_getElem_cons hi, List.flatten_cons, List.append_assoc,
    ← h rs[i] (List.getElem_mem hi), List.take_left]

/-- Another record of the width in place of one. -/
theorem Uniform.replace (h : Uniform w rs) (i : ℕ) {r : List α} (hr : r.length = w) :
    Uniform w (rs.take i ++ r :: rs.drop (i + 1)) :=
  (h.take i).append fun x hx => (List.mem_cons.mp hx).elim (fun hx => hx ▸ hr) fun hx =>
    h x (List.mem_of_mem_drop hx)

/-- A file of records that is cut anywhere is one of the records before, with
less than a record behind them. -/
theorem Uniform.take_torn (h : Uniform w rs) (hw : 0 < w) (k : ℕ) :
    ∃ n tail, n ≤ rs.length ∧ tail.length < w
      ∧ rs.flatten.take k = (rs.take n).flatten ++ tail := by
  have hlength := h.length_flatten
  rcases Nat.lt_or_ge k rs.flatten.length with hk | hk
  · have hn : k / w ≤ rs.length := (Nat.div_lt_iff_lt_mul hw).mpr (hlength ▸ hk) |>.le
    have hmul : k / w * w ≤ k := Nat.div_mul_le_self k w
    have hfront : rs.flatten.take (k / w * w) = (rs.take (k / w)).flatten := by
      have hfront := h.take_mul hn []
      rwa [List.append_nil] at hfront
    refine ⟨k / w, (rs.flatten.drop (k / w * w)).take (k - k / w * w), hn, ?_, ?_⟩
    · rw [List.length_take]
      have hlt : k < k / w * w + w := Nat.lt_div_mul_add hw
      omega
    · rw [← hfront, ← List.take_add, Nat.add_sub_cancel' hmul]
  · refine ⟨rs.length, [], le_rfl, hw, ?_⟩
    rw [List.take_of_length_le hk, List.take_length, List.append_nil]

/-- A last record that is not whole is not counted. -/
theorem Uniform.count_torn (h : Uniform w rs) {tail : List α} (ht : tail.length < w) :
    (rs.flatten ++ tail).length / w = rs.length := by
  rw [List.length_append, h.length_flatten, Nat.add_comm, Nat.add_mul_div_right _ _ (by omega),
    Nat.div_eq_of_lt ht, Nat.zero_add]

/-! ### Reading at a width -/

/-- The first `n` records of a file, read at a width. -/
def chunks (w : ℕ) : ℕ → List α → List (List α)
  | 0, _ => []
  | n + 1, file => file.take w :: chunks w n (file.drop w)

/-- At the width it was written at, a file gives its records back. -/
theorem chunks_flatten (h : Uniform w rs) (tail : List α) :
    chunks w rs.length (rs.flatten ++ tail) = rs := by
  induction rs with
  | nil => rfl
  | cons r rs ih =>
      have hr : r.length = w := h r List.mem_cons_self
      have hrs : Uniform w rs := fun x hx => h x (List.mem_cons_of_mem r hx)
      rw [List.length_cons, chunks, List.flatten_cons, List.append_assoc, ← hr, List.take_left,
        List.drop_left, hr, ih hrs]

/-- Nothing behind the records is read. -/
theorem chunks_take (n : ℕ) (file : List α) : chunks w n (file.take (n * w)) = chunks w n file := by
  induction n generalizing file with
  | zero => rfl
  | succ n ih =>
      rw [chunks, chunks, List.take_take, Nat.succ_mul, Nat.min_eq_left (Nat.le_add_left _ _),
        Nat.add_comm, List.drop_take, Nat.add_sub_cancel_left, ih]

/-- A record read lies whole in the file. -/
theorem uniform_chunks {n : ℕ} {file : List α} (h : n * w ≤ file.length) :
    Uniform w (chunks w n file) := by
  induction n generalizing file with
  | zero => exact fun r hr => absurd hr List.not_mem_nil
  | succ n ih =>
      rw [Nat.succ_mul] at h
      intro r hr
      rcases List.mem_cons.mp hr with rfl | hr
      · exact List.length_take_of_le (by omega)
      · exact ih (by rw [List.length_drop]; omega) r hr

/-- A file of whole records is its records, put together. -/
theorem flatten_chunks {n : ℕ} {file : List α} (h : n * w = file.length) :
    (chunks w n file).flatten = file := by
  induction n generalizing file with
  | zero =>
      rw [Nat.zero_mul] at h
      exact (List.eq_nil_of_length_eq_zero h.symm).symm
  | succ n ih =>
      rw [Nat.succ_mul] at h
      rw [chunks, List.flatten_cons, ih (by rw [List.length_drop]; omega), List.take_append_drop]

/-! ### Replaying -/

/-- What a refused record means for the replay. -/
inductive Handling
  /-- Keep what was accepted before it. -/
  | finish
  | skip
  | fail
deriving DecidableEq

variable {σ ρ ε : Type*} {step : σ → ρ → Except ε σ} {handling : ε → Handling}

/-- Feed the records to the state machine, one after the other. -/
def replay (step : σ → ρ → Except ε σ) (handling : ε → Handling) : List ρ → σ → Except ε σ
  | [], s => .ok s
  | r :: rs, s =>
      match step s r with
      | .ok s' => replay step handling rs s'
      | .error e =>
          match handling e with
          | .finish => .ok s
          | .skip => replay step handling rs s
          | .fail => .error e

theorem replay_accepted {s s' : σ} {r : ρ} {rs : List ρ} (h : step s r = .ok s') :
    replay step handling (r :: rs) s = replay step handling rs s' := by
  rw [replay, h]

theorem replay_refused {s : σ} {r : ρ} {rs : List ρ} {e : ε} (h : step s r = .error e)
    (he : handling e = .finish) : replay step handling (r :: rs) s = .ok s := by
  rw [replay, h]
  simp only [he]

/-- Records that are accepted one after the other are replayed. -/
theorem replay_append {rs : List ρ} {s s' : σ} (h : rs.foldlM step s = .ok s') (rest : List ρ) :
    replay step handling (rs ++ rest) s = replay step handling rest s' := by
  induction rs generalizing s with
  | nil =>
      obtain rfl : s = s' := Except.ok.inj h
      rfl
  | cons r rs ih =>
      rw [List.foldlM_cons] at h
      rcases hstep : step s r with e | s₁
      · rw [hstep] at h
        cases h
      · rw [hstep] at h
        rw [List.cons_append, replay_accepted hstep]
        exact ih h

theorem replay_of_foldlM {rs : List ρ} {s s' : σ} (h : rs.foldlM step s = .ok s') :
    replay step handling rs s = .ok s' := by
  have hall : replay step handling (rs ++ []) s = replay step handling [] s' := replay_append h []
  rwa [List.append_nil] at hall

/-- What no accepted record decreases, no replay does. -/
theorem le_of_replay {β : Type*} [Preorder β] {μ : σ → β}
    (hμ : ∀ {s s' r}, step s r = .ok s' → μ s ≤ μ s') {rs : List ρ} {s s' : σ}
    (h : replay step handling rs s = .ok s') : μ s ≤ μ s' := by
  induction rs generalizing s with
  | nil => exact (congrArg μ (Except.ok.inj h)).le
  | cons r rs ih =>
      rw [replay] at h
      rcases hstep : step s r with e | s₁
      · rw [hstep] at h
        rcases he : handling e with - | - | -
        · simp only [he] at h
          exact (congrArg μ (Except.ok.inj h)).le
        · simp only [he] at h
          exact ih h
        · simp only [he] at h
          cases h
      · rw [hstep] at h
        exact (hμ hstep).trans (ih h)

/-- Where no refusal fails the replay, it ends. -/
theorem exists_replay {rs : List ρ} (h : ∀ s, ∀ r ∈ rs, ∀ e, step s r = .error e →
    handling e ≠ .fail) (s : σ) : ∃ s', replay step handling rs s = .ok s' := by
  induction rs generalizing s with
  | nil => exact ⟨s, rfl⟩
  | cons r rs ih =>
      have hrest : ∀ s, ∀ x ∈ rs, ∀ e, step s x = .error e → handling e ≠ .fail :=
        fun s x hx => h s x (List.mem_cons_of_mem r hx)
      rw [replay]
      rcases hstep : step s r with e | s₁
      · rcases he : handling e with - | - | -
        · exact ⟨s, by simp only [he]⟩
        · simp only [he]
          exact ih hrest s
        · exact absurd he (h s r List.mem_cons_self e hstep)
      · exact ih hrest s₁

end RecordFile
