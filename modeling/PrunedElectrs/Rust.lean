/-
PrunedElectrs/Rust.lean

What a call of the server's code can come to, besides a value.

`Rust α` is the outcome of a function returning `anyhow::Result<α>`.  Besides
`Ok` there are three ways out: an error value (`Fault.err`, the chain of
contexts from the outermost inwards), a panic, and not returning at all.  The
last two are kept apart from errors so that "returns `Err`" and "does not
panic" are different statements.  `slice` and `arrayAt` are indexing as Rust
does it: out of bounds is a panic, not a default value.
-/
import PrunedElectrs.Lib.Bytes
import Mathlib.Tactic.Common

namespace PrunedElectrs

open Wire

/-- Ways a call ends without a value. -/
inductive Fault where
  /-- `Err(e)`: the messages of the chain, outermost context first. -/
  | err (chain : List String)
  | panic (msg : String)
  /-- The call does not return. -/
  | diverge
deriving DecidableEq, Repr

/-- The outcome of a call that returns `anyhow::Result<α>`. -/
abbrev Rust (α : Type) := Except Fault α

/-- `bail!(msg)`. -/
def bail {α : Type} (msg : String) : Rust α := .error (.err [msg])

/-- `ensure!(cond, msg)`. -/
def ensure (cond : Prop) [Decidable cond] (msg : String) : Rust Unit :=
  if cond then .ok () else bail msg

/-- `.expect(msg)` and `.unwrap()`: an error value becomes a panic. -/
def expect {α : Type} (msg : String) : Rust α → Rust α
  | .error (.err _) => .error (.panic msg)
  | r => r

/-- `err.context(msg)`: the message goes in front of the chain. -/
def context {α : Type} (msg : String) : Rust α → Rust α
  | .error (.err chain) => .error (.err (msg :: chain))
  | r => r

/-- The whole chain on one line, `format!("{:#}", err)`. -/
def chainText (chain : List String) : String := ": ".intercalate chain

/-! ### Reading outcomes -/

theorem ok_bind {α β : Type} (a : α) (f : α → Rust β) : (Except.ok a >>= f) = f a := rfl

theorem error_bind {α β : Type} (e : Fault) (f : α → Rust β) :
    ((Except.error e : Rust α) >>= f) = .error e := rfl

/-- A sequence succeeds when both of its parts do. -/
theorem bind_eq_ok {α β : Type} {r : Rust α} {f : α → Rust β} {b : β} :
    (r >>= f) = .ok b ↔ ∃ a, r = .ok a ∧ f a = .ok b := by
  rcases r with e | a
  · simp [error_bind]
  · simp [ok_bind]

theorem context_eq_ok {α : Type} {msg : String} {r : Rust α} {a : α} :
    context msg r = .ok a ↔ r = .ok a := by
  rcases r with e | b
  · cases e <;> simp [context]
  · rfl

theorem ensure_of {cond : Prop} [Decidable cond] {msg : String} (h : cond) :
    ensure cond msg = .ok () := if_pos h

theorem ensure_of_not {cond : Prop} [Decidable cond] {msg : String} (h : ¬ cond) :
    ensure cond msg = .error (.err [msg]) := if_neg h

/-- The call returns: with a value or with an error value, neither panicking
nor running on forever. -/
def Returns {α : Type} (r : Rust α) : Prop :=
  (∃ a, r = .ok a) ∨ ∃ chain, r = .error (.err chain)

theorem returns_error_iff {α : Type} {e : Fault} :
    Returns (.error e : Rust α) ↔ ∃ chain, e = .err chain := by
  constructor
  · rintro (⟨a, ha⟩ | ⟨chain, he⟩)
    · cases ha
    · exact ⟨chain, Except.error.inj he⟩
  · rintro ⟨chain, rfl⟩
    exact .inr ⟨chain, rfl⟩

theorem returns_ok {α : Type} (a : α) : Returns (.ok a : Rust α) := .inl ⟨a, rfl⟩

theorem returns_bail {α : Type} (msg : String) : Returns (bail msg : Rust α) :=
  .inr ⟨[msg], rfl⟩

theorem returns_bind {α β : Type} {r : Rust α} {f : α → Rust β} (hr : Returns r)
    (hf : ∀ a, r = .ok a → Returns (f a)) : Returns (r >>= f) := by
  rcases hr with ⟨a, rfl⟩ | ⟨chain, rfl⟩
  · exact hf a rfl
  · exact .inr ⟨chain, rfl⟩

theorem returns_context {α : Type} {msg : String} {r : Rust α} (h : Returns r) :
    Returns (context msg r) := by
  rcases h with ⟨a, rfl⟩ | ⟨chain, rfl⟩
  · exact returns_ok a
  · exact .inr ⟨msg :: chain, rfl⟩

theorem returns_mapM {α β : Type} {f : α → Rust β} {l : List α} (h : ∀ a ∈ l, Returns (f a)) :
    Returns (l.mapM f) := by
  induction l with
  | nil => exact returns_ok []
  | cons a l ih =>
      rw [List.forall_mem_cons] at h
      rw [List.mapM_cons]
      exact returns_bind h.1 fun _ _ => returns_bind (ih h.2) fun _ _ => returns_ok _

/-! ### Indexing -/

/-- `&b[i..j]`. -/
def slice {α : Type} (b : List α) (i j : ℕ) : Rust (List α) :=
  if i ≤ j ∧ j ≤ b.length then .ok (sub b i (j - i))
  else .error (.panic "slice index out of range")

/-- `b[i]`. -/
def elemAt {α : Type} (b : List α) (i : ℕ) : Rust α :=
  if h : i < b.length then .ok (b[i]) else .error (.panic "index out of bounds")

/-- `b[i..j].try_into().unwrap()` at type `[u8; n]`. -/
def arrayAt (b : Bytes) (i n : ℕ) : Rust (Arr n) :=
  if h : i + n ≤ b.length then .ok (arr b i n h)
  else .error (.panic "slice index out of range")

/-- `u32::from_le_bytes(b[i..i + 4].try_into().unwrap())`. -/
def u32At (b : Bytes) (i : ℕ) : Rust UInt32 := do
  let a ← arrayAt b i 4
  return u32of a.toList

/-- `u16::from_le_bytes(b[i..i + 2].try_into().unwrap())`. -/
def u16At (b : Bytes) (i : ℕ) : Rust UInt16 := do
  let a ← arrayAt b i 2
  return u16of a.toList

theorem slice_eq {α : Type} {b : List α} {i j : ℕ} (hij : i ≤ j) (hj : j ≤ b.length) :
    slice b i j = .ok (sub b i (j - i)) := if_pos ⟨hij, hj⟩

theorem arrayAt_eq {b : Bytes} {i n : ℕ} (h : i + n ≤ b.length) :
    arrayAt b i n = .ok (arr b i n h) := dif_pos h

theorem u32At_eq {b : Bytes} {i : ℕ} (h : i + 4 ≤ b.length) :
    u32At b i = .ok (u32of (sub b i 4)) := by
  rw [u32At, arrayAt_eq h]
  rfl

theorem u16At_eq {b : Bytes} {i : ℕ} (h : i + 2 ≤ b.length) :
    u16At b i = .ok (u16of (sub b i 2)) := by
  rw [u16At, arrayAt_eq h]
  rfl

theorem elemAt_eq {α : Type} {b : List α} {i : ℕ} (h : i < b.length) : elemAt b i = .ok b[i] :=
  dif_pos h

theorem sub_one {b : Bytes} {i : ℕ} (h : i < b.length) : sub b i 1 = [b[i]] := by
  rw [sub, List.drop_eq_getElem_cons h, List.take_succ_cons, List.take_zero]

end PrunedElectrs
