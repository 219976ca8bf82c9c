/-
PrunedElectrs/Lib/Hex.lean

Hexadecimal text: two digits a byte, the high digit first.

`toHex` writes lower case and `ofHex` reads either case, so decoding what was
encoded always succeeds (`ofHex_toHex`).  A slice of the text between even
positions is the text of a slice (`ofHex_sub`).  A number padded to full bytes is
the text of its bytes (`leftpad_toDigits`, `hexFixed_eq_toHex`).
-/
import PrunedElectrs.Lib.Bytes
import Mathlib.Tactic.IntervalCases

namespace Wire

/-! ### One digit -/

/-- The lower-case digit of a value below sixteen. -/
def hexDigit (n : ℕ) : Char :=
  if n < 10 then Char.ofNat (48 + n) else Char.ofNat (87 + n)

/-- The value of a hexadecimal digit of either case. -/
def hexVal (c : Char) : Option ℕ :=
  if '0' ≤ c ∧ c ≤ '9' then some (c.toNat - 48)
  else if 'a' ≤ c ∧ c ≤ 'f' then some (c.toNat - 87)
  else if 'A' ≤ c ∧ c ≤ 'F' then some (c.toNat - 55)
  else none

theorem hexVal_hexDigit {n : ℕ} (h : n < 16) : hexVal (hexDigit n) = some n := by
  interval_cases n <;> rfl

theorem hexVal_lt {c : Char} {v : ℕ} (h : hexVal c = some v) : v < 16 := by
  have hle : ∀ {a b : Char}, a ≤ b → a.toNat ≤ b.toNat := fun h => h
  rw [hexVal] at h
  split_ifs at h with h1 h2 h3
  · have := hle h1.2
    cases h
    simp only [Char.reduceToNat] at this
    omega
  · have := hle h2.2
    cases h
    simp only [Char.reduceToNat] at this
    omega
  · have := hle h3.2
    cases h
    simp only [Char.reduceToNat] at this
    omega

/-! ### Byte strings -/

/-- Lower-case hexadecimal text of a byte string. -/
def toHex : Bytes → List Char
  | [] => []
  | x :: xs => hexDigit (x.toNat / 16) :: hexDigit (x.toNat % 16) :: toHex xs

/-- The bytes written by hexadecimal text: `none` for an odd number of
characters or for a character that is no digit. -/
def ofHex : List Char → Option Bytes
  | [] => some []
  | [_] => none
  | c :: d :: rest =>
      match hexVal c, hexVal d, ofHex rest with
      | some hi, some lo, some b => some (UInt8.ofNat (16 * hi + lo) :: b)
      | _, _, _ => none

theorem toHex_append (b c : Bytes) : toHex (b ++ c) = toHex b ++ toHex c := by
  induction b with
  | nil => rfl
  | cons x xs ih => simp only [List.cons_append, toHex, ih]

theorem toHex_flatMap {β : Type*} (f : β → Bytes) (l : List β) :
    toHex (l.flatMap f) = l.flatMap fun x => toHex (f x) := by
  induction l with
  | nil => rfl
  | cons x xs ih => rw [List.flatMap_cons, toHex_append, ih, List.flatMap_cons]

/-- **Hexadecimal round trip.** -/
@[simp] theorem ofHex_toHex (b : Bytes) : ofHex (toHex b) = some b := by
  induction b with
  | nil => rfl
  | cons x xs ih =>
      have hx : x.toNat < 256 := x.toNat_lt
      have hi : hexVal (hexDigit (x.toNat / 16)) = some (x.toNat / 16) :=
        hexVal_hexDigit (by omega)
      have lo : hexVal (hexDigit (x.toNat % 16)) = some (x.toNat % 16) :=
        hexVal_hexDigit (by omega)
      have hsum : 16 * (x.toNat / 16) + x.toNat % 16 = x.toNat := by omega
      simp only [toHex, ofHex, hi, lo, ih, hsum, UInt8.ofNat_toNat]

/-! ### Reading digits of either case -/

/-- Every character is a hexadecimal digit. -/
def IsHex (text : List Char) : Prop := ∀ c ∈ text, (hexVal c).isSome

variable {text rest : List Char} {b : Bytes}

theorem length_of_ofHex (h : ofHex text = some b) : text.length = 2 * b.length := by
  fun_induction ofHex text generalizing b with
  | case1 =>
      cases h
      rfl
  | case2 => cases h
  | case3 c d rest hi lo b' hb' hlo hhi ih =>
      cases h
      rw [List.length_cons, List.length_cons, List.length_cons, ih hb']
      omega
  | case4 => cases h

theorem isHex_toHex (b : Bytes) : IsHex (toHex b) := by
  have hdigit : ∀ n, n < 16 → (hexVal (hexDigit n)).isSome := fun n hn => by
    rw [hexVal_hexDigit hn]
    rfl
  induction b with
  | nil => exact List.forall_mem_nil _
  | cons x xs ih =>
      have hx : x.toNat < 256 := x.toNat_lt
      exact List.forall_mem_cons.mpr ⟨hdigit _ (by omega),
        List.forall_mem_cons.mpr ⟨hdigit _ (by omega), ih⟩⟩

/-- Two digits at the front are one byte at the front. -/
theorem ofHex_cons_cons {c d : Char} {hi lo : ℕ} (hc : hexVal c = some hi)
    (hd : hexVal d = some lo) :
    ofHex (c :: d :: rest) = (ofHex rest).map (UInt8.ofNat (16 * hi + lo) :: ·) := by
  rw [ofHex, hc, hd]
  rcases ofHex rest with - | b <;> rfl

/-- Text of two digits a byte decodes. -/
theorem exists_ofHex (hd : IsHex text) {n : ℕ} (hn : text.length = 2 * n) :
    ∃ b, ofHex text = some b := by
  induction n generalizing text with
  | zero =>
      obtain rfl := List.length_eq_zero_iff.mp hn
      exact ⟨[], rfl⟩
  | succ n ih =>
      obtain ⟨c, d, rest, rfl⟩ : ∃ c d rest, text = c :: d :: rest := by
        rcases text with - | ⟨c, - | ⟨d, rest⟩⟩
        · cases hn
        · simp only [List.length_cons, List.length_nil] at hn
          omega
        · exact ⟨c, d, rest, rfl⟩
      have hc := hd c List.mem_cons_self
      have hdd := hd d (List.mem_cons_of_mem _ List.mem_cons_self)
      obtain ⟨hi, hhi⟩ := Option.isSome_iff_exists.mp hc
      obtain ⟨lo, hlo⟩ := Option.isSome_iff_exists.mp hdd
      have hrest : ∀ x ∈ rest, (hexVal x).isSome :=
        fun x hx => hd x (List.mem_cons_of_mem _ (List.mem_cons_of_mem _ hx))
      obtain ⟨b, hb⟩ := ih hrest (by simp only [List.length_cons] at hn; omega)
      exact ⟨_, by rw [ofHex_cons_cons hhi hlo, hb, Option.map_some]⟩

theorem ofHex_append {c : Bytes} (h : ofHex text = some b) (h' : ofHex rest = some c) :
    ofHex (text ++ rest) = some (b ++ c) := by
  fun_induction ofHex text generalizing b with
  | case1 =>
      cases h
      exact h'
  | case2 => cases h
  | case3 x d t hi lo b' hb' hlo hhi ih =>
      cases h
      rw [List.cons_append, List.cons_append, ofHex_cons_cons hhi hlo, ih hb', Option.map_some,
        List.cons_append]
  | case4 => cases h

theorem ofHex_drop (h : ofHex text = some b) (i : ℕ) :
    ofHex (text.drop (2 * i)) = some (b.drop i) := by
  induction i generalizing text b with
  | zero => exact h
  | succ i ih =>
      rcases text with - | ⟨c, - | ⟨d, rest⟩⟩
      · cases h
        rfl
      · cases h
      · rw [ofHex] at h
        split at h
        case h_1 hi lo b' hhi hlo hb' =>
          cases h
          exact ih hb'
        case h_2 => cases h

theorem ofHex_take (h : ofHex text = some b) (n : ℕ) :
    ofHex (text.take (2 * n)) = some (b.take n) := by
  induction n generalizing text b with
  | zero => rfl
  | succ n ih =>
      rcases text with - | ⟨c, - | ⟨d, rest⟩⟩
      · cases h
        rfl
      · cases h
      · rw [ofHex] at h
        split at h
        case h_1 hi lo b' hhi hlo hb' =>
          cases h
          rw [Nat.mul_succ, List.take_succ_cons, List.take_succ_cons, ofHex_cons_cons hhi hlo,
            ih hb', Option.map_some, List.take_succ_cons]
        case h_2 => cases h

theorem ofHex_sub (h : ofHex text = some b) (i n : ℕ) :
    ofHex (sub text (2 * i) (2 * n)) = some (sub b i n) :=
  ofHex_take (ofHex_drop h i) n

/-! ### Numbers -/

/-- The digits of a number, `w` of them, the last one last. -/
def hexFixed : ℕ → ℕ → List Char
  | 0, _ => []
  | w + 1, n => hexFixed w (n / 16) ++ [hexDigit (n % 16)]

theorem digitChar_eq_hexDigit {n : ℕ} (h : n < 16) : Nat.digitChar n = hexDigit n := by
  interval_cases n <;> rfl

theorem hexFixed_zero (w : ℕ) : hexFixed w 0 = List.replicate w '0' := by
  induction w with
  | zero => rfl
  | succ w ih =>
      rw [hexFixed, ih, List.replicate_succ']
      rfl

/-- A number in hexadecimal, padded with zeros. -/
theorem leftpad_toDigits {w n : ℕ} (hw : 0 < w) (h : n < 16 ^ w) :
    (Nat.toDigits 16 n).leftpad w '0' = hexFixed w n := by
  induction w generalizing n with
  | zero => omega
  | succ w ih =>
      by_cases hn : n < 16
      · have hdiv : n / 16 = 0 := Nat.div_eq_of_lt hn
        rw [Nat.toDigits_of_lt_base hn, hexFixed, hdiv, hexFixed_zero, Nat.mod_eq_of_lt hn,
          digitChar_eq_hexDigit hn]
        rfl
      · have hw' : 0 < w := by
          rcases w with - | w
          · omega
          · exact Nat.succ_pos w
        have hdiv : n / 16 < 16 ^ w := by
          rw [pow_succ] at h
          omega
        have hdigit := digitChar_eq_hexDigit (Nat.mod_lt n (by decide : 16 > 0))
        rw [Nat.toDigits_of_base_le (by decide) (by omega), hexFixed, ← ih hw' hdiv, hdigit,
          List.leftpad, List.leftpad, List.length_append, List.length_singleton,
          Nat.add_sub_add_right, List.append_assoc]

/-- The text of a number is the text of its bytes, most significant first. -/
theorem hexFixed_eq_toHex (k n : ℕ) : hexFixed (2 * k) n = toHex (leBytes k n).reverse := by
  induction k generalizing n with
  | zero => rfl
  | succ k ih =>
      have hlow : (UInt8.ofNat n).toNat = n % 256 := UInt8.toNat_ofNat'
      have hhi : n % 256 / 16 = n / 16 % 16 := by omega
      have hlo : n % 256 % 16 = n % 16 := by omega
      have hdiv : n / 16 / 16 = n / 256 := by omega
      rw [Nat.mul_succ, hexFixed, hexFixed, hdiv, ih, leBytes, List.reverse_cons, toHex_append,
        toHex, toHex, hlow, hhi, hlo, List.append_assoc]
      rfl

end Wire
