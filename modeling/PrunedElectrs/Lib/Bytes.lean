/-
PrunedElectrs/Lib/Bytes.lean

Byte strings, fixed-width arrays and little-endian words.

A wire format with fixed offsets is read by slices (`sub b i n`, the `n` bytes
of `b` from offset `i`) and written by concatenation.  Two families of lemmas
carry every round trip through such a format:

* `sub_append_left` / `sub_append_right` find a slice inside a concatenation,
  so that reading what was written gives the fields back;
* `sub_append_sub` joins neighbouring slices, so that writing what was read
  gives the bytes back.

A whole record is a list of neighbouring fields: `cuts` reads them by their
widths, `List.flatten` writes them, and `flatten_cuts` and `cuts_flatten` are
the two round trips.

Words are little-endian naturals (`leBytes`, `leNat`), exact inverses of one
another below `256 ^ n`.
-/
import Mathlib.Data.Vector.Basic
import Mathlib.Data.Nat.Bitwise
import Mathlib.Tactic.Ring

namespace Wire

/-- A byte string. -/
abbrev Bytes := List UInt8

/-- A byte array whose length is part of its type. -/
abbrev Arr (n : ℕ) := List.Vector UInt8 n

/-! ### Slices -/

variable {α : Type*}

/-- The `n` elements of `b` from position `i` (fewer where `b` ends first). -/
def sub (b : List α) (i n : ℕ) : List α := (b.drop i).take n

theorem length_sub {b : List α} {i n : ℕ} (h : i + n ≤ b.length) :
    (sub b i n).length = n := by
  simp only [sub, List.length_take, List.length_drop]
  omega

theorem sub_append_left {b c : List α} {i n : ℕ} (h : i + n ≤ b.length) :
    sub (b ++ c) i n = sub b i n := by
  rw [sub, sub, List.drop_append_of_le_length (by omega),
    List.take_append_of_le_length (by rw [List.length_drop]; omega)]

theorem sub_append_right {b c : List α} {i n : ℕ} (h : b.length ≤ i) :
    sub (b ++ c) i n = sub c (i - b.length) n := by
  rw [sub, sub, List.drop_append, List.drop_eq_nil_of_le h, List.nil_append]

theorem sub_all {b : List α} {n : ℕ} (h : b.length = n) : sub b 0 n = b := by
  rw [sub, List.drop_zero, ← h, List.take_length]

/-- A slice of full length lies inside. -/
theorem add_le_of_sub_eq {b x : List α} {i n : ℕ} (e : sub b i n = x) (hx : x.length = n)
    (hn : 0 < n) : i + n ≤ b.length := by
  have hlen := congrArg List.length e
  rw [sub, List.length_take, List.length_drop, hx] at hlen
  omega

/-- What stands at the front of the rest of a list. -/
theorem sub_of_drop {b x rest : List α} {i n : ℕ} (e : b.drop i = x ++ rest)
    (hx : x.length = n) : sub b i n = x ∧ b.drop (i + n) = rest := by
  refine ⟨?_, ?_⟩
  · rw [sub, e, ← hx, List.take_left]
  · rw [← List.drop_drop, e, ← hx, List.drop_left]

theorem sub_append_sub (b : List α) (i n m : ℕ) :
    sub b i n ++ sub b (i + n) m = sub b i (n + m) := by
  rw [sub, sub, sub, List.take_add, List.drop_drop]

theorem sub_of_sub {b : List α} {i n j m : ℕ} (h : j + m ≤ n) :
    sub (sub b i n) j m = sub b (i + j) m := by
  rw [sub, sub, sub, List.drop_take, List.take_take, List.drop_drop,
    Nat.min_eq_left (by omega)]

/-- A slice is what looking up its positions one after the other finds. -/
theorem filterMap_getElem?_range' (b : List α) (i n : ℕ) :
    (List.range' i n).filterMap (fun j => b[j]?) = sub b i n := by
  induction n generalizing i with
  | zero => rfl
  | succ n ih =>
      rw [List.range'_succ, List.filterMap_cons, ih]
      by_cases hi : i < b.length
      · rw [List.getElem?_eq_getElem hi, sub, sub, List.drop_eq_getElem_cons hi,
          List.take_succ_cons]
      · rw [List.getElem?_eq_none (by omega), sub, sub, List.drop_eq_nil_of_le (by omega),
          List.drop_eq_nil_of_le (by omega), List.take_nil, List.take_nil]

/-! ### Records: neighbouring fields of given widths -/

/-- Neighbouring fields of widths `ns`, the first one at position `i`. -/
def cuts (b : List α) : ℕ → List ℕ → List (List α)
  | _, [] => []
  | i, n :: ns => sub b i n :: cuts b (i + n) ns

/-- Writing what was read: the fields make up the slice they cover. -/
theorem flatten_cuts (b : List α) (i : ℕ) (ns : List ℕ) :
    (cuts b i ns).flatten = sub b i ns.sum := by
  induction ns generalizing i with
  | nil => simp [cuts, sub]
  | cons n ns ih => rw [cuts, List.flatten_cons, ih, sub_append_sub, List.sum_cons]

/-- Reading what was written, from any position in a longer string. -/
theorem cuts_append (p : List α) (l : List (List α)) (r : List α) :
    cuts (p ++ (l.flatten ++ r)) p.length (l.map List.length) = l := by
  induction l generalizing p with
  | nil => rfl
  | cons f l ih =>
      have hfirst : sub (p ++ ((f :: l).flatten ++ r)) p.length f.length = f := by
        rw [sub_append_right (Nat.le_refl _), Nat.sub_self, List.flatten_cons,
          List.append_assoc, sub_append_left (by omega), sub_all rfl]
      have hrest := ih (p ++ f)
      rw [List.length_append, List.append_assoc] at hrest
      rw [List.map_cons, cuts, hfirst, List.flatten_cons, List.append_assoc, hrest]

/-- Cutting a slice up is cutting up the string it was taken from. -/
theorem cuts_sub {b : List α} {i n j : ℕ} {ns : List ℕ} (h : j + ns.sum ≤ n) :
    cuts (sub b i n) j ns = cuts b (i + j) ns := by
  induction ns generalizing j with
  | nil => rfl
  | cons m ns ih =>
      rw [List.sum_cons] at h
      rw [cuts, cuts, sub_of_sub (by omega), ih (by omega), Nat.add_assoc]

/-- Reading what was written. -/
theorem cuts_flatten (l : List (List α)) :
    cuts l.flatten 0 (l.map List.length) = l := by
  have h := cuts_append [] l []
  rwa [List.append_nil, List.nil_append, List.length_nil] at h

/-- The same, where a slice holds the fields. -/
theorem cuts_of_sub {b : List α} {i n : ℕ} {l : List (List α)} {ns : List ℕ}
    (hl : l.map List.length = ns) (hn : ns.sum = n) (e : sub b i n = l.flatten) :
    cuts b i ns = l := by
  have hsub : cuts (sub b i n) 0 ns = cuts b (i + 0) ns := cuts_sub (by omega)
  rw [← Nat.add_zero i, ← hsub, e, ← hl, cuts_flatten]

/-- Records of the same field widths are told apart by their bytes. -/
theorem flatten_inj_of_widths {l l' : List (List α)}
    (hw : l.map List.length = l'.map List.length) (e : l.flatten = l'.flatten) : l = l' := by
  rw [← cuts_flatten l, e, hw, cuts_flatten]

/-! ### Arrays cut out of a byte string -/

/-- The slice `sub b i n` as an array, where `b` reaches that far. -/
def arr (b : Bytes) (i n : ℕ) (h : i + n ≤ b.length) : Arr n :=
  ⟨sub b i n, length_sub h⟩

@[simp] theorem arr_toList (b : Bytes) (i n : ℕ) (h : i + n ≤ b.length) :
    (arr b i n h).toList = sub b i n := rfl

theorem arr_eq {b : Bytes} {i n : ℕ} {h : i + n ≤ b.length} {a : Arr n}
    (e : sub b i n = a.toList) : arr b i n h = a :=
  List.Vector.eq _ _ e

@[simp] theorem reverse_toList {n : ℕ} (a : Arr n) :
    a.reverse.toList = a.toList.reverse := by
  rcases a with ⟨l, h⟩
  simp [List.Vector.reverse, List.Vector.toList]

@[simp] theorem reverse_reverse {n : ℕ} (a : Arr n) : a.reverse.reverse = a :=
  List.Vector.eq _ _ (by simp)

/-! ### Masking bytes in place -/

/-- Set the first `k` bytes to zero, all of them where there are fewer. -/
def zeroTake (b : Bytes) (k : ℕ) : Bytes :=
  List.replicate (min k b.length) 0 ++ b.drop k

@[simp] theorem length_zeroTake (b : Bytes) (k : ℕ) : (zeroTake b k).length = b.length := by
  rw [zeroTake, List.length_append, List.length_replicate, List.length_drop]
  omega

/-- `zeroTake` on an array. -/
def Arr.zeroTake {n : ℕ} (a : Arr n) (k : ℕ) : Arr n :=
  ⟨Wire.zeroTake a.toList k, by rw [length_zeroTake, a.toList_length]⟩

/-- Replace the element at an index that is in bounds. -/
def Arr.modify {n : ℕ} (a : Arr n) (i : Fin n) (f : UInt8 → UInt8) : Arr n :=
  a.set i (f (a.get i))

/-- Bytewise exclusive or. -/
def Arr.xor {n : ℕ} (a b : Arr n) : Arr n := List.Vector.map₂ (· ^^^ ·) a b

@[simp] theorem toList_zeroTake {n : ℕ} (a : Arr n) (k : ℕ) :
    (a.zeroTake k).toList = Wire.zeroTake a.toList k := rfl

theorem toList_modify {n : ℕ} (a : Arr n) (i : Fin n) (f : UInt8 → UInt8) :
    (a.modify i f).toList
      = a.toList.set i (f (a.toList.get ⟨i, by rw [a.toList_length]; exact i.isLt⟩)) := by
  rcases a with ⟨l, hl⟩
  rfl

theorem toList_xor {n : ℕ} (a b : Arr n) :
    (a.xor b).toList = List.zipWith (· ^^^ ·) a.toList b.toList := by
  rcases a with ⟨la, ha⟩
  rcases b with ⟨lb, hb⟩
  rfl

/-- Exclusive or with a fixed array loses nothing. -/
theorem Arr.xor_right_cancel {n : ℕ} {a b m : Arr n} (h : a.xor m = b.xor m) : a = b := by
  have hself : ∀ c : Arr n, (c.xor m).xor m = c := by
    intro c
    ext i
    simp [Arr.xor]
  rw [← hself a, h, hself b]

theorem reverse_inj {n : ℕ} {a b : Arr n} (h : a.reverse = b.reverse) : a = b := by
  rw [← reverse_reverse a, h, reverse_reverse]

/-! ### Indexing that can fail -/

section Indexing

variable {ε : Type*}

/-- `b[i]`, failing with `e` out of bounds. -/
def getAt (e : ε) (b : Bytes) (i : ℕ) : Except ε UInt8 :=
  if h : i < b.length then .ok b[i] else .error e

/-- `b[i] = x`, failing with `e` out of bounds. -/
def setAt (e : ε) (b : Bytes) (i : ℕ) (x : UInt8) : Except ε Bytes :=
  if i < b.length then .ok (b.set i x) else .error e

/-- `for i in 0..k: b[i] = 0`. -/
def zeroFirst (e : ε) (b : Bytes) : ℕ → Except ε Bytes
  | 0 => .ok b
  | k + 1 => do setAt e (← zeroFirst e b k) k 0

theorem getAt_eq (e : ε) {b : Bytes} {i : ℕ} (h : i < b.length) : getAt e b i = .ok b[i] :=
  dif_pos h

theorem getAt_of_sub (e : ε) {b : Bytes} {i : ℕ} {x : UInt8}
    (h : sub b i 1 = [x]) : getAt e b i = .ok x := by
  have hi : i < b.length := add_le_of_sub_eq h rfl Nat.one_pos
  have hx : b[i] = x := by
    rw [sub, List.drop_eq_getElem_cons hi, List.take_succ_cons, List.take_zero] at h
    exact List.head_eq_of_cons_eq h
  rw [getAt_eq e hi, hx]

theorem setAt_eq (e : ε) {b : Bytes} {i : ℕ} (h : i < b.length) (x : UInt8) :
    setAt e b i x = .ok (b.set i x) := if_pos h

/-- In bounds the counted loop is `zeroTake`. -/
theorem zeroFirst_eq (e : ε) {b : Bytes} {k : ℕ} (h : k ≤ b.length) :
    zeroFirst e b k = .ok (zeroTake b k) := by
  induction k with
  | zero => simp [zeroFirst, zeroTake]
  | succ k ih =>
      have hset : (zeroTake b k).set k 0 = zeroTake b (k + 1) := by
        have hdrop : b.drop k = b[k] :: b.drop (k + 1) := List.drop_eq_getElem_cons h
        rw [zeroTake, zeroTake, Nat.min_eq_left (by omega), Nat.min_eq_left h, hdrop,
          List.set_append_right _ _ (by simp), List.length_replicate, Nat.sub_self,
          List.set_cons_zero, List.replicate_succ', List.append_assoc, List.singleton_append]
      rw [zeroFirst, ih (by omega)]
      exact (setAt_eq e (by rw [length_zeroTake]; omega) 0).trans (congrArg _ hset)

/-- Clearing the first bytes of an array, and then changing the next one. -/
theorem zeroFirst_modify (e : ε) {n k : ℕ} (a : Arr n) {i : Fin n} (hi : i.val = k)
    (f : UInt8 → UInt8) :
    (zeroFirst e a.toList k >>= fun b => getAt e b k >>= fun x => setAt e b k (f x))
      = .ok (Arr.modify (a.zeroTake i) i f).toList := by
  subst hi
  have hfirst : zeroFirst e a.toList i = .ok (zeroTake a.toList i) :=
    zeroFirst_eq e (by rw [a.toList_length]; exact i.isLt.le)
  -- the byte that is changed lies within the array
  have hbound : i.val < (zeroTake a.toList i).length := by
    rw [length_zeroTake, a.toList_length]
    exact i.isLt
  rw [hfirst, toList_modify]
  show (getAt e (zeroTake a.toList i) i >>= fun x => setAt e (zeroTake a.toList i) i (f x)) = _
  rw [getAt_eq e hbound]
  exact setAt_eq e hbound _

/-- `for i in 0..n: out[i] = a[i] ^ b[i]`. -/
def xorFirst (e : ε) (a b : Bytes) : ℕ → Except ε Bytes
  | 0 => .ok []
  | n + 1 => do return (← xorFirst e a b n) ++ [(← getAt e a n) ^^^ (← getAt e b n)]

theorem xorFirst_eq_take (e : ε) {a b : Bytes} {n : ℕ} (ha : n ≤ a.length)
    (hb : n ≤ b.length) :
    xorFirst e a b n = .ok ((List.zipWith (· ^^^ ·) a b).take n) := by
  induction n with
  | zero => rfl
  | succ n ih =>
      have hlen : n < (List.zipWith (· ^^^ ·) a b).length := by
        rw [List.length_zipWith]
        omega
      rw [List.take_succ_eq_append_getElem hlen, List.getElem_zipWith, xorFirst,
        ih (by omega) (by omega), getAt_eq e (by omega), getAt_eq e (by omega)]
      rfl

/-- In bounds the counted loop is the bytewise exclusive or. -/
theorem xorFirst_eq (e : ε) {a b : Bytes} {n : ℕ} (ha : a.length = n) (hb : b.length = n) :
    xorFirst e a b n = .ok (List.zipWith (· ^^^ ·) a b) := by
  rw [xorFirst_eq_take e (by omega) (by omega), List.take_of_length_le]
  rw [List.length_zipWith]
  omega

end Indexing

/-! ### Little-endian words -/

/-- The `n` little-endian bytes of `v`; what does not fit is dropped. -/
def leBytes : ℕ → ℕ → Bytes
  | 0, _ => []
  | n + 1, v => UInt8.ofNat v :: leBytes n (v / 256)

/-- The natural number with the given little-endian bytes. -/
def leNat : Bytes → ℕ
  | [] => 0
  | x :: xs => x.toNat + 256 * leNat xs

@[simp] theorem length_leBytes (n v : ℕ) : (leBytes n v).length = n := by
  induction n generalizing v with
  | zero => rfl
  | succ n ih => rw [leBytes, List.length_cons, ih]

theorem leNat_append (a b : Bytes) : leNat (a ++ b) = leNat a + 256 ^ a.length * leNat b := by
  induction a with
  | nil => rw [List.nil_append, leNat, List.length_nil, pow_zero, one_mul, Nat.zero_add]
  | cons x a ih =>
      rw [List.cons_append, leNat, leNat, ih, List.length_cons, pow_succ]
      ring

theorem leNat_lt (b : Bytes) : leNat b < 256 ^ b.length := by
  induction b with
  | nil => simp [leNat]
  | cons x xs ih =>
      have hx : x.toNat < 256 := x.toNat_lt
      rw [leNat, List.length_cons, pow_succ]
      omega

theorem leNat_leBytes {n v : ℕ} (h : v < 256 ^ n) : leNat (leBytes n v) = v := by
  induction n generalizing v with
  | zero =>
      rw [pow_zero] at h
      simp only [leBytes, leNat]
      omega
  | succ n ih =>
      have hv : v / 256 < 256 ^ n := by
        rw [pow_succ] at h
        omega
      have hlow : (UInt8.ofNat v).toNat = v % 256 := UInt8.toNat_ofNat'
      rw [leBytes, leNat, ih hv, hlow]
      omega

theorem leBytes_leNat (b : Bytes) : leBytes b.length (leNat b) = b := by
  induction b with
  | nil => rfl
  | cons x xs ih =>
      have hx : x.toNat < 256 := x.toNat_lt
      have hlow : UInt8.ofNat (x.toNat + 256 * leNat xs) = x := by
        apply UInt8.toNat_inj.mp
        rw [UInt8.toNat_ofNat']
        omega
      have hhigh : (x.toNat + 256 * leNat xs) / 256 = leNat xs := by omega
      rw [List.length_cons, leNat, leBytes, hlow, hhigh, ih]

/-! ### Machine words -/

/-- `u32::to_le_bytes`. -/
def u32le (v : UInt32) : Bytes := leBytes 4 v.toNat

/-- `u32::from_le_bytes`. -/
def u32of (b : Bytes) : UInt32 := UInt32.ofNat (leNat b)

/-- `u16::to_le_bytes`. -/
def u16le (v : UInt16) : Bytes := leBytes 2 v.toNat

/-- `u16::from_le_bytes`. -/
def u16of (b : Bytes) : UInt16 := UInt16.ofNat (leNat b)

@[simp] theorem length_u32le (v : UInt32) : (u32le v).length = 4 := length_leBytes 4 _

@[simp] theorem length_u16le (v : UInt16) : (u16le v).length = 2 := length_leBytes 2 _

@[simp] theorem u32of_u32le (v : UInt32) : u32of (u32le v) = v := by
  have hv : v.toNat < 256 ^ 4 := v.toNat_lt
  rw [u32of, u32le, leNat_leBytes hv, UInt32.ofNat_toNat]

@[simp] theorem u16of_u16le (v : UInt16) : u16of (u16le v) = v := by
  have hv : v.toNat < 256 ^ 2 := v.toNat_lt
  rw [u16of, u16le, leNat_leBytes hv, UInt16.ofNat_toNat]

theorem u32le_inj {v w : UInt32} (h : u32le v = u32le w) : v = w := by
  rw [← u32of_u32le v, h, u32of_u32le]

theorem toNat_u32of {b : Bytes} (h : b.length = 4) : (u32of b).toNat = leNat b := by
  have hlt := leNat_lt b
  rw [h] at hlt
  exact Nat.mod_eq_of_lt hlt

theorem toNat_u16of {b : Bytes} (h : b.length = 2) : (u16of b).toNat = leNat b := by
  have hlt := leNat_lt b
  rw [h] at hlt
  exact Nat.mod_eq_of_lt hlt

theorem u32le_u32of {b : Bytes} (h : b.length = 4) : u32le (u32of b) = b := by
  rw [u32le, toNat_u32of h, ← h, leBytes_leNat]

theorem u16le_u16of {b : Bytes} (h : b.length = 2) : u16le (u16of b) = b := by
  rw [u16le, toNat_u16of h, ← h, leBytes_leNat]

/-! ### The top bit of a 32-bit word -/

/-- Masking with the top bit tests whether the word reaches `2 ^ 31`. -/
theorem and_topBit_eq_zero_iff (v : UInt32) :
    v &&& 0x80000000 = 0 ↔ v.toNat < 2 ^ 31 := by
  have hv : v.toNat < 2 ^ 32 := v.toNat_lt
  have hmask : (v &&& 0x80000000).toNat = (v.toNat / 2 ^ 31) % 2 * 2 ^ 31 := by
    rw [UInt32.toNat_and, show (0x80000000 : UInt32).toNat = 2 ^ 31 from rfl, Nat.and_two_pow,
      Nat.testBit_eq_decide_div_mod_eq]
    rcases Nat.mod_two_eq_zero_or_one (v.toNat / 2 ^ 31) with e | e <;> rw [e] <;> rfl
  rw [← UInt32.toNat_inj, hmask, show (0 : UInt32).toNat = 0 from rfl]
  omega

theorem toNat_and_not_topBit (v : UInt32) :
    (v &&& ~~~0x80000000).toNat = v.toNat % 2 ^ 31 := by
  rw [UInt32.toNat_and, show (~~~0x80000000 : UInt32).toNat = 2 ^ 31 - 1 from rfl,
    Nat.and_two_pow_sub_one_eq_mod]

theorem toNat_or_topBit {v : UInt32} (h : v.toNat < 2 ^ 31) :
    (v ||| 0x80000000).toNat = v.toNat + 2 ^ 31 := by
  rw [UInt32.toNat_or, show (0x80000000 : UInt32).toNat = 2 ^ 31 * 1 from rfl, Nat.or_comm,
    ← Nat.two_pow_add_eq_or_of_lt h]
  omega

/-- Clearing the top bit, written on naturals. -/
theorem ldiff_topBit (v : UInt32) :
    v.toNat.ldiff 0x80000000 = (v &&& ~~~0x80000000).toNat := by
  have hv : v.toNat < 2 ^ 32 := v.toNat_lt
  rw [toNat_and_not_topBit]
  apply Nat.eq_of_testBit_eq
  intro k
  rw [Nat.testBit_ldiff, Nat.testBit_mod_two_pow, show 0x80000000 = 2 ^ 31 from rfl,
    Nat.testBit_two_pow]
  by_cases hk : k < 31
  · simp [hk, show 31 ≠ k by omega]
  · by_cases hk31 : 31 = k
    · simp [hk31]
    · have hhigh : v.toNat.testBit k = false :=
        Nat.testBit_lt_two_pow (hv.trans_le (Nat.pow_le_pow_right (by decide) (by omega)))
      simp [hk, hhigh]

/-- A word without its top bit is unchanged by clearing it. -/
theorem and_not_topBit_of_lt {v : UInt32} (h : v.toNat < 2 ^ 31) :
    v &&& ~~~0x80000000 = v := by
  rw [← UInt32.toNat_inj, toNat_and_not_topBit, Nat.mod_eq_of_lt h]

/-- Clearing the top bit and setting it again gives back a word that had it. -/
theorem or_topBit_and_not_topBit {v : UInt32} (h : v &&& 0x80000000 ≠ 0) :
    (v &&& ~~~0x80000000) ||| 0x80000000 = v := by
  have hv : v.toNat < 2 ^ 32 := v.toNat_lt
  have hge : ¬ v.toNat < 2 ^ 31 := fun hlt => h ((and_topBit_eq_zero_iff v).mpr hlt)
  have hlow := toNat_and_not_topBit v
  rw [← UInt32.toNat_inj, toNat_or_topBit (by omega), hlow]
  omega

end Wire
