/-
PrunedElectrs/Lib/Digest.lean

SHA-256 and unkeyed BLAKE2b with a 32-byte digest, on byte lists.

Nothing is proved about these functions beyond the length of their results.
They are here to be evaluated: a development that takes its hash functions as
a parameter can be run on real data by passing these, and the kernel computes
a digest of a short message in well under a second.  Words are naturals
reduced modulo `2 ^ 32` and `2 ^ 64`, for that reason.
-/
import PrunedElectrs.Lib.Bytes

namespace Wire

/-- The big-endian natural with the given bytes. -/
def beNat (b : Bytes) : ℕ := leNat b.reverse

/-- The first `n` elements, in groups of `k`. -/
def groups {α : Type*} (k : ℕ) : ℕ → List α → List (List α)
  | 0, _ => []
  | n + 1, b => b.take k :: groups k n (b.drop k)

/-- Rotate a `w`-bit word to the right. -/
def rotr (w x n : ℕ) : ℕ := (x >>> n) ||| ((x <<< (w - n)) % 2 ^ w)

/-! ### SHA-256 -/

namespace Sha256

/-- The eight working words. -/
structure Words where
  a : ℕ
  b : ℕ
  c : ℕ
  d : ℕ
  e : ℕ
  f : ℕ
  g : ℕ
  h : ℕ

/-- The initial hash value. -/
def initial : Words where
  a := 0x6a09e667
  b := 0xbb67ae85
  c := 0x3c6ef372
  d := 0xa54ff53a
  e := 0x510e527f
  f := 0x9b05688c
  g := 0x1f83d9ab
  h := 0x5be0cd19

/-- The constants of the 64 rounds. -/
def constants : List ℕ :=
  [0x428a2f98, 0x71374491, 0xb5c0fbcf, 0xe9b5dba5, 0x3956c25b, 0x59f111f1, 0x923f82a4, 0xab1c5ed5,
    0xd807aa98, 0x12835b01, 0x243185be, 0x550c7dc3, 0x72be5d74, 0x80deb1fe, 0x9bdc06a7, 0xc19bf174,
    0xe49b69c1, 0xefbe4786, 0x0fc19dc6, 0x240ca1cc, 0x2de92c6f, 0x4a7484aa, 0x5cb0a9dc, 0x76f988da,
    0x983e5152, 0xa831c66d, 0xb00327c8, 0xbf597fc7, 0xc6e00bf3, 0xd5a79147, 0x06ca6351, 0x14292967,
    0x27b70a85, 0x2e1b2138, 0x4d2c6dfc, 0x53380d13, 0x650a7354, 0x766a0abb, 0x81c2c92e, 0x92722c85,
    0xa2bfe8a1, 0xa81a664b, 0xc24b8b70, 0xc76c51a3, 0xd192e819, 0xd6990624, 0xf40e3585, 0x106aa070,
    0x19a4c116, 0x1e376c08, 0x2748774c, 0x34b0bcb5, 0x391c0cb3, 0x4ed8aa4a, 0x5b9cca4f, 0x682e6ff3,
    0x748f82ee, 0x78a5636f, 0x84c87814, 0x8cc70208, 0x90befffa, 0xa4506ceb, 0xbef9a3f7, 0xc67178f2]

/-- One round, with its constant and its word of the schedule. -/
def round (s : Words) (k w : ℕ) : Words :=
  let sigma1 := rotr 32 s.e 6 ^^^ rotr 32 s.e 11 ^^^ rotr 32 s.e 25
  let choice := (s.e &&& s.f) ^^^ ((s.e ^^^ 0xffffffff) &&& s.g)
  let t1 := s.h + sigma1 + choice + k + w
  let sigma0 := rotr 32 s.a 2 ^^^ rotr 32 s.a 13 ^^^ rotr 32 s.a 22
  let majority := (s.a &&& s.b) ^^^ (s.a &&& s.c) ^^^ (s.b &&& s.c)
  { a := (t1 + sigma0 + majority) % 2 ^ 32, b := s.a, c := s.b, d := s.c
    e := (s.d + t1) % 2 ^ 32, f := s.e, g := s.f, h := s.g }

/-- The message word sixteen places after the head of the window. -/
def schedule (w : List ℕ) : ℕ :=
  let x := w.getD 1 0
  let y := w.getD 14 0
  (w.headD 0 + (rotr 32 x 7 ^^^ rotr 32 x 18 ^^^ (x >>> 3)) + w.getD 9 0
    + (rotr 32 y 17 ^^^ rotr 32 y 19 ^^^ (y >>> 10))) % 2 ^ 32

/-- One round per constant; `w` is the window of the next sixteen message words. -/
def rounds (s : Words) (w : List ℕ) : List ℕ → Words
  | [] => s
  | k :: ks => rounds (round s k (w.headD 0)) (w.tail ++ [schedule w]) ks

/-- Take in a block. -/
def compress (s : Words) (block : Bytes) : Words :=
  let r := rounds s ((groups 4 16 block).map beNat) constants
  { a := (s.a + r.a) % 2 ^ 32, b := (s.b + r.b) % 2 ^ 32, c := (s.c + r.c) % 2 ^ 32
    d := (s.d + r.d) % 2 ^ 32, e := (s.e + r.e) % 2 ^ 32, f := (s.f + r.f) % 2 ^ 32
    g := (s.g + r.g) % 2 ^ 32, h := (s.h + r.h) % 2 ^ 32 }

/-- The message with its padding: a whole number of 64-byte blocks. -/
def pad (b : Bytes) : Bytes :=
  b ++ [0x80] ++ List.replicate ((119 - b.length % 64) % 64) 0 ++ (leBytes 8 (8 * b.length)).reverse

/-- The words as bytes, big-endian. -/
def Words.bytes (s : Words) : Bytes :=
  [s.a, s.b, s.c, s.d, s.e, s.f, s.g, s.h].flatMap fun w => (leBytes 4 w).reverse

theorem length_bytes (s : Words) : s.bytes.length = 32 := by simp [Words.bytes]

end Sha256

/-- SHA-256. -/
def sha256 (b : Bytes) : Arr 32 :=
  let padded := Sha256.pad b
  let s := (groups 64 (padded.length / 64) padded).foldl Sha256.compress Sha256.initial
  ⟨s.bytes, Sha256.length_bytes s⟩

/-! ### BLAKE2b -/

namespace Blake2b

/-- The four rows of four words. -/
structure Rows where
  a : List ℕ
  b : List ℕ
  c : List ℕ
  d : List ℕ

/-- The initialization vector. -/
def iv : List ℕ :=
  [0x6a09e667f3bcc908, 0xbb67ae8584caa73b, 0x3c6ef372fe94f82b, 0xa54ff53a5f1d36f1,
    0x510e527fade682d1, 0x9b05688c2b3e6c1f, 0x1f83d9abfb41bd6b, 0x5be0cd19137e2179]

/-- The order in which each round reads the message words. -/
def permutations : List (List ℕ) :=
  [[0, 1, 2, 3, 4, 5, 6, 7, 8, 9, 10, 11, 12, 13, 14, 15],
    [14, 10, 4, 8, 9, 15, 13, 6, 1, 12, 0, 2, 11, 7, 5, 3],
    [11, 8, 12, 0, 5, 2, 15, 13, 10, 14, 3, 6, 7, 1, 9, 4],
    [7, 9, 3, 1, 13, 12, 11, 14, 2, 6, 5, 10, 4, 0, 15, 8],
    [9, 0, 5, 7, 2, 4, 10, 15, 14, 1, 11, 12, 6, 8, 3, 13],
    [2, 12, 6, 10, 0, 11, 8, 3, 4, 13, 7, 5, 15, 14, 1, 9],
    [12, 5, 1, 15, 14, 13, 4, 10, 0, 7, 6, 3, 9, 2, 8, 11],
    [13, 11, 7, 14, 12, 1, 3, 9, 5, 0, 15, 4, 8, 6, 2, 10],
    [6, 15, 14, 9, 11, 3, 0, 8, 12, 2, 13, 7, 1, 4, 10, 5],
    [10, 2, 8, 4, 7, 6, 1, 5, 15, 11, 9, 14, 3, 12, 13, 0],
    [0, 1, 2, 3, 4, 5, 6, 7, 8, 9, 10, 11, 12, 13, 14, 15],
    [14, 10, 4, 8, 9, 15, 13, 6, 1, 12, 0, 2, 11, 7, 5, 3]]

/-- Addition of 64-bit words. -/
def add (x y : ℕ) : ℕ := (x + y) % 2 ^ 64

/-- Half of the mixing function on all four columns, with one message word each. -/
def half (s : Rows) (m : List ℕ) (r r' : ℕ) : Rows :=
  let a := List.zipWith add (List.zipWith add s.a s.b) m
  let d := List.zipWith (fun x y => rotr 64 (x ^^^ y) r) s.d a
  let c := List.zipWith add s.c d
  let b := List.zipWith (fun x y => rotr 64 (x ^^^ y) r') s.b c
  { a, b, c, d }

/-- The elements of a list at its even, or its odd, positions. -/
def alternate {α : Type*} : List α → List α
  | x :: _ :: xs => x :: alternate xs
  | xs => xs

/-- Mix in eight words, four at a time: the even ones, then the odd ones. -/
def mix (s : Rows) (m : List ℕ) : Rows :=
  half (half s (alternate m) 32 24) (alternate m.tail) 16 63

/-- One round: the message in the order of a permutation, by columns and then by diagonals. -/
def round (m : List ℕ) (s : Rows) (p : List ℕ) : Rows :=
  let w := p.map fun i => m.getD i 0
  let s := mix s (w.take 8)
  let t := mix { s with b := s.b.rotateLeft 1, c := s.c.rotateLeft 2, d := s.d.rotateLeft 3 }
    (w.drop 8)
  { t with b := t.b.rotateRight 1, c := t.c.rotateRight 2, d := t.d.rotateRight 3 }

/-- Absorb one block, `t` bytes having been read with it. -/
def compress (h : List ℕ) (block : Bytes) (t : ℕ) (last : Bool) : List ℕ :=
  let m := (groups 8 16 block).map leNat
  let s : Rows :=
    { a := h.take 4, b := h.drop 4, c := iv.take 4
      d := List.zipWith (· ^^^ ·) (iv.drop 4)
        [t % 2 ^ 64, t / 2 ^ 64, if last then 2 ^ 64 - 1 else 0, 0] }
  let r := permutations.foldl (round m) s
  List.zipWith (· ^^^ ·) h (List.zipWith (· ^^^ ·) (r.a ++ r.b) (r.c ++ r.d))

/-- Absorb the message, `t` bytes of which have been read. -/
def absorb (h : List ℕ) (t : ℕ) (b : Bytes) : ℕ → List ℕ
  | 0 => compress h (b ++ List.replicate (128 - b.length) 0) (t + b.length) true
  | n + 1 => absorb (compress h (b.take 128) (t + 128) false) (t + 128) (b.drop 128) n

/-- The first 32 bytes of the state. -/
def digestBytes (h : List ℕ) : Bytes :=
  [h.getD 0 0, h.getD 1 0, h.getD 2 0, h.getD 3 0].flatMap fun w => leBytes 8 w

theorem length_digestBytes (h : List ℕ) : (digestBytes h).length = 32 := by simp [digestBytes]

end Blake2b

/-- Unkeyed BLAKE2b with a 32-byte digest. -/
def blake2b256 (b : Bytes) : Arr 32 :=
  -- the parameter block: digest length 32, no key, fan-out and depth 1
  let h := List.zipWith (· ^^^ ·) Blake2b.iv [0x01010020, 0, 0, 0, 0, 0, 0, 0]
  let digest := Blake2b.absorb h 0 b ((b.length - 1) / 128)
  ⟨Blake2b.digestBytes digest, Blake2b.length_digestBytes digest⟩

/-- The digests of the three bytes `abc`. -/
example : beNat (sha256 [97, 98, 99]).toList
      = 0xba7816bf8f01cfea414140de5dae2223b00361a396177a9cb410ff61f20015ad
    ∧ beNat (blake2b256 [97, 98, 99]).toList
      = 0xbddd813c634239723171ef3fee98579b94964e3bb1cb3e427262c8c068d52319 := by
  decide +kernel

end Wire
