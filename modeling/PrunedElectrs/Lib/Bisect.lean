/-
PrunedElectrs/Lib/Bisect.lean

Bisection over the naturals with a boolean test.

The loop keeps two ends: the test holds at `hi`, and fails just below `lo`.
Both survive halving whatever the test does in between, so without any
assumption of monotonicity the search ends at a place where the test changes
from false to true (`bisect_spec`).  Where it changes only once, that place is
the least at which it holds (`isLeast_bisect`).
-/
import Mathlib.Order.Bounds.Basic
import Mathlib.Tactic.Common

namespace Search

/-- Halve the interval between `lo` and `hi` until nothing is left of it. -/
def bisect (p : ℕ → Bool) (lo hi : ℕ) : ℕ :=
  if lo < hi then
    let mid := lo + (hi - lo) / 2
    if p mid then bisect p lo mid else bisect p (mid + 1) hi
  else lo
termination_by hi - lo

variable {p : ℕ → Bool} {lo hi : ℕ}

/-- The search ends between its ends, at a place where the test holds and
just below which it fails. -/
theorem bisect_spec (hle : lo ≤ hi) (hbelow : ∀ k, k + 1 = lo → p k = false)
    (hhi : p hi = true) :
    bisect p lo hi ≤ hi ∧ p (bisect p lo hi) = true
      ∧ ∀ k, k + 1 = bisect p lo hi → p k = false := by
  fun_induction bisect p lo hi with
  | case1 lo hi hlt mid hmid ih =>
      obtain ⟨hto, hat, hfrom⟩ := ih (by omega) hbelow hmid
      exact ⟨by omega, hat, hfrom⟩
  | case2 lo hi hlt mid hmid ih =>
      have hnew : ∀ k, k + 1 = mid + 1 → p k = false := by
        rintro k hk
        obtain rfl : k = mid := Nat.succ.inj hk
        exact Bool.eq_false_iff.mpr hmid
      exact ih (by omega) hnew hhi
  | case3 lo hi hlt =>
      obtain rfl : lo = hi := by omega
      exact ⟨le_refl _, hhi, hbelow⟩

/-- Where the test, once it holds, holds up to `hi`, the search finds the first
place at which it does. -/
theorem isLeast_bisect (hhi : p hi = true)
    (hmono : ∀ i j, i ≤ j → j ≤ hi → p i = true → p j = true) :
    IsLeast {k | p k = true} (bisect p 0 hi) := by
  obtain ⟨hto, hat, hfrom⟩ :=
    bisect_spec (Nat.zero_le hi) (fun k hk => absurd hk k.succ_ne_zero) hhi
  refine ⟨hat, fun k hk => ?_⟩
  rcases Nat.lt_or_ge k (bisect p 0 hi) with hlt | hge
  · -- the test holds at `k` and so just below the boundary, where it fails
    obtain ⟨j, hj⟩ : ∃ j, j + 1 = bisect p 0 hi := ⟨bisect p 0 hi - 1, by omega⟩
    have htrue : p j = true := hmono k j (by omega) (by omega) hk
    rw [hfrom j hj] at htrue
    cases htrue
  · exact hge

end Search
