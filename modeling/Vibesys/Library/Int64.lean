import Mathlib.Algebra.Order.Ring.Int

/-!
# Signed integers of 64 bits

A result that does not fit keeps its lowest 64 bits. Sums may be cut at every addition or once at the end.
-/
namespace Vibesys.Library

/-- The integer of 64 bits that a result is kept as. -/
def wrap (n : ℤ) : ℤ := (n+2^63)%2^64-2^63

theorem wrap_of_fits {n : ℤ} (h : -2^63 ≤ n) (h' : n < 2^63) : wrap n = n := by
  unfold wrap
  omega

theorem wrap_bounds (n : ℤ) : -2^63 ≤ wrap n ∧ wrap n < 2^63 := by
  unfold wrap
  omega

@[simp] theorem wrap_zero : wrap 0 = 0 := rfl

@[simp] theorem wrap_wrap (n : ℤ) : wrap (wrap n) = wrap n := by
  unfold wrap
  omega

@[simp] theorem wrap_wrap_add (m n : ℤ) : wrap (wrap m+n) = wrap (m+n) := by
  unfold wrap
  omega

@[simp] theorem wrap_add_wrap (m n : ℤ) : wrap (m+wrap n) = wrap (m+n) := by
  unfold wrap
  omega

end Vibesys.Library
