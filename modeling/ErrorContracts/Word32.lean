/-!
# Signed 32-bit words

Results and codes are compared as signed 32-bit words: an integer stands for the member of its
residue class modulo `2 ^ 32` that lies in `[-2 ^ 31, 2 ^ 31)`.
-/

namespace ErrorContracts.Word32

/-- The number of words. -/
def modulus : Nat := 4294967296

/-- The signed 32-bit reading of an integer. -/
def wrap (n : Int) : Int := n.bmod modulus

def minValue : Int := -2147483648

def maxValue : Int := 2147483647

theorem minValue_le_wrap (n : Int) : minValue ≤ wrap n := by
  have h := Int.le_bmod (x := n) (m := modulus) (by decide)
  simp only [wrap, minValue, modulus] at h ⊢
  omega

theorem wrap_le_maxValue (n : Int) : wrap n ≤ maxValue := by
  have h := Int.bmod_lt (x := n) (m := modulus) (by decide)
  simp only [wrap, maxValue, modulus] at h ⊢
  omega

/-- A word in range is its own reading. -/
theorem wrap_of_bounds {n : Int} (low : minValue ≤ n) (high : n ≤ maxValue) : wrap n = n := by
  simp only [minValue, maxValue] at low high
  exact Int.bmod_eq_of_le (by simp only [modulus]; omega) (by simp only [modulus]; omega)

@[simp]
theorem wrap_wrap (n : Int) : wrap (wrap n) = wrap n :=
  wrap_of_bounds (minValue_le_wrap n) (wrap_le_maxValue n)

/-- A multiple of the modulus does not change the reading. -/
theorem wrap_add_mul (n k : Int) : wrap (n + modulus * k) = wrap n :=
  Int.add_mul_bmod_self_left n modulus k

end ErrorContracts.Word32
