import Mathlib

/-!
# Unsigned 64-bit words

Code over `uint64` adds, multiplies and subtracts where the result is known to fit, the last only
after a comparison.  These lemmas read such results back in `ℕ`, where `omega` works.
A shift in Go by a count of 64 or more gives zero, where the machine shift takes the count
modulo 64: `shr` is the shift of Go.
-/

namespace Word64

/-- An addition that is known to fit is exact. -/
theorem toNat_add_of_lt {a b : UInt64} (h : a.toNat + b.toNat < 2 ^ 64) :
    (a + b).toNat = a.toNat + b.toNat := by
  rw [UInt64.toNat_add, Nat.mod_eq_of_lt h]

/-- A share `a * w / d` whose product fits is the share in `ℕ`. -/
theorem toNat_mul_div_of_lt {a w d : UInt64} (h : a.toNat * w.toNat < 2 ^ 64) :
    (a * w / d).toNat = a.toNat * w.toNat / d.toNat := by
  rw [UInt64.toNat_div, UInt64.toNat_mul, Nat.mod_eq_of_lt h]

/-- A subtraction after the comparison `b ≤ a` is exact. -/
theorem toNat_sub_of_not_lt {a b : UInt64} (h : ¬ a < b) : (a - b).toNat = a.toNat - b.toNat := by
  rw [UInt64.lt_iff_toNat_lt] at h
  exact UInt64.toNat_sub_of_le a b (UInt64.le_iff_toNat_le.mpr (by omega))

/-- A comparison that the opposite comparison refutes; as a conditional rewrite, it lets `simp`
decide the condition of a branch from the guard a caller passed. -/
theorem lt_eq_false_of_le {a b : UInt64} (h : b ≤ a) : (a < b) = False := by
  rw [UInt64.le_iff_toNat_le] at h
  simp only [UInt64.lt_iff_toNat_lt, eq_iff_iff, iff_false, not_lt, h]

theorem le_eq_false_of_lt {a b : UInt64} (h : a < b) : (b ≤ a) = False := by
  rw [UInt64.lt_iff_toNat_lt] at h
  simp only [UInt64.le_iff_toNat_le, eq_iff_iff, iff_false, not_le, h]

/-- `x >> s` in Go. -/
def shr (x s : UInt64) : UInt64 := if s < 64 then x >>> s else 0

theorem toNat_shr (x s : UInt64) : (shr x s).toNat = x.toNat / 2 ^ s.toNat := by
  unfold shr
  split_ifs with hs
  · rw [UInt64.lt_iff_toNat_lt] at hs
    rw [UInt64.toNat_shiftRight, Nat.shiftRight_eq_div_pow, Nat.mod_eq_of_lt (by simpa using hs)]
  · rw [UInt64.lt_iff_toNat_lt, not_lt] at hs
    -- a shift past the width clears every bit
    have hpow : 2 ^ 64 ≤ 2 ^ s.toNat := Nat.pow_le_pow_right (by norm_num) (by simpa using hs)
    rw [UInt64.toNat_zero, eq_comm, Nat.div_eq_zero_iff_lt (by positivity)]
    exact lt_of_lt_of_le x.toNat_lt hpow

theorem lt_iff (a b : UInt64) : a < b ↔ a.toNat < b.toNat := UInt64.lt_iff_toNat_lt

theorem le_iff (a b : UInt64) : a ≤ b ↔ a.toNat ≤ b.toNat := UInt64.le_iff_toNat_le

end Word64
