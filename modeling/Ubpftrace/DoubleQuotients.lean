import Mathlib.Data.Nat.Log
import Mathlib.Tactic.Linarith
import Mathlib.Tactic.Ring

/-!
# Quotients in double precision

The integral part of a quotient of naturals that is rounded to 53 bits, ties to even.
-/

namespace DoubleQuotients

/-- The integer nearest to `a / b`. -/
def nearest (a b : Nat) : Nat :=
  if 2 * (a % b) < b ∨ (2 * (a % b) = b ∧ a / b % 2 = 0) then a / b else a / b + 1

/-- The integral part of the double nearest to `a / b`. Behind the first bit of the
quotient there are 52 more. -/
def quotient (a b : Nat) : Nat :=
  let e := Nat.log2 (a / b)
  if e ≤ 52 then nearest (a * 2 ^ (52 - e)) b / 2 ^ (52 - e) else nearest a (b * 2 ^ (e - 52)) * 2 ^ (e - 52)

/-- The double nearest to an integer. -/
def ofNat (x : Nat) : Nat := quotient x 1

section Nearest

variable {a b k q : Nat}

theorem nearest_bounds (hb : 0 < b) : 2 * a ≤ 2 * (nearest a b * b) + b ∧ 2 * (nearest a b * b) ≤ 2 * a + b := by
  have hdiv : a / b * b + a % b = a := Nat.div_add_mod' a b
  have hmod := Nat.mod_lt a hb
  unfold nearest
  split
  next hdown => omega
  next hup =>
    rw [Nat.add_mul, Nat.one_mul]
    omega

theorem nearest_one (a : Nat) : nearest a 1 = a := by simp [nearest, Nat.mod_one]

theorem log2_bounds (hq : a / b ≠ 0) (hb : 0 < b) :
    2 ^ Nat.log2 (a / b) * b ≤ a ∧ a < 2 ^ (Nat.log2 (a / b) + 1) * b := by
  constructor
  · exact (Nat.le_div_iff_mul_le hb).mp (Nat.log2_self_le hq)
  · exact (Nat.div_lt_iff_lt_mul hb).mp Nat.lt_log2_self

/-- The integral part, where the quotient is not within half a unit of the next integer. -/
theorem quotient_eq (hb : 0 < b) (he : Nat.log2 (a / b) + k = 52) (hlow : 2 * (q * 2 ^ k * b) < 2 * (a * 2 ^ k) + b)
    (hhigh : 2 * (a * 2 ^ k) + b < 2 * ((q + 1) * 2 ^ k * b)) : quotient a b = q := by
  obtain rfl : k = 52 - Nat.log2 (a / b) := by omega
  rw [quotient, if_pos (by omega)]
  generalize 52 - Nat.log2 (a / b) = k at *
  have hk : 0 < 2 ^ k := Nat.two_pow_pos k
  obtain ⟨hge, hle⟩ := nearest_bounds (a := a * 2 ^ k) hb
  have hfrom : q * 2 ^ k ≤ nearest (a * 2 ^ k) b := by
    by_contra hlt
    have hmul : (nearest (a * 2 ^ k) b + 1) * b ≤ q * 2 ^ k * b := Nat.mul_le_mul_right b (by omega)
    rw [Nat.add_mul, Nat.one_mul] at hmul
    omega
  have hto : nearest (a * 2 ^ k) b < (q + 1) * 2 ^ k := by
    by_contra hle'
    have hmul : (q + 1) * 2 ^ k * b ≤ nearest (a * 2 ^ k) b * b := Nat.mul_le_mul_right b (by omega)
    omega
  exact Nat.div_eq_of_lt_le hfrom hto

theorem ofNat_eq {x : Nat} (hx : x < 2 ^ 53) : ofNat x = x := by
  have he : Nat.log2 x ≤ 52 := by
    by_cases hzero : x = 0
    · subst hzero
      decide
    · have := (Nat.log2_lt hzero).mpr hx
      omega
  rw [ofNat, quotient, Nat.div_one, if_pos he, nearest_one, Nat.mul_div_cancel x (Nat.two_pow_pos _)]

end Nearest

end DoubleQuotients
