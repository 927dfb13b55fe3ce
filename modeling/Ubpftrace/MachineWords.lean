import Mathlib.Tactic.Ring
import Mathlib.Tactic.Linarith

/-!
# Machine words read with and without a sign

A word is a bit vector. Its value depends on the type it is read at; the operations
of both types are the operations on integers modulo a power of two, and they are exact
as long as the result lies in the range of the type.
-/

namespace MachineWords

inductive Sign where
  | unsigned
  | signed
  deriving DecidableEq

variable {w : Nat}

namespace Sign

def val : Sign → BitVec w → Int
  | .unsigned, v => v.toNat
  | .signed, v => v.toInt

/-- The values of a type of `w` bits. -/
def Holds (s : Sign) (w : Nat) (x : Int) : Prop :=
  match s with
  | .unsigned => 0 ≤ x ∧ x < 2 ^ w
  | .signed => -2 ^ (w - 1) ≤ x ∧ x < 2 ^ (w - 1)

instance (s : Sign) (w : Nat) (x : Int) : Decidable (s.Holds w x) := by
  cases s <;> exact inferInstanceAs (Decidable (_ ∧ _))

/-- The quotient truncated toward zero, at the type's own division. -/
def quot : Sign → BitVec w → BitVec w → BitVec w
  | .unsigned, l, r => l / r
  | .signed, l, r => l.sdiv r

def rem : Sign → BitVec w → BitVec w → BitVec w
  | .unsigned, l, r => l % r
  | .signed, l, r => l.srem r

end Sign

variable (s : Sign)

theorem ofInt_val (v : BitVec w) : BitVec.ofInt w (s.val v) = v := by
  cases s with
  | unsigned => simp [Sign.val]
  | signed => exact BitVec.ofInt_toInt

theorem val_injective {s : Sign} {u v : BitVec w} (h : s.val u = s.val v) : u = v := by
  rw [← ofInt_val s u, h, ofInt_val]

theorem val_holds (hw : 0 < w) (v : BitVec w) : s.Holds w (s.val v) := by
  cases s with
  | unsigned =>
    refine ⟨Int.natCast_nonneg _, ?_⟩
    simp only [Sign.val]
    exact_mod_cast v.isLt
  | signed =>
    have hpow : (2 : Int) ^ w = 2 * 2 ^ (w - 1) := by
      rw [← pow_succ']
      congr 1
      omega
    have hlo := BitVec.le_two_mul_toInt (x := v)
    have hhi := BitVec.two_mul_toInt_lt (x := v)
    simp only [Sign.Holds, Sign.val]
    constructor <;> omega

theorem val_ofInt {s : Sign} {x : Int} (hw : 0 < w) (h : s.Holds w x) : s.val (BitVec.ofInt w x) = x := by
  cases s with
  | unsigned =>
    obtain ⟨hlo, hhi⟩ := h
    simp only [Sign.val, BitVec.toNat_ofInt]
    have hmod : x % ((2 ^ w : Nat) : Int) = x := Int.emod_eq_of_lt hlo (by exact_mod_cast hhi)
    omega
  | signed =>
    obtain ⟨hlo, hhi⟩ := h
    exact BitVec.toInt_ofInt_eq_self hw hlo hhi

theorem ofInt_add_val (l r : BitVec w) : BitVec.ofInt w (s.val l + s.val r) = l + r := by
  rw [BitVec.ofInt_add, ofInt_val, ofInt_val]

theorem ofInt_sub_val (l r : BitVec w) : BitVec.ofInt w (s.val l - s.val r) = l - r := by
  rw [sub_eq_add_neg, BitVec.ofInt_add, BitVec.ofInt_neg, ofInt_val, ofInt_val, BitVec.sub_eq_add_neg]

theorem ofInt_mul_val (l r : BitVec w) : BitVec.ofInt w (s.val l * s.val r) = l * r := by
  rw [BitVec.ofInt_mul, ofInt_val, ofInt_val]

theorem ofInt_tdiv_val (l r : BitVec w) :
    BitVec.ofInt w ((s.val l).tdiv (s.val r)) = s.quot l r := by
  cases s with
  | unsigned =>
    apply BitVec.eq_of_toNat_eq
    exact Nat.mod_eq_of_lt (Nat.lt_of_le_of_lt (Nat.div_le_self _ _) l.isLt)
  | signed =>
    apply BitVec.eq_of_toInt_eq
    rw [BitVec.toInt_ofInt]
    exact (BitVec.toInt_sdiv l r).symm

theorem ofInt_tmod_val (l r : BitVec w) :
    BitVec.ofInt w ((s.val l).tmod (s.val r)) = s.rem l r := by
  cases s with
  | unsigned =>
    apply BitVec.eq_of_toNat_eq
    exact Nat.mod_eq_of_lt (Nat.lt_of_le_of_lt (Nat.mod_le _ _) l.isLt)
  | signed =>
    simp only [Sign.val, Sign.rem]
    rw [← BitVec.toInt_srem, BitVec.ofInt_toInt]

section Exact

variable {s : Sign} {l r : BitVec w} (hw : 0 < w)
include hw

theorem val_add (h : s.Holds w (s.val l + s.val r)) : s.val (l + r) = s.val l + s.val r := by
  rw [← ofInt_add_val s, val_ofInt hw h]

theorem val_sub (h : s.Holds w (s.val l - s.val r)) : s.val (l - r) = s.val l - s.val r := by
  rw [← ofInt_sub_val s, val_ofInt hw h]

theorem val_mul (h : s.Holds w (s.val l * s.val r)) : s.val (l * r) = s.val l * s.val r := by
  rw [← ofInt_mul_val s, val_ofInt hw h]

theorem val_quot (h : s.Holds w ((s.val l).tdiv (s.val r))) :
    s.val (s.quot l r) = (s.val l).tdiv (s.val r) := by
  rw [← ofInt_tdiv_val s, val_ofInt hw h]

theorem val_rem (h : s.Holds w ((s.val l).tmod (s.val r))) :
    s.val (s.rem l r) = (s.val l).tmod (s.val r) := by
  rw [← ofInt_tmod_val s, val_ofInt hw h]

omit hw in
theorem natAbs_tdiv_le (a b : Int) : (a.tdiv b).natAbs ≤ a.natAbs := by
  rw [Int.natAbs_tdiv]
  exact Nat.div_le_self _ _

/-- A quotient is in the range of its type, but for the least signed number over -1. -/
theorem holds_tdiv (h : ¬ (s = .signed ∧ s.val l = -2 ^ (w - 1) ∧ s.val r = -1)) :
    s.Holds w ((s.val l).tdiv (s.val r)) := by
  have hl := val_holds s hw l
  have hle := natAbs_tdiv_le (s.val l) (s.val r)
  cases s with
  | unsigned =>
    have hr := val_holds .unsigned hw r
    simp only [Sign.Holds] at hl hr ⊢
    have hnonneg := Int.tdiv_nonneg hl.1 hr.1
    omega
  | signed =>
    simp only [Sign.Holds, true_and, not_and] at hl h ⊢
    by_contra hover
    have habs : (Sign.signed.val l).natAbs / (Sign.signed.val r).natAbs = (Sign.signed.val l).natAbs := by
      have hquot : ((Sign.signed.val l).tdiv (Sign.signed.val r)).natAbs =
          (Sign.signed.val l).natAbs / (Sign.signed.val r).natAbs := Int.natAbs_tdiv _ _
      omega
    have hone : (Sign.signed.val r).natAbs = 1 := by
      have hl0 : (Sign.signed.val l).natAbs ≠ 0 := by omega
      rcases Nat.div_eq_self.mp habs with h0 | h1
      · exact absurd h0 hl0
      · exact h1
    have hr : Sign.signed.val r = 1 := by
      omega
    rw [hr, Int.tdiv_one] at hover
    omega

theorem holds_tmod : s.Holds w ((s.val l).tmod (s.val r)) := by
  have hl := val_holds s hw l
  have hle : ((s.val l).tmod (s.val r)).natAbs ≤ (s.val l).natAbs := by
    rw [Int.natAbs_tmod]
    exact Nat.mod_le _ _
  cases s with
  | unsigned =>
    simp only [Sign.Holds] at hl ⊢
    have hnonneg := Int.tmod_nonneg (Sign.unsigned.val r) hl.1
    omega
  | signed =>
    simp only [Sign.Holds] at hl ⊢
    rcases le_total 0 (Sign.signed.val l) with hsign | hsign
    · omega
    · have hnonpos : (Sign.signed.val l).tmod (Sign.signed.val r) ≤ 0 := by
        have := Int.tmod_nonneg (Sign.signed.val r) (neg_nonneg.mpr hsign)
        rw [Int.neg_tmod] at this
        omega
      omega

/-- Two values of one type that are congruent are less than `2 ^ w` apart, hence equal
if a third bound says so. -/
theorem holds_of_near {x : Int} {v : BitVec w} (hv : BitVec.ofInt w x = v)
    (hnear : |s.val v - x| < 2 ^ w) : s.Holds w x := by
  have hcongr : BitVec.ofInt w (s.val v - x) = 0 := by
    rw [sub_eq_add_neg, BitVec.ofInt_add, BitVec.ofInt_neg, ofInt_val, hv]
    exact BitVec.add_right_neg v
  have hdvd : ((2 ^ w : Nat) : Int) ∣ s.val v - x := by
    have h := congrArg BitVec.toNat hcongr
    have hpos : (0 : Int) < ((2 ^ w : Nat) : Int) := by positivity
    have hnonneg := Int.emod_nonneg (s.val v - x) (ne_of_gt hpos)
    simp at h
    push_cast at hnonneg ⊢
    omega
  have hzero : s.val v - x = 0 := by
    apply Int.eq_zero_of_abs_lt_dvd hdvd
    exact_mod_cast hnear
  have heq : x = s.val v := by omega
  rw [heq]
  exact val_holds s hw v

/-- The overflow test of a multiplication by dividing back. -/
theorem quot_mul_eq_iff (hl : s.val l ≠ 0) (hback : s.Holds w ((s.val (l * r)).tdiv (s.val l))) :
    s.quot (l * r) l = r ↔ s.Holds w (s.val l * s.val r) := by
  constructor
  · intro h
    have hquot : (s.val (l * r)).tdiv (s.val l) = s.val r := by rw [← val_quot hw hback, h]
    apply holds_of_near hw (ofInt_mul_val s l r)
    have hrem : s.val (l * r) - s.val l * s.val r = (s.val (l * r)).tmod (s.val l) := by
      rw [Int.tmod_def, hquot]
    rw [hrem]
    have hsmall : |(s.val (l * r)).tmod (s.val l)| < |s.val l| := by
      rw [← Int.natCast_natAbs, ← Int.natCast_natAbs, Int.natAbs_tmod]
      exact_mod_cast Nat.mod_lt _ (by omega)
    refine lt_of_lt_of_le hsmall ?_
    have hpow : (2 : Int) ^ (w - 1) ≤ 2 ^ w := pow_le_pow_right₀ (by norm_num) (by omega)
    have hrange := val_holds s hw l
    cases s with
    | unsigned =>
      obtain ⟨hlo, hhi⟩ := hrange
      rw [abs_of_nonneg hlo]
      exact le_of_lt hhi
    | signed =>
      obtain ⟨hlo, hhi⟩ := hrange
      rw [abs_le]
      constructor <;> omega
  · intro h
    apply val_injective (s := s)
    rw [val_quot hw hback, val_mul hw h, Int.mul_tdiv_cancel_left _ hl]

end Exact

end MachineWords
