import Ubpftrace.FoldLiterals

/-!
# The range checks of constant folding

Each operator of `eval_binop`, at each type and for each combination of signs, gives the
exact result if the literals have room for it and `nullopt` otherwise. Three cases are
overlooked: the least `int64_t` is subtracted and divided by -1 without a check, and a
product below it is checked when it is too late.
-/

namespace FoldLiterals

open MachineWords

namespace Variant

/-- A literal stands for `x`; negative numbers and only these are signed. -/
structure Represents (v : Variant) (x : Int) : Prop where
  value : v.type.val v.bits = x
  sign : v.type = .signed ↔ x < 0

end Variant

/-- `eval_binop` gives the exact result if there is room for it and `nullopt` otherwise. -/
structure Yields (o : Option Variant) (fits : Prop) (x : Int) : Prop where
  value : fits → ∃ v, o = some v ∧ v.Represents x
  refused : ¬ fits → o = none

variable {fits : Prop} {x : Int}

theorem yields_some {v : Variant} (hfits : fits) (hv : v.Represents x) :
    Yields (some v) fits x :=
  ⟨fun _ => ⟨v, rfl, hv⟩, fun h => absurd hfits h⟩

theorem yields_none (hfits : ¬ fits) : Yields none fits x :=
  ⟨fun h => absurd h hfits, fun _ => rfl⟩

variable {v : BitVec 64}

theorem represents_unsigned (h : (v.toNat : Int) = x) :
    (⟨.unsigned, v⟩ : Variant).Represents x :=
  ⟨h, by simp only [reduceCtorEq, false_iff]; omega⟩

theorem represents_signed (h : v.toInt = x) (hneg : x < 0) :
    (⟨.signed, v⟩ : Variant).Represents x :=
  ⟨h, by simp [hneg]⟩

theorem toNat_bound (v : BitVec 64) : v.toNat < 2 ^ 64 := v.isLt

theorem toInt_bounds (v : BitVec 64) : -2 ^ 63 ≤ v.toInt ∧ v.toInt < 2 ^ 63 :=
  val_holds .signed (by decide) v

theorem toInt_eq (v : BitVec 64) :
    v.toInt = if v.toNat < 2 ^ 63 then (v.toNat : Int) else v.toNat - 2 ^ 64 := by
  rw [BitVec.toInt_eq_toNat_cond]
  split <;> split <;> omega

variable {t : Sign}

theorem represents_clamp (h : t.val v = x) :
    (clamp t v).Represents x := by
  cases t with
  | unsigned => exact represents_unsigned h
  | signed =>
    have heq := toInt_eq v
    simp only [Sign.val] at h
    by_cases hnonneg : 0 ≤ v.toInt
    · simp only [clamp, hnonneg, and_self, if_true]
      apply represents_unsigned
      split at heq <;> omega
    · simp only [clamp, hnonneg, and_false, if_false]
      exact represents_signed h (by omega)

variable {l r : BitVec 64}

theorem toInt_add (hlo : -2 ^ 63 ≤ l.toInt + r.toInt) (hhi : l.toInt + r.toInt < 2 ^ 63) :
    (l + r).toInt = l.toInt + r.toInt :=
  val_add (s := .signed) (by decide) ⟨hlo, hhi⟩

theorem toInt_sub (hlo : -2 ^ 63 ≤ l.toInt - r.toInt) (hhi : l.toInt - r.toInt < 2 ^ 63) :
    (l - r).toInt = l.toInt - r.toInt :=
  val_sub (s := .signed) (by decide) ⟨hlo, hhi⟩

theorem toInt_neg (h : v.toInt ≠ -2 ^ 63) : (-v).toInt = -v.toInt := by
  have := toInt_bounds v
  rw [← BitVec.zero_sub, toInt_sub] <;> simp <;> omega

theorem toInt_int64Min : int64Min.toInt = -2 ^ 63 := by decide
theorem toInt_int64Max : int64Max.toInt = 2 ^ 63 - 1 := by decide
theorem toNat_int64Max : int64Max.toNat = 2 ^ 63 - 1 := by decide

theorem toNat_ne_zero (h : v ≠ 0) : v.toNat ≠ 0 := by
  intro hzero
  exact h (BitVec.eq_of_toNat_eq hzero)

theorem evalPlus_unsigned (l r : BitVec 64) :
    Yields (evalPlus .unsigned l r) ((l.toNat + r.toNat : Int) < 2 ^ 64) (l.toNat + r.toNat) := by
  have hl := toNat_bound l
  have hr := toNat_bound r
  have hsum : (l + r).toNat = (l.toNat + r.toNat) % 2 ^ 64 := BitVec.toNat_add l r
  simp only [evalPlus]
  by_cases hzero : l = 0 ∨ r = 0
  · rw [if_pos hzero]
    have hsmall : l.toNat + r.toNat < 2 ^ 64 := by
      rcases hzero with rfl | rfl <;> simpa
    refine yields_some (by omega) (represents_clamp ?_)
    simp only [Sign.val]
    omega
  · have hnonzero := not_or.mp hzero
    have := toNat_ne_zero hnonzero.1
    have := toNat_ne_zero hnonzero.2
    have hpos : 0 < Sign.unsigned.val l ∧ 0 < Sign.unsigned.val r := by
      simp only [Sign.val]
      omega
    rw [if_neg hzero, if_pos hpos]
    split
    · refine yields_some ?_ (represents_unsigned ?_) <;> omega
    · refine yields_none ?_
      omega

theorem toInt_ne_zero (h : v ≠ 0) : v.toInt ≠ 0 := by
  intro hzero
  exact h (BitVec.eq_of_toInt_eq hzero)

theorem evalPlus_signed (hneg : l.toInt < 0 ∨ r.toInt < 0) :
    Yields (evalPlus .signed l r) (-2 ^ 63 ≤ l.toInt + r.toInt) (l.toInt + r.toInt) := by
  have hl := toInt_bounds l
  have hr := toInt_bounds r
  simp only [evalPlus]
  by_cases hzero : l = 0 ∨ r = 0
  · rw [if_pos hzero]
    have hfits : -2 ^ 63 ≤ l.toInt + r.toInt ∧ l.toInt + r.toInt < 2 ^ 63 := by
      rcases hzero with rfl | rfl <;> simp only [BitVec.ofNat_eq_ofNat, BitVec.toInt_zero] <;> omega
    exact yields_some hfits.1 (represents_clamp (t := .signed) (toInt_add hfits.1 hfits.2))
  · have hnonzero := not_or.mp hzero
    have := toInt_ne_zero hnonzero.1
    have := toInt_ne_zero hnonzero.2
    have hpos : ¬ (0 < Sign.signed.val l ∧ 0 < Sign.signed.val r) := by
      simp only [Sign.val]
      omega
    rw [if_neg hzero, if_neg hpos]
    by_cases hmixed : (0 < l.toInt ∧ r.toInt < 0) ∨ (l.toInt < 0 ∧ 0 < r.toInt)
    · rw [if_pos hmixed]
      refine yields_some ?_ (represents_clamp (t := .signed) (toInt_add ?_ ?_)) <;> omega
    · have hsub : (int64Min - l).toInt = -2 ^ 63 - l.toInt := by
        rw [toInt_sub] <;> rw [toInt_int64Min] <;> omega
      have hboth : l.toInt < 0 ∧ r.toInt < 0 := by omega
      rw [if_neg hmixed, if_pos hboth, hsub]
      split
      · refine yields_none ?_
        omega
      · refine yields_some ?_ (represents_signed (toInt_add ?_ ?_) ?_) <;> omega

theorem evalMinus_unsigned (l r : BitVec 64) :
    Yields (evalMinus .unsigned l r) ((-2 ^ 63 : Int) ≤ l.toNat - r.toNat) (l.toNat - r.toNat) := by
  simp only [evalMinus]
  split
  · refine yields_some (by omega) (represents_unsigned ?_)
    rw [BitVec.toNat_sub]
    omega
  · have hdelta : (r - l - 1).toNat = r.toNat - l.toNat - 1 := by
      simp only [BitVec.toNat_sub, BitVec.ofNat_eq_ofNat, BitVec.toNat_ofNat]
      omega
    rw [hdelta, toNat_int64Max]
    split
    · refine yields_none ?_
      omega
    · have heq := toInt_eq (-(r - l - 1) - 1)
      have hbits : (-(r - l - 1) - 1).toNat = 2 ^ 64 - (r.toNat - l.toNat) := by
        simp only [BitVec.toNat_sub, BitVec.toNat_neg, BitVec.ofNat_eq_ofNat, BitVec.toNat_ofNat]
        omega
      refine yields_some (by omega) (represents_signed (heq.trans ?_) ?_) <;> omega

/-- The difference wraps for the least `int64_t`, whose negation wraps in the test. -/
theorem evalMinus_signed (hneg : l.toInt < 0 ∨ r.toInt < 0)
    (hleast : ¬ (0 ≤ l.toInt ∧ r.toInt = -2 ^ 63)) :
    Yields (evalMinus .signed l r) (-2 ^ 63 ≤ l.toInt - r.toInt ∧ l.toInt - r.toInt < 2 ^ 63)
      (l.toInt - r.toInt) := by
  have hl := toInt_bounds l
  have hr := toInt_bounds r
  simp only [evalMinus]
  by_cases hzero : r = 0
  · subst hzero
    simp only [BitVec.ofNat_eq_ofNat, BitVec.toInt_zero, sub_zero]
    exact yields_some hl (represents_clamp rfl)
  · rw [if_neg hzero]
    by_cases hover : 0 < l.toInt ∧ r.toInt < 0
    · have hmax : (int64Max - l).toInt = 2 ^ 63 - 1 - l.toInt := by
        rw [toInt_sub] <;> rw [toInt_int64Max] <;> omega
      rw [hmax, toInt_neg (by omega)]
      split
      · refine yields_none ?_
        omega
      · rw [if_neg (by omega)]
        refine yields_some ?_ (represents_clamp (t := .signed) (toInt_sub ?_ ?_)) <;> omega
    · rw [if_neg fun h => hover ⟨h.1, h.2.1⟩]
      by_cases hunder : l.toInt < 0 ∧ 0 < r.toInt
      · have hmin : (int64Min - l).toInt = -2 ^ 63 - l.toInt := by
          rw [toInt_sub] <;> rw [toInt_int64Min] <;> omega
        rw [hmin, toInt_neg (by omega)]
        split
        · refine yields_none ?_
          omega
        · refine yields_some ?_ (represents_clamp (t := .signed) (toInt_sub ?_ ?_)) <;> omega
      · rw [if_neg fun h => hunder ⟨h.1, h.2.1⟩]
        refine yields_some ?_ (represents_clamp (t := .signed) (toInt_sub ?_ ?_)) <;> omega

/-- The division traps exactly where the quotient has no value of its type. -/
theorem divides_iff (t : Sign) (l r : BitVec 64) :
    divides t l r ↔ ¬ (t = .signed ∧ t.val l = -2 ^ (64 - 1) ∧ t.val r = -1) := by
  apply not_congr
  apply and_congr_right
  rintro rfl
  refine and_congr ⟨?_, fun h => ?_⟩ ⟨?_, fun h => ?_⟩
  · rintro rfl
    exact toInt_int64Min
  · exact val_injective (h.trans toInt_int64Min.symm)
  · rintro rfl
    decide
  · exact val_injective (s := .signed) (h.trans (by decide))

theorem holds_unsigned_iff (x : Int) : Sign.unsigned.Holds 64 x ↔ 0 ≤ x ∧ x < 2 ^ 64 := Iff.rfl

theorem holds_signed_iff (x : Int) : Sign.signed.Holds 64 x ↔ -2 ^ 63 ≤ x ∧ x < 2 ^ 63 := Iff.rfl

theorem val_ne_zero (h : v ≠ 0) : t.val v ≠ 0 := by
  cases t with
  | unsigned => exact Int.natCast_ne_zero.mpr (toNat_ne_zero h)
  | signed => exact toInt_ne_zero h

/-- A product that is defined is divided back without a trap. -/
theorem divides_product (hmul : multiplies t l r) : divides t (l * r) l := by
  rw [divides_iff]
  rintro ⟨rfl, hleast, hone⟩
  have hr := toInt_bounds r
  rw [val_mul (by decide) (hmul rfl), hone] at hleast
  simp only [Sign.val] at hleast
  omega

theorem checkedProduct_yields (hl : l ≠ 0) (hmul : multiplies t l r) :
    ∃ o, checkedProduct t l r = some o ∧ Yields o (t.Holds 64 (t.val l * t.val r)) (t.val l * t.val r) := by
  have hdiv := divides_product hmul
  have hback := holds_tdiv (w := 64) (by decide) ((divides_iff t _ _).mp hdiv)
  have hcheck := quot_mul_eq_iff (by decide) (val_ne_zero hl) hback
  simp only [checkedProduct, quotient, if_pos hmul, if_pos hdiv, Option.bind_eq_bind, Option.bind_some]
  by_cases hfits : t.Holds 64 (t.val l * t.val r)
  · rw [if_neg (not_not.mpr (hcheck.mpr hfits))]
    exact ⟨_, rfl, yields_some hfits (represents_clamp (val_mul (by decide) hfits))⟩
  · rw [if_pos (fun h => hfits (hcheck.mp h))]
    exact ⟨_, rfl, yields_none hfits⟩

theorem yields_zero (x : Int) (fits : Prop) (hfits : fits) (hx : x = 0) :
    Yields (some ⟨.unsigned, 0⟩) fits x :=
  yields_some hfits (represents_unsigned (by simp [hx]))

theorem evalMul_unsigned (l r : BitVec 64) :
    ∃ o, evalMul .unsigned l r = some o ∧
      Yields o ((l.toNat * r.toNat : Int) < 2 ^ 64) (l.toNat * r.toNat) := by
  unfold evalMul
  by_cases hzero : l = 0 ∨ r = 0
  · have hprod : (l.toNat * r.toNat : Int) = 0 := by rcases hzero with rfl | rfl <;> simp
    rw [if_pos hzero]
    exact ⟨_, rfl, yields_zero _ _ (by omega) hprod⟩
  · obtain ⟨o, ho, hyields⟩ :=
      checkedProduct_yields (t := .unsigned) (r := r) (not_or.mp hzero).1 (by simp [multiplies])
    rw [if_neg hzero, if_neg (by simp)]
    refine ⟨o, ho, ?_⟩
    have hnonneg : (0 : Int) ≤ l.toNat * r.toNat := by positivity
    simpa only [holds_unsigned_iff, Sign.val, hnonneg, true_and] using hyields

/-- The magnitude of a negative `int64_t`, computed so that nothing overflows. -/
theorem toNat_magnitude (hneg : v.toInt < 0) : ((-(v + 1) + 1).toNat : Int) = -v.toInt := by
  have heq := toInt_eq v
  simp only [BitVec.toNat_add, BitVec.toNat_neg, BitVec.ofNat_eq_ofNat, BitVec.toNat_ofNat]
  split at heq <;> omega

theorem evalMul_negative (hl : l.toInt < 0) (hr : r.toInt < 0) :
    ∃ o, evalMul .signed l r = some o ∧ Yields o (l.toInt * r.toInt < 2 ^ 64) (l.toInt * r.toInt) := by
  have hmagl := toNat_magnitude hl
  have hmagr := toNat_magnitude hr
  have hzero : ¬ (l = 0 ∨ r = 0) := by rintro (rfl | rfl) <;> simp at hl hr
  have hlne : -(l + 1) + 1 ≠ 0 := by
    intro h
    rw [h] at hmagl
    simp at hmagl
    omega
  obtain ⟨o, ho, hyields⟩ :=
    checkedProduct_yields (t := .unsigned) (r := -(r + 1) + 1) hlne (by simp [multiplies])
  unfold evalMul
  rw [if_neg hzero, if_pos ⟨rfl, hl, hr⟩]
  refine ⟨o, ho, ?_⟩
  have hnonneg : 0 ≤ l.toInt * r.toInt := by nlinarith
  simpa only [holds_unsigned_iff, Sign.val, hmagl, hmagr, neg_mul_neg, hnonneg, true_and] using hyields

variable {a b : Int}

theorem mul_nonpos_of_mixed (hmixed : ¬ (0 ≤ a ↔ 0 ≤ b)) : a * b ≤ 0 := by
  rcases le_or_gt 0 a with ha | ha
  · have hb : b < 0 := by omega
    nlinarith
  · have hb : 0 ≤ b := by omega
    nlinarith

theorem evalMul_mixed (hmixed : ¬ (0 ≤ l.toInt ↔ 0 ≤ r.toInt)) (hroom : -2 ^ 63 ≤ l.toInt * r.toInt) :
    ∃ o, evalMul .signed l r = some o ∧ Yields o (-2 ^ 63 ≤ l.toInt * r.toInt) (l.toInt * r.toInt) := by
  have hnonpos := mul_nonpos_of_mixed hmixed
  unfold evalMul
  by_cases hzero : l = 0 ∨ r = 0
  · have hprod : l.toInt * r.toInt = 0 := by rcases hzero with rfl | rfl <;> simp
    rw [if_pos hzero]
    exact ⟨_, rfl, yields_zero _ _ (by omega) hprod⟩
  · have hhi : l.toInt * r.toInt < 2 ^ 63 := by omega
    obtain ⟨o, ho, hyields⟩ := checkedProduct_yields (not_or.mp hzero).1 fun _ => (holds_signed_iff _).mpr ⟨hroom, hhi⟩
    have hspill : ¬ (Sign.signed = .signed ∧ l.toInt < 0 ∧ r.toInt < 0) := by
      omega
    rw [if_neg hzero, if_neg hspill]
    refine ⟨o, ho, ?_⟩
    simpa only [holds_signed_iff, Sign.val, hhi, and_true] using hyields

theorem Yields.congr {o : Option Variant} {fits' : Prop} (h : Yields o fits x)
    (hiff : fits ↔ fits') : Yields o fits' x :=
  ⟨fun hf => h.value (hiff.mpr hf), fun hf => h.refused (fun hf' => hf (hiff.mp hf'))⟩

/-- The two operands at the type `eval_binop` is instantiated at. -/
structure Operands (t : Sign) (l r : BitVec 64) (a b : Int) : Prop where
  left : t.val l = a
  right : t.val r = b
  signed : t = .signed → a < 0 ∨ b < 0

theorem fits_unsigned_iff (x : Int) :
    Fits l.toNat r.toNat x ↔ -2 ^ 63 ≤ x ∧ x < 2 ^ 64 := by
  simp [Fits]

theorem fits_signed_iff (l r : BitVec 64) (x : Int) :
    Fits l.toInt r.toInt x ↔ -2 ^ 63 ≤ x ∧ if (0 ≤ l.toInt ↔ 0 ≤ r.toInt) then x < 2 ^ 64 else x < 2 ^ 63 := by
  have hl := toInt_bounds l
  have hr := toInt_bounds r
  unfold Fits
  split <;> simp only [hl.2, hr.2, true_and]

/-- What `eval_binop` makes of an arithmetic operator. -/
def Computes (o : Option Variant) (a b : Int) : Option Int → Prop
  | some x => Yields o (Fits a b x) x
  | none => o = none

theorem evalBinop_plus (h : Operands t l r a b) :
    ∃ o, evalBinop t l r .plus = some o ∧ Computes o a b (exactArith .plus a b) := by
  obtain ⟨rfl, rfl, hsigned⟩ := h
  refine ⟨_, rfl, ?_⟩
  cases t with
  | unsigned =>
    apply (evalPlus_unsigned l r).congr
    simp only [Sign.val, fits_unsigned_iff]
    omega
  | signed =>
    have hl := toInt_bounds l
    have hr := toInt_bounds r
    have hneg := hsigned rfl
    apply (evalPlus_signed hneg).congr
    simp only [Sign.val, fits_signed_iff]
    split <;> omega

theorem evalBinop_minus (h : Operands t l r a b)
    (hno : ¬ Overflows .minus a b) :
    ∃ o, evalBinop t l r .minus = some o ∧ Computes o a b (exactArith .minus a b) := by
  obtain ⟨rfl, rfl, hsigned⟩ := h
  refine ⟨_, rfl, ?_⟩
  cases t with
  | unsigned =>
    apply (evalMinus_unsigned l r).congr
    simp only [Sign.val, fits_unsigned_iff]
    omega
  | signed =>
    have hl := toInt_bounds l
    have hr := toInt_bounds r
    have hneg := hsigned rfl
    simp only [Sign.val, Overflows, true_and, reduceCtorEq, false_and, or_false] at hneg hno
    apply (evalMinus_signed hneg (by omega)).congr
    simp only [Sign.val, fits_signed_iff]
    split <;> omega

theorem evalBinop_mul (h : Operands t l r a b) (hno : ¬ Overflows .mul a b) :
    ∃ o, evalBinop t l r .mul = some o ∧ Computes o a b (exactArith .mul a b) := by
  obtain ⟨rfl, rfl, hsigned⟩ := h
  cases t with
  | unsigned =>
    obtain ⟨o, ho, hyields⟩ := evalMul_unsigned l r
    refine ⟨o, ho, hyields.congr ?_⟩
    have hnonneg : (0 : Int) ≤ l.toNat * r.toNat := by positivity
    simp only [Sign.val, fits_unsigned_iff]
    omega
  | signed =>
    have hneg := hsigned rfl
    simp only [Sign.val] at hneg
    by_cases hmixed : (0 ≤ l.toInt ↔ 0 ≤ r.toInt)
    · have hl : l.toInt < 0 := by omega
      have hr : r.toInt < 0 := by omega
      obtain ⟨o, ho, hyields⟩ := evalMul_negative hl hr
      refine ⟨o, ho, hyields.congr ?_⟩
      have hnonneg : 0 ≤ l.toInt * r.toInt := by nlinarith
      simp only [Sign.val, fits_signed_iff, if_pos hmixed]
      omega
    · have hl := toInt_bounds l
      have hr := toInt_bounds r
      simp only [Sign.val, Overflows, true_and, reduceCtorEq, false_and, or_self, false_or] at hno
      obtain ⟨o, ho, hyields⟩ := evalMul_mixed hmixed (by omega)
      refine ⟨o, ho, hyields.congr ?_⟩
      have hnonpos := mul_nonpos_of_mixed hmixed
      simp only [Sign.val, fits_signed_iff, if_neg hmixed]
      omega

theorem fits_of_holds (h : t.Holds 64 x) :
    Fits (t.val l) (t.val r) x := by
  cases t with
  | unsigned =>
    rw [holds_unsigned_iff] at h
    simp only [Sign.val, fits_unsigned_iff]
    omega
  | signed =>
    rw [holds_signed_iff] at h
    simp only [Sign.val, fits_signed_iff]
    split <;> omega

theorem val_eq_zero_iff : t.val v = 0 ↔ v = 0 := by
  refine ⟨fun h => by_contra fun hne => val_ne_zero hne h, ?_⟩
  rintro rfl
  cases t <;> simp [Sign.val]

section

variable (h : Operands t l r a b)
include h

theorem evalBinop_div_mod {op : Operator} (hdiv : divides t l r) (hop : op = .div ∨ op = .mod) :
    ∃ o, evalBinop t l r op = some o ∧ Computes o a b (exactArith op a b) := by
  obtain ⟨rfl, rfl, -⟩ := h
  by_cases hzero : r = 0
  · obtain rfl | rfl := hop <;> simp only [evalBinop, exactArith, val_eq_zero_iff, if_pos hzero]
    all_goals exact ⟨none, rfl, rfl⟩
  · have hquot := holds_tdiv (w := 64) (by decide) ((divides_iff t l r).mp hdiv)
    have hrem : t.Holds 64 ((t.val l).tmod (t.val r)) := holds_tmod (by decide)
    obtain rfl | rfl := hop <;>
      simp only [evalBinop, exactArith, val_eq_zero_iff, if_neg hzero, quotient, remainder, if_pos hdiv]
    · exact ⟨_, rfl, yields_some (fits_of_holds hquot) (represents_clamp (val_quot (by decide) hquot))⟩
    · exact ⟨_, rfl, yields_some (fits_of_holds hrem) (represents_clamp (val_rem (by decide) hrem))⟩

theorem Operands.divides_iff : divides t l r ↔ ¬ (a = -2 ^ 63 ∧ b = -1) := by
  obtain ⟨rfl, rfl, -⟩ := h
  rw [FoldLiterals.divides_iff, not_iff_not]
  cases t with
  | unsigned =>
    simp only [reduceCtorEq, false_and, Sign.val, false_iff]
    omega
  | signed => simp

/-- `eval_binop` computes every arithmetic operator within the ranges the folder admits,
but for the operands it overlooks. -/
theorem evalBinop_computes {op : Operator} (hop : op.isArithmetic = true) (hno : ¬ Overflows op a b) :
    ∃ o, evalBinop t l r op = some o ∧ Computes o a b (exactArith op a b) := by
  cases op with
  | plus => exact evalBinop_plus h
  | minus => exact evalBinop_minus h hno
  | mul => exact evalBinop_mul h hno
  | div => exact evalBinop_div_mod h (h.divides_iff.mpr fun hab => hno (.inr (.inl ⟨.inl rfl, hab⟩))) (.inl rfl)
  | mod => exact evalBinop_div_mod h (h.divides_iff.mpr fun hab => hno (.inr (.inl ⟨.inr rfl, hab⟩))) (.inr rfl)
  | _ => simp [Operator.isArithmetic] at hop

end

end FoldLiterals
