import Ubpftrace.FoldExact

/-!
# Folded literals and emitted code

`CodegenLLVM::binop_int` on two variables of 64 bits, compared with the literal that
folding puts in the place of the expression. The code divides and shifts to the right
without a sign and compares with a sign as soon as one operand has one.
-/

namespace FoldLiterals

open MachineWords

/-- What an expression leaves in a register: a word or the `i1` of a comparison. -/
inductive Value where
  | i64 (v : BitVec 64)
  | i1 (b : Bool)
  deriving DecidableEq

def Value.word : Value → BitVec 64
  | .i64 v => v
  | .i1 b => if b then 1 else 0

/-- `IRBuilderBPF::CreateCheckedBinop`: a zero divisor is reported at run time and the
result is 1. -/
def createCheckedBinop (op : Operator) (lhs rhs : BitVec 64) : BitVec 64 :=
  if rhs = 0 then 1
  else if op = .mod then lhs % rhs
  else lhs / rhs

/-- `CodegenLLVM::visit(Binop &)` on integers: `&&` and `||` by branches on zero, the rest
by `binop_int`. Both operands have 64 bits already. -/
def emit (op : Operator) (ltype rtype : Sign) (lhs rhs : BitVec 64) : Value :=
  let doSigned : Bool := ltype = .signed || rtype = .signed
  match op with
  | .eq => .i1 (lhs = rhs)
  | .ne => .i1 (lhs ≠ rhs)
  | .le => .i1 (if doSigned then lhs.sle rhs else lhs.ule rhs)
  | .ge => .i1 (if doSigned then rhs.sle lhs else rhs.ule lhs)
  | .lt => .i1 (if doSigned then lhs.slt rhs else lhs.ult rhs)
  | .gt => .i1 (if doSigned then rhs.slt lhs else rhs.ult lhs)
  | .left => .i64 (lhs <<< rhs)
  | .right => .i64 (lhs >>> rhs)
  | .plus => .i64 (lhs + rhs)
  | .minus => .i64 (lhs - rhs)
  | .mul => .i64 (lhs * rhs)
  | .div | .mod => .i64 (createCheckedBinop op lhs rhs)
  | .band => .i64 (lhs &&& rhs)
  | .bor => .i64 (lhs ||| rhs)
  | .bxor => .i64 (lhs ^^^ rhs)
  | .land => .i1 (lhs ≠ 0 ∧ rhs ≠ 0)
  | .lor => .i1 (lhs ≠ 0 ∨ rhs ≠ 0)

def word : Node → Option (BitVec 64)
  | .integer v => some v
  | .negativeInteger v => some v
  | .boolean b => some (Value.i1 b).word
  | _ => none

/-! ## The words that folding computes -/

theorem clamp_bits (t : Sign) (v : BitVec 64) : (clamp t v).bits = v := by
  unfold clamp
  split <;> rfl

variable {l r : BitVec 64} {v : Variant}

theorem evalPlus_bits {t : Sign} (h : evalPlus t l r = some v) : v.bits = l + r := by
  unfold evalPlus at h
  split at h
  · cases h
    exact clamp_bits _ _
  · split at h
    · simp only [Option.ite_none_right_eq_some, Option.some.injEq] at h
      obtain ⟨-, rfl⟩ := h
      rfl
    · cases t with
      | unsigned => cases h
      | signed =>
        simp only at h
        split at h
        · cases h
          exact clamp_bits _ _
        · simp only [Option.ite_none_right_eq_some, Option.ite_none_left_eq_some, Option.some.injEq] at h
          obtain ⟨-, -, rfl⟩ := h
          rfl

theorem evalMinus_bits {t : Sign} (h : evalMinus t l r = some v) : v.bits = l - r := by
  unfold evalMinus at h
  cases t with
  | unsigned =>
    simp only at h
    split at h
    · cases h
      rfl
    · simp only [Option.ite_none_left_eq_some, Option.some.injEq] at h
      obtain ⟨-, rfl⟩ := h
      ring
  | signed =>
    simp only at h
    split at h
    · rename_i hzero
      cases h
      rw [clamp_bits, hzero]
      exact (BitVec.sub_zero l).symm
    · simp only [Option.ite_none_left_eq_some, Option.some.injEq] at h
      obtain ⟨-, -, rfl⟩ := h
      exact clamp_bits _ _

theorem checkedProduct_bits {t : Sign} (h : checkedProduct t l r = some (some v)) : v.bits = l * r := by
  simp only [checkedProduct, Option.ite_none_right_eq_some, Option.bind_eq_bind, Option.bind_eq_some_iff] at h
  obtain ⟨-, back, -, h⟩ := h
  split at h <;> simp only [Option.pure_def, Option.some.injEq, reduceCtorEq] at h
  rw [← h]
  exact clamp_bits _ _

theorem evalMul_bits {t : Sign} (h : evalMul t l r = some (some v)) : v.bits = l * r := by
  unfold evalMul at h
  split at h
  · rename_i hzero
    cases h
    rcases hzero with rfl | rfl
    · exact (BitVec.zero_mul (x := r)).symm
    · exact (BitVec.mul_zero (x := l)).symm
  · split at h
    · rw [checkedProduct_bits h]
      ring
    · exact checkedProduct_bits h

/-! ## Where signed and unsigned operations agree -/

theorem toNat_of_neg {v : BitVec 64} (h : v.toInt < 0) : (v.toNat : Int) = v.toInt + 2 ^ 64 := by
  have heq := toInt_eq v
  split at heq <;> omega

theorem toNat_of_nonneg {v : BitVec 64} (h : 0 ≤ v.toInt) : (v.toNat : Int) = v.toInt := by
  have heq := toInt_eq v
  split at heq <;> omega

theorem sshiftRight_eq_iff (hr : r.toNat < 64) :
    l.sshiftRight r.toNat = l >>> r ↔ 0 ≤ l.toInt ∨ r.toInt = 0 := by
  have hmsb := @BitVec.msb_eq_toInt _ l
  rw [BitVec.ushiftRight_eq']
  rcases le_or_gt 0 l.toInt with hl | hl
  · rw [BitVec.sshiftRight_eq_of_msb_false (by rw [hmsb]; simpa using hl)]
    simp [hl]
  · by_cases hzero : r.toNat = 0
    · obtain rfl : r = 0 := BitVec.eq_of_toNat_eq hzero
      simp
    · -- the arithmetic shift keeps the top bit, the logical one clears it
      have hne : r.toInt ≠ 0 := toInt_ne_zero fun h => hzero (by rw [h]; rfl)
      simp only [not_le.mpr hl, hne, or_self, iff_false]
      intro heq
      have htop := congrArg BitVec.msb heq
      rw [BitVec.msb_sshiftRight, hmsb, BitVec.msb_eq_toNat, BitVec.toNat_ushiftRight, Nat.shiftRight_eq_div_pow,
        decide_eq_true hl] at htop
      have hhalf : l.toNat / 2 ^ r.toNat ≤ l.toNat / 2 :=
        Nat.div_le_div_left (Nat.le_self_pow hzero 2) (by decide)
      have htop' := of_decide_eq_true htop.symm
      omega

section Magnitudes

-- magnitudes of negative `int64_t` values
variable {n m : Nat} (hn : 0 < n) (hn' : n ≤ 2 ^ 63) (hm : 0 < m) (hm' : m ≤ 2 ^ 63)
include hn hn' hm hm'

theorem quot_neg_pos (hlt : m < 2 ^ 63) : (2 ^ 64 - n / m) % 2 ^ 64 = (2 ^ 64 - n) / m ↔ m = 1 := by
  refine ⟨fun h => ?_, fun h => ?_⟩
  · by_contra hne
    have htwo : n / m ≤ n / 2 := Nat.div_le_div_left (by omega) (by decide)
    have hhalf : (2 ^ 64 - n) / m ≤ (2 ^ 64 - n) / 2 := Nat.div_le_div_left (by omega) (by decide)
    have hpos : 0 < (2 ^ 64 - n) / m := Nat.div_pos (by omega) hm
    generalize n / m = q at *
    omega
  · rw [h, Nat.div_one, Nat.div_one]
    omega

theorem quot_neg_neg : n / m = (2 ^ 64 - n) / (2 ^ 64 - m) ↔ n = m := by
  refine ⟨fun h => ?_, fun h => ?_⟩
  · by_contra hne
    rcases Nat.lt_or_gt_of_ne hne with hlt | hgt
    · rw [Nat.div_eq_of_lt hlt] at h
      have := Nat.div_pos (a := 2 ^ 64 - n) (b := 2 ^ 64 - m) (by omega) (by omega)
      omega
    · rw [Nat.div_eq_of_lt (a := 2 ^ 64 - n) (by omega)] at h
      have := Nat.div_pos (a := n) (b := m) (by omega) hm
      omega
  · rw [h, Nat.div_self hm, Nat.div_self (by omega)]

theorem rem_neg_pos (hlt : m < 2 ^ 63) :
    (2 ^ 64 - n % m) % 2 ^ 64 = (2 ^ 64 - n) % m ↔ m ∣ n ∧ m ∣ 2 ^ 64 := by
  have hlow := Nat.mod_lt n hm
  have hhigh := Nat.mod_lt (2 ^ 64 - n) hm
  by_cases hdvd : m ∣ n
  · have hzero : n % m = 0 := Nat.mod_eq_zero_of_dvd hdvd
    have hsub : m ∣ 2 ^ 64 - n ↔ m ∣ 2 ^ 64 := Nat.dvd_sub_iff_left (by omega) hdvd
    rw [hzero, Nat.sub_zero, Nat.mod_self, ← hsub, Nat.dvd_iff_mod_eq_zero (n := 2 ^ 64 - n)]
    exact ⟨fun h => ⟨hdvd, h.symm⟩, fun h => h.2.symm⟩
  · omega

theorem rem_neg_neg : (2 ^ 64 - n % m) % 2 ^ 64 = (2 ^ 64 - n) % (2 ^ 64 - m) ↔ n = m := by
  have hlow := Nat.mod_lt n hm
  refine ⟨fun h => ?_, fun h => ?_⟩
  · by_contra hne
    rcases Nat.lt_or_gt_of_ne hne with hlt | hgt
    · have hrem : (2 ^ 64 - n) % (2 ^ 64 - m) = m - n := by
        rw [Nat.mod_eq_sub_mod (by omega), Nat.mod_eq_of_lt (by omega)]
        omega
      omega
    · rw [Nat.mod_eq_of_lt (a := 2 ^ 64 - n) (b := 2 ^ 64 - m) (by omega)] at h
      omega
  · rw [h, Nat.mod_self, Nat.mod_self, Nat.sub_zero, Nat.mod_self]

end Magnitudes

theorem quot_pos_neg {a m : Nat} (ha : a < 2 ^ 63) (hm : 0 < m) (hm' : m ≤ 2 ^ 63) :
    (2 ^ 64 - a / m) % 2 ^ 64 = a / (2 ^ 64 - m) ↔ a < m := by
  have hle : a / m ≤ a := Nat.div_le_self a m
  have hzero := Nat.div_eq_zero_iff (a := a) (b := m)
  rw [Nat.div_eq_of_lt (a := a) (b := 2 ^ 64 - m) (by omega)]
  generalize a / m = q at *
  omega

theorem rem_pos_neg {a m : Nat} (ha : a < 2 ^ 63) (hm : 0 < m) (hm' : m ≤ 2 ^ 63) :
    a % m = a % (2 ^ 64 - m) ↔ a < m := by
  rw [Nat.mod_eq_of_lt (a := a) (b := 2 ^ 64 - m) (by omega), Nat.mod_eq_iff_lt (by omega)]

theorem toNat_neg_of_neg {v : BitVec 64} (h : v.toInt < 0) :
    ((-v).toNat : Int) = -v.toInt ∧ v.toNat = 2 ^ 64 - (-v).toNat := by
  have hbits := toNat_of_neg h
  have hbound := toInt_bounds v
  rw [BitVec.toNat_neg]
  omega

section SignedWords

variable {l r : BitVec 64} (hr : r ≠ 0) (hneg : l.toInt < 0 ∨ r.toInt < 0)
include hr hneg

/-- Signed and unsigned quotients of words that are not both non-negative. -/
theorem sdiv_eq_udiv_iff : l.sdiv r = l / r ↔
    (l.toInt < 0 ∧ r.toInt = 1) ∨ (0 ≤ l.toInt ∧ l.toInt < -r.toInt) ∨ (l.toInt < 0 ∧ l.toInt = r.toInt) := by
  have hl0 := toInt_bounds l
  have hr0 := toInt_bounds r
  have hrne := toInt_ne_zero hr
  rw [← BitVec.toNat_inj, BitVec.toNat_sdiv, BitVec.msb_eq_toInt, BitVec.msb_eq_toInt, BitVec.toNat_udiv]
  rcases le_or_gt 0 l.toInt with hl | hl
  · have hr' : r.toInt < 0 := by omega
    have hnl := toNat_of_nonneg hl
    obtain ⟨hmr, hcompl⟩ := toNat_neg_of_neg hr'
    simp only [decide_eq_false (not_lt.mpr hl), decide_eq_true hr', BitVec.udiv_eq]
    rw [BitVec.toNat_neg, BitVec.toNat_udiv, hcompl, quot_pos_neg (by omega) (by omega) (by omega)]
    omega
  · obtain ⟨hml, hcompl⟩ := toNat_neg_of_neg hl
    rcases le_or_gt 0 r.toInt with hr' | hr'
    · have hnr := toNat_of_nonneg hr'
      simp only [decide_eq_true hl, decide_eq_false (not_lt.mpr hr'), BitVec.udiv_eq]
      rw [BitVec.toNat_neg, BitVec.toNat_udiv, hcompl,
        quot_neg_pos (by omega) (by omega) (by omega) (by omega) (by omega)]
      omega
    · obtain ⟨hmr, hcompr⟩ := toNat_neg_of_neg hr'
      simp only [decide_eq_true hl, decide_eq_true hr', BitVec.udiv_eq]
      rw [BitVec.toNat_udiv, hcompl, hcompr, quot_neg_neg (by omega) (by omega) (by omega) (by omega)]
      omega

theorem srem_eq_umod_iff : l.srem r = l % r ↔
    (l.toInt < 0 ∧ 0 < r.toInt ∧ r.toInt ∣ l.toInt ∧ r.toInt ∣ 2 ^ 64) ∨
      (0 ≤ l.toInt ∧ l.toInt < -r.toInt) ∨ (l.toInt < 0 ∧ l.toInt = r.toInt) := by
  have hl0 := toInt_bounds l
  have hr0 := toInt_bounds r
  have hrne := toInt_ne_zero hr
  rw [← BitVec.toNat_inj, BitVec.toNat_srem, BitVec.msb_eq_toInt, BitVec.msb_eq_toInt, BitVec.toNat_umod]
  rcases le_or_gt 0 l.toInt with hl | hl
  · have hr' : r.toInt < 0 := by omega
    have hnl := toNat_of_nonneg hl
    obtain ⟨hmr, hcompl⟩ := toNat_neg_of_neg hr'
    simp only [decide_eq_false (not_lt.mpr hl), decide_eq_true hr']
    rw [hcompl, rem_pos_neg (by omega) (by omega) (by omega)]
    omega
  · obtain ⟨hml, hcompl⟩ := toNat_neg_of_neg hl
    rcases le_or_gt 0 r.toInt with hr' | hr'
    · have hnr := toNat_of_nonneg hr'
      have hdvd : r.toNat ∣ (-l).toNat ↔ r.toInt ∣ l.toInt := by
        rw [← Int.natCast_dvd_natCast, hnr, hml, Int.dvd_neg]
      have hpow : r.toNat ∣ 2 ^ 64 ↔ r.toInt ∣ 2 ^ 64 := by
        rw [← Int.natCast_dvd_natCast, hnr]
        rfl
      simp only [decide_eq_true hl, decide_eq_false (not_lt.mpr hr')]
      rw [BitVec.toNat_neg, BitVec.toNat_umod, hcompl,
        rem_neg_pos (by omega) (by omega) (by omega) (by omega) (by omega), hdvd, hpow]
      have hpos : 0 < r.toInt := by omega
      have hlast : ¬ l.toInt = r.toInt := by omega
      simp [hl, hpos, not_le.mpr hl, hlast]
    · obtain ⟨hmr, hcompr⟩ := toNat_neg_of_neg hr'
      simp only [decide_eq_true hl, decide_eq_true hr']
      rw [BitVec.toNat_neg, BitVec.toNat_umod, hcompl, hcompr,
        rem_neg_neg (by omega) (by omega) (by omega) (by omega)]
      omega

end SignedWords

/-! ## Folding against code generation -/

/-- Where the literal equals the emitted code's result, for operands `a` and `b` in
variables of the types `ltype` and `rtype`. -/
def Agree (op : Operator) (ltype rtype : Sign) (a b : Int) : Prop :=
  match op with
  | .right => 0 ≤ a ∨ b = 0
  | .div => (0 ≤ a ∧ 0 ≤ b) ∨ (a < 0 ∧ b = 1) ∨ (0 ≤ a ∧ a < -b) ∨ (a < 0 ∧ a = b)
  | .mod => (0 ≤ a ∧ 0 ≤ b) ∨ (a < 0 ∧ 0 < b ∧ b ∣ a ∧ b ∣ 2 ^ 64) ∨ (0 ≤ a ∧ a < -b) ∨ (a < 0 ∧ a = b)
  | .le | .ge | .lt | .gt => ltype = .signed ∨ rtype = .signed → a < 2 ^ 63 ∧ b < 2 ^ 63
  | _ => True

theorem val_unique {s t : Sign} {u v : BitVec 64} (h : s.val u = t.val v) : u = v := by
  rw [← ofInt_val s u, h, ofInt_val]

theorem word_i1_inj {p q : Bool} : (Value.i1 p).word = (Value.i1 q).word ↔ p = q := by
  cases p <;> cases q <;> decide

/-- The number that an order comparison of the emitted code takes a word for. -/
def compared (t u : Sign) (v : BitVec 64) : Int :=
  if t = .signed ∨ u = .signed then v.toInt else v.toNat

section

variable (t u : Sign) (l r : BitVec 64)

theorem emit_le : emit .le t u l r = .i1 (compared t u l ≤ compared t u r) := by
  simp only [emit, compared]
  cases t <;> cases u <;> simp [BitVec.sle_eq_decide, BitVec.ule_eq_decide]

theorem emit_ge : emit .ge t u l r = .i1 (compared t u r ≤ compared t u l) := by
  simp only [emit, compared]
  cases t <;> cases u <;> simp [BitVec.sle_eq_decide, BitVec.ule_eq_decide]

theorem emit_lt : emit .lt t u l r = .i1 (compared t u l < compared t u r) := by
  simp only [emit, compared]
  cases t <;> cases u <;> simp [BitVec.slt_eq_decide, BitVec.ult_eq_decide]

theorem emit_gt : emit .gt t u l r = .i1 (compared t u r < compared t u l) := by
  simp only [emit, compared]
  cases t <;> cases u <;> simp [BitVec.slt_eq_decide, BitVec.ult_eq_decide]

end

section EmittedComparisons

variable {s t u : Sign} {l r : BitVec 64} {a b : Int} (h : Operands s l r a b) (ht : t.val l = a)
  (hu : u.val r = b)
include h ht hu

/-- The emitted comparison sees the operands' values, or it sees them in the opposite
order because one of them is above the signed range. -/
theorem compared_cases :
    ((t = .signed ∨ u = .signed → a < 2 ^ 63 ∧ b < 2 ^ 63) ∧ compared t u l = a ∧ compared t u r = b) ∨
      (¬ (t = .signed ∨ u = .signed → a < 2 ^ 63 ∧ b < 2 ^ 63) ∧
        ((b < a ∧ compared t u l < compared t u r) ∨ (a < b ∧ compared t u r < compared t u l))) := by
  have hl := toInt_eq l
  have hr := toInt_eq r
  obtain ⟨hsl, hsr, -⟩ := h
  unfold compared
  cases s <;> cases t <;> cases u <;>
    simp only [Sign.val, reduceCtorEq, or_self, or_true, true_or, forall_const, if_true, if_false,
      IsEmpty.forall_iff, true_and] at * <;>
    split at hl <;> split at hr <;> omega

theorem order_agrees_iff {p q : Prop} [Decidable p] [Decidable q]
    (hsame : compared t u l = a → compared t u r = b → (p ↔ q))
    (hflip : (b < a ∧ compared t u l < compared t u r) ∨ (a < b ∧ compared t u r < compared t u l) → ¬ (p ↔ q)) :
    (Value.i1 (decide p)).word = (Value.i1 (decide q)).word ↔
      (t = .signed ∨ u = .signed → a < 2 ^ 63 ∧ b < 2 ^ 63) := by
  rw [word_i1_inj, decide_eq_decide]
  rcases compared_cases h ht hu with ⟨hok, hl, hr⟩ | ⟨hbad, horder⟩
  · exact iff_of_true (hsame hl hr) hok
  · exact iff_of_false (hflip horder) hbad

theorem comparison_agrees_iff {op : Operator} {c : Int → Int → Bool} (hc : comparison op = some c) :
    (Value.i1 (c a b)).word = (emit op t u l r).word ↔ Agree op t u a b := by
  have hl0 : l = 0#64 ↔ a = 0 := by rw [← ht, val_eq_zero_iff]; rfl
  have hr0 : r = 0#64 ↔ b = 0 := by rw [← hu, val_eq_zero_iff]; rfl
  have heq : l = r ↔ a = b := by
    rw [← h.left, ← h.right]
    exact ⟨fun h => h ▸ rfl, val_injective⟩
  cases op <;> simp only [comparison, Option.some.injEq, reduceCtorEq] at hc <;> subst hc
  case eq => simp [emit, Agree, heq]
  case ne => simp [emit, Agree, heq]
  case land => simp [emit, Agree, hl0, hr0]
  case lor => simp [emit, Agree, hl0, hr0]
  case le =>
    rw [emit_le]
    apply order_agrees_iff h ht hu <;> omega
  case ge =>
    rw [emit_ge]
    apply order_agrees_iff h ht hu <;> omega
  case lt =>
    rw [emit_lt]
    apply order_agrees_iff h ht hu <;> omega
  case gt =>
    rw [emit_gt]
    apply order_agrees_iff h ht hu <;> omega

end EmittedComparisons

section EmittedWords

variable {s t u : Sign} {l r : BitVec 64} {a b : Int} (h : Operands s l r a b)
include h

theorem quot_rem_agree_iff (hr : r ≠ 0) :
    (s.quot l r = l / r ↔ Agree .div t u a b) ∧ (s.rem l r = l % r ↔ Agree .mod t u a b) := by
  obtain ⟨rfl, rfl, hsigned⟩ := h
  cases s with
  | unsigned =>
    have hboth : 0 ≤ (l.toNat : Int) ∧ 0 ≤ (r.toNat : Int) := ⟨Int.natCast_nonneg _, Int.natCast_nonneg _⟩
    exact ⟨iff_of_true rfl (.inl hboth), iff_of_true rfl (.inl hboth)⟩
  | signed =>
    have hneg : l.toInt < 0 ∨ r.toInt < 0 := hsigned rfl
    have hboth : ¬ (0 ≤ l.toInt ∧ 0 ≤ r.toInt) := by omega
    simp only [Sign.quot, Sign.rem, Sign.val, Agree, hboth, false_or]
    exact ⟨sdiv_eq_udiv_iff hr hneg, srem_eq_umod_iff hr hneg⟩

theorem shift_agrees_iff (hr : ¬ (s.val r < 0 ∨ 64 ≤ s.val r)) :
    shiftRight s l r = l >>> r ↔ Agree .right t u a b := by
  obtain ⟨rfl, rfl, -⟩ := h
  cases s with
  | unsigned => exact iff_of_true rfl (.inl (Int.natCast_nonneg _))
  | signed =>
    simp only [Sign.val, not_or, not_lt, not_le] at hr
    have hnat := toNat_of_nonneg hr.1
    exact sshiftRight_eq_iff (by omega)

theorem evalBinop_agrees_iff {op : Operator} (hv : evalBinop s l r op = some (some v)) :
    v.bits = (emit op t u l r).word ↔ Agree op t u a b := by
  cases op with
  | plus =>
    simp only [evalBinop, Option.some.injEq] at hv
    simp [emit, Agree, Value.word, evalPlus_bits hv]
  | minus =>
    simp only [evalBinop, Option.some.injEq] at hv
    simp [emit, Agree, Value.word, evalMinus_bits hv]
  | mul => simp [emit, Agree, Value.word, evalMul_bits hv]
  | div =>
    simp only [evalBinop] at hv
    split at hv
    · cases hv
    · rename_i hzero
      simp only [quotient, Option.map_eq_some_iff, Option.ite_none_right_eq_some, Option.some.injEq] at hv
      obtain ⟨_, ⟨-, rfl⟩, rfl⟩ := hv
      simp only [clamp_bits, emit, Value.word, createCheckedBinop, if_neg hzero, reduceCtorEq, if_false]
      exact (quot_rem_agree_iff h hzero).1
  | mod =>
    simp only [evalBinop] at hv
    split at hv
    · cases hv
    · rename_i hzero
      simp only [remainder, Option.map_eq_some_iff, Option.ite_none_right_eq_some, Option.some.injEq] at hv
      obtain ⟨_, ⟨-, rfl⟩, rfl⟩ := hv
      simp only [clamp_bits, emit, Value.word, createCheckedBinop, if_neg hzero, if_true]
      exact (quot_rem_agree_iff h hzero).2
  | band | bor | bxor =>
    simp only [evalBinop, Option.some.injEq] at hv
    simp [emit, Agree, Value.word, ← hv, clamp_bits]
  | left =>
    simp only [evalBinop] at hv
    split at hv
    · cases hv
    · cases hv
      simp [emit, Agree, Value.word, clamp_bits]
  | right =>
    simp only [evalBinop] at hv
    split at hv
    · cases hv
    · rename_i hamount
      cases hv
      simp only [clamp_bits, emit, Value.word]
      exact shift_agrees_iff h hamount
  | _ => simp [evalBinop] at hv

end EmittedWords

theorem fold_literal {n : Node} {x : Exact} (h : Denotes n x) : fold n = some (n, []) := by
  cases h <;> rfl

theorem word_toNode (v : Variant) : word v.toNode = some v.bits := by
  obtain ⟨type, bits⟩ := v
  cases type <;> rfl

/-- The literal that folding puts in the place of two literals is the word that the
emitted code computes for variables that hold them, exactly under the conditions of
`Agree`. -/
theorem folded_eq_emitted_iff {op : Operator} {left right m : Node} {ltype rtype : Sign} {x y : BitVec 64} {a b : Int}
    (hl : Denotes left (.int a)) (hr : Denotes right (.int b)) (hx : ltype.val x = a) (hy : rtype.val y = b)
    (hfold : fold (.binop op left right) = some (m, [])) :
    word m = some (emit op ltype rtype x y).word ↔ Agree op ltype rtype a b := by
  rw [fold_binop (fold_literal hl) (fold_literal hr)] at hfold
  rcases visitBinop_integers hl hr with ⟨s, l, r, hops, -, hvisit⟩ | ⟨-, hvisit⟩
  · obtain rfl : x = l := val_unique (hx.trans hops.left.symm)
    obtain rfl : y = r := val_unique (hy.trans hops.right.symm)
    rw [hvisit, visitIntegers] at hfold
    cases hc : comparison op with
    | some c =>
      simp only [hc, Option.map_some, Option.getD_some, List.append_nil, Option.some.injEq, Prod.mk.injEq,
        and_true] at hfold
      rw [← hfold, hops.left, hops.right, word, Option.some.injEq]
      exact comparison_agrees_iff hops hx hy hc
    | none =>
      simp only [hc, Option.map_map, Option.map_eq_some_iff, Function.comp_apply] at hfold
      obtain ⟨o, heval, ho⟩ := hfold
      cases o with
      | none => simp at ho
      | some v =>
        simp only [Option.getD_some, List.append_nil, Prod.mk.injEq, and_true] at ho
        rw [← ho, word_toNode, Option.some.injEq]
        exact evalBinop_agrees_iff hops heval
  · simp [hvisit] at hfold

/-- `7 - 9` in two variables of type `int64`. -/
theorem folded_eq_emitted_iff_minus :
    fold (.binop .minus (.integer 7) (.integer 9)) = some (.negativeInteger (-2), []) ∧
      word (.negativeInteger (-2)) = some (emit .minus .signed .signed 7 9).word :=
  ⟨by decide +kernel, (folded_eq_emitted_iff (a := 7) (b := 9) (.integer 7) (.integer 9) (by decide +kernel)
    (by decide +kernel) (by decide +kernel)).mpr trivial⟩

/-- `-8 >> 1` is folded to -4, and the emitted code computes 0x7ffffffffffffffc. -/
theorem negative_shifted_right :
    Denotes (.negativeInteger (-8)) (.int (-8)) ∧ Denotes (.integer 1) (.int 1) ∧
      fold (.binop .right (.negativeInteger (-8)) (.integer 1)) = some (.negativeInteger (-4), []) ∧
      Sign.signed.val (-8 : BitVec 64) = -8 ∧ Sign.signed.val (1 : BitVec 64) = 1 ∧
      (emit .right .signed .signed (-8) 1).word = 0x7ffffffffffffffc ∧
      word (.negativeInteger (-4)) ≠ some (emit .right .signed .signed (-8) 1).word :=
  ⟨.negativeInteger (-8) (by decide +kernel), .integer 1, by decide +kernel, by decide +kernel, by decide +kernel,
    by decide +kernel, by decide +kernel⟩

end FoldLiterals
