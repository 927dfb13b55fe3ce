import Mathlib.Data.BitVec
import Ubpftrace.FoldRanges

/-!
# Folding whole expressions

The folder agrees with exact arithmetic on an expression and all its parts exactly if
none of them is faulty.
-/

namespace FoldLiterals

open MachineWords

/-! ## One expression -/

/-- The literals that `fold` makes, with the value they stand for. -/
inductive Denotes : Node → Exact → Prop
  | integer (v : BitVec 64) : Denotes (.integer v) (.int v.toNat)
  | negativeInteger (v : BitVec 64) : v.toInt < 0 → Denotes (.negativeInteger v) (.int v.toInt)
  | boolean (b : Bool) : Denotes (.boolean b) (.truth b)

variable {m : Node} {x : Exact}

theorem Denotes.literal_eq (h : Denotes m x) : literal m = some x.toInt := by
  cases h <;> rfl

variable {v : BitVec 64}

theorem denotes_integer {x : Int} (h : (v.toNat : Int) = x) : Denotes (.integer v) (.int x) :=
  h ▸ .integer v

theorem denotes_negative {x : Int} (h : v.toInt = x) (hneg : x < 0) :
    Denotes (.negativeInteger v) (.int x) := by
  subst h
  exact .negativeInteger v hneg

theorem denotes_toNode {v : Variant} {x : Int} (h : v.Represents x) : Denotes v.toNode (.int x) := by
  obtain ⟨type, bits⟩ := v
  obtain ⟨rfl, hsign⟩ := h
  cases type with
  | unsigned => exact .integer bits
  | signed => exact .negativeInteger bits (hsign.mp rfl)

def isInteger : Node → Bool
  | .integer _ => true
  | .negativeInteger _ => true
  | _ => false

/-- An outcome of one visit agrees with what is admitted: the exact literal and no
error, or an error. -/
inductive Agrees : Option Node × List String → Option Exact → Prop
  | literal {m : Node} {x : Exact} : Denotes m x → Agrees (some m, []) (some x)
  | error {r : Option Node} {errors : List String} :
    errors ≠ [] → (∀ m ∈ r, isInteger m = false) → Agrees (r, errors) none

variable {a b : Int} {op : Operator}

theorem visitIntegers_agrees {t : Sign} {l r : BitVec 64}
    (h : Operands t l r a b) (hfits : Fits a b 0) (hop : (op.isArithmetic || op.isOrder) = true)
    (hno : ¬ Overflows op a b) :
    ∃ o, visitIntegers t l r op = some o ∧ Agrees o (admitInts op a b) := by
  unfold visitIntegers admitInts
  cases hc : comparison op with
  | some c =>
    obtain ⟨rfl, rfl, -⟩ := h
    simp only [if_pos hfits]
    exact ⟨_, rfl, .literal (.boolean _)⟩
  | none =>
    have harith : op.isArithmetic = true := by
      cases op <;> simp_all [comparison, Operator.isArithmetic, Operator.isOrder]
    obtain ⟨o, ho, hcomputes⟩ := evalBinop_computes h harith hno
    simp only [ho, Option.map_some]
    refine ⟨_, rfl, ?_⟩
    cases hx : exactArith op a b with
    | none =>
      rw [hx] at hcomputes
      obtain rfl : o = none := hcomputes
      exact .error (by simp) (by simp)
    | some x =>
      rw [hx] at hcomputes
      simp only [Option.bind_some]
      by_cases hroom : Fits a b x
      · obtain ⟨v, rfl, hv⟩ := hcomputes.value hroom
        rw [if_pos hroom]
        exact .literal (denotes_toNode hv)
      · rw [if_neg hroom, hcomputes.refused hroom]
        exact .error (by simp) (by simp)

theorem fits_zero {x : Int} (h : Fits a b x) : Fits a b 0 := by
  unfold Fits at h ⊢
  split at h <;> rename_i hsign
  · rw [if_pos hsign]
    omega
  · rw [if_neg hsign]
    omega

theorem admitInts_none (h : ¬ Fits a b 0) (op : Operator) : admitInts op a b = none := by
  unfold admitInts
  cases comparison op with
  | some c => exact if_neg h
  | none =>
    cases exactArith op a b with
    | none => rfl
    | some x => exact if_neg fun hx => h (fits_zero hx)

theorem toInt_eq_toNat (h : v.toNat ≤ int64Max.toNat) : v.toInt = v.toNat := by
  have heq := toInt_eq v
  rw [toNat_int64Max] at h
  split at heq <;> omega

variable {left right : Node}

/-- Two integer literals meet at one type, unless the unsigned one of two different
signs is too large for `int64_t`. -/
theorem visitBinop_integers (hl : Denotes left (.int a))
    (hr : Denotes right (.int b)) :
    (∃ t l r, Operands t l r a b ∧ Fits a b 0 ∧ ∀ op, visitBinop op left right = visitIntegers t l r op) ∨
      (¬ Fits a b 0 ∧ ∀ op, visitBinop op left right = some (none, [flowError])) := by
  cases hl with
  | integer l =>
    cases hr with
    | integer r =>
      exact .inl ⟨.unsigned, l, r, ⟨rfl, rfl, by simp⟩, fits_unsigned_iff 0 |>.mpr (by simp), fun _ => rfl⟩
    | negativeInteger r hneg =>
      have hsign : ¬ ((0 : Int) ≤ l.toNat ↔ 0 ≤ r.toInt) := by omega
      simp only [visitBinop, Fits, if_neg hsign]
      by_cases hsmall : l.toNat ≤ int64Max.toNat
      · refine .inl ⟨.signed, l, r, ⟨toInt_eq_toNat hsmall, rfl, fun _ => .inr hneg⟩, ?_, fun _ => if_pos hsmall⟩
        rw [toNat_int64Max] at hsmall
        omega
      · refine .inr ⟨?_, fun _ => if_neg hsmall⟩
        rw [toNat_int64Max] at hsmall
        omega
  | negativeInteger l hneg =>
    cases hr with
    | integer r =>
      have hsign : ¬ (0 ≤ l.toInt ↔ (0 : Int) ≤ r.toNat) := by omega
      simp only [visitBinop, Fits, if_neg hsign]
      by_cases hsmall : r.toNat ≤ int64Max.toNat
      · refine .inl ⟨.signed, l, r, ⟨rfl, toInt_eq_toNat hsmall, fun _ => .inl hneg⟩, ?_, fun _ => if_pos hsmall⟩
        rw [toNat_int64Max] at hsmall
        omega
      · refine .inr ⟨?_, fun _ => if_neg hsmall⟩
        rw [toNat_int64Max] at hsmall
        omega
    | negativeInteger r hneg' =>
      refine .inl ⟨.signed, l, r, ⟨rfl, rfl, fun _ => .inl hneg⟩, ?_, fun _ => rfl⟩
      rw [fits_signed_iff, if_pos (by omega)]
      omega

theorem visitBinop_ints (hl : Denotes left (.int a))
    (hr : Denotes right (.int b)) (hop : (op.isArithmetic || op.isOrder) = true)
    (hno : ¬ Overflows op a b) : ∃ o, visitBinop op left right = some o ∧ Agrees o (admitInts op a b) := by
  rcases visitBinop_integers hl hr with ⟨t, l, r, hops, hfits, hvisit⟩ | ⟨hfits, hvisit⟩
  · rw [hvisit]
    exact visitIntegers_agrees hops hfits hop hno
  · rw [hvisit, admitInts_none hfits]
    exact ⟨_, rfl, .error (by simp) (by simp)⟩

theorem visitBinop_truths (op : Operator) (p q : Bool) (hop : (op.isArithmetic || op.isOrder) = true) :
    ∃ o, visitBinop op (.boolean p) (.boolean q) = some o ∧ Agrees o (admitTruths op p q) := by
  refine ⟨_, rfl, ?_⟩
  simp only [admitTruths]
  cases hc : comparison op with
  | some c => exact .literal (.boolean _)
  | none =>
    cases op with
    | plus => cases p <;> cases q <;> exact .literal (.boolean _)
    | minus => cases p <;> cases q <;> exact .literal (.boolean _)
    | mul => exact .literal (.boolean _)
    | div =>
      cases q with
      | false => exact .error (by simp) (by simp [isInteger])
      | true => cases p <;> exact .literal (.boolean _)
    | mod =>
      cases q with
      | false => exact .error (by simp) (by simp [isInteger])
      | true => exact .literal (.boolean _)
    | _ => simp_all [comparison, Operator.isArithmetic, Operator.isOrder]

theorem visitBinop_mixed {p : Bool}
    (hop : (op.isArithmetic || op.isOrder) = true)
    (h : (Denotes left (.int a) ∧ Denotes right (.truth p)) ∨ (Denotes left (.truth p) ∧ Denotes right (.int a))) :
    visitBinop op left right = some (none, []) := by
  have hlogic : ¬ (op = .land ∨ op = .lor) := by
    rintro (rfl | rfl) <;> simp [Operator.isArithmetic, Operator.isOrder] at hop
  rcases h with ⟨hl, hr⟩ | ⟨hl, hr⟩ <;> cases hl <;> cases hr <;> simp [visitBinop, visitMixed, hlogic]

theorem visitBinop_not_integer (op : Operator)
    (h : isInteger left = false ∨ isInteger right = false) :
    ∃ r errors, visitBinop op left right = some (r, errors) ∧ ∀ m ∈ r, isInteger m = false := by
  have hmixed : ∀ p q, ∀ m ∈ (visitMixed p q op).1, isInteger m = false := by
    unfold visitMixed
    split <;> simp [isInteger]
  cases left <;> cases right <;>
    first
    | (simp [isInteger] at h; done)
    | exact ⟨_, _, rfl, hmixed _ _⟩
    | exact ⟨_, _, rfl, by simp [isInteger]⟩

theorem toInt_neg_toNat (hpos : 0 < v.toNat) (hle : v.toNat ≤ 2 ^ 63) : (-v).toInt = -v.toNat := by
  have hbits : (-v).toNat = 2 ^ 64 - v.toNat := by
    rw [BitVec.toNat_neg]
    omega
  have heq := toInt_eq (-v)
  omega

variable {e : Node}

theorem visitUnop_int (h : Denotes e (.int a)) :
    Agrees (visitUnop .minus e) (if a ≤ 2 ^ 63 then some (.int (-a)) else none) := by
  cases h with
  | integer v =>
    have hmax := toNat_int64Max
    simp only [visitUnop]
    by_cases hbig : int64Max.toNat + 1 < v.toNat
    · have hroom : ¬ (v.toNat : Int) ≤ 2 ^ 63 := by omega
      rw [if_pos hbig, if_neg hroom]
      exact .error (by simp) (by simp)
    · have hroom : (v.toNat : Int) ≤ 2 ^ 63 := by omega
      rw [if_neg hbig, if_pos hroom]
      by_cases hzero : v = 0
      · rw [if_pos hzero]
        exact .literal (denotes_integer (by simp [hzero]))
      · have hpos := toNat_ne_zero hzero
        have hneg := toInt_neg_toNat (v := v) (by omega) (by omega)
        have hcareful : -1 - (v - 1) = -v := by ring
        rw [if_neg hzero, hcareful, ite_self]
        exact .literal (denotes_negative hneg (by omega))
  | negativeInteger v hneg =>
    have hroom : v.toInt ≤ 2 ^ 63 := by omega
    rw [if_pos hroom]
    exact .literal (denotes_integer (toNat_magnitude hneg))

/-! ## Whole expressions -/

def Sound (n : Node) : Prop := ∃ m errors, fold n = some (m, errors) ∧ Agrees (some m, errors) (exactOf n)

theorem sound_integer (v : BitVec 64) : Sound (.integer v) := ⟨_, _, rfl, .literal (.integer v)⟩

theorem sound_negativeInteger (h : v.toInt < 0) : Sound (.negativeInteger v) :=
  ⟨_, _, rfl, .literal (.negativeInteger v h)⟩

theorem fold_unop {op : UnaryOperator} {errors : List String} (h : fold e = some (m, errors)) :
    fold (.unop op e) =
      some ((visitUnop op m).1.getD (.unop op m), errors ++ (visitUnop op m).2) := by
  simp [fold, h]

variable {l r : Node}

theorem fold_binop {lerrors rerrors : List String}
    (hl : fold l = some (left, lerrors)) (hr : fold r = some (right, rerrors)) :
    fold (.binop op l r) = (visitBinop op left right).map fun o =>
      (o.1.getD (.binop op left right), lerrors ++ rerrors ++ o.2) := by
  simp only [fold, hl, hr, Option.bind_eq_bind, Option.bind_some]
  cases visitBinop op left right <;> rfl

theorem Agrees.getD {o : Option Node × List String} {x : Option Exact} (h : Agrees o x) (n : Node)
    (hn : isInteger n = false) : Agrees (some (o.1.getD n), o.2) x := by
  cases h with
  | literal hm => exact .literal hm
  | @error r errors herr hr =>
    refine .error herr ?_
    cases r with
    | none => simpa using hn
    | some m => simpa using hr

theorem sound_unop (he : Sound e) (hok : faulty (.unop .minus e) = false) : Sound (.unop .minus e) := by
  obtain ⟨m, errors, hfold, hagrees⟩ := he
  refine ⟨_, _, fold_unop hfold, ?_⟩
  cases hx : exactOf e with
  | none =>
    rw [hx] at hagrees
    cases hagrees with
    | error herr hm =>
      have hstays : visitUnop .minus m = (none, []) := by
        cases m <;> simp_all [isInteger, visitUnop]
      rw [hstays]
      simp only [exactOf, hx]
      exact .error (by simpa using herr) (by simp [isInteger])
  | some x =>
    rw [hx] at hagrees
    cases hagrees with
    | literal hm =>
      cases x with
      | truth b => simp [faulty, hx] at hok
      | int a =>
        simp only [exactOf, hx, List.nil_append]
        exact (visitUnop_int hm).getD _ rfl

theorem sound_binop (hop : (op.isArithmetic || op.isOrder) = true)
    (hl : Sound l) (hr : Sound r) (hok : faulty (.binop op l r) = false) : Sound (.binop op l r) := by
  obtain ⟨left, lerrors, hfoldl, hagl⟩ := hl
  obtain ⟨right, rerrors, hfoldr, hagr⟩ := hr
  have hrefused : (lerrors ≠ [] ∨ rerrors ≠ []) → (isInteger left = false ∨ isInteger right = false) →
      exactOf (.binop op l r) = none → Sound (.binop op l r) := by
    intro herr hint hnone
    obtain ⟨o, errors, hvisit, ho⟩ := visitBinop_not_integer op hint
    refine ⟨_, _, by rw [fold_binop hfoldl hfoldr, hvisit]; rfl, ?_⟩
    rw [hnone]
    refine .error ?_ ?_
    · rcases herr with h | h <;> simp [h]
    · cases o with
      | none => simp [isInteger]
      | some m => simpa using ho
  cases hxl : exactOf l with
  | none =>
    rw [hxl] at hagl
    cases hagl with
    | error herr hm => exact hrefused (.inl herr) (.inl (hm left rfl)) (by simp [exactOf, hxl])
  | some x =>
    cases hxr : exactOf r with
    | none =>
      rw [hxr] at hagr
      cases hagr with
      | error herr hm => exact hrefused (.inr herr) (.inr (hm right rfl)) (by simp [exactOf, hxr])
    | some y =>
      rw [hxl] at hagl
      rw [hxr] at hagr
      cases hagl with
      | literal hdl =>
        cases hagr with
        | literal hdr =>
          have hvisit : ∃ o, visitBinop op left right = some o ∧ Agrees o (exactOf (.binop op l r)) := by
            cases x with
            | int a =>
              cases y with
              | int b =>
                simp only [faulty, hxl, hxr, decide_eq_false_iff_not] at hok
                simp only [exactOf, hxl, hxr]
                exact visitBinop_ints hdl hdr hop hok
              | truth q => simp [faulty, hxl, hxr] at hok
            | truth p =>
              cases y with
              | int b => simp [faulty, hxl, hxr] at hok
              | truth q =>
                cases hdl
                cases hdr
                simp only [exactOf, hxl, hxr]
                exact visitBinop_truths op p q hop
          obtain ⟨o, hvisit, hagrees⟩ := hvisit
          refine ⟨_, _, by rw [fold_binop hfoldl hfoldr, hvisit]; rfl, ?_⟩
          exact hagrees.getD _ rfl

def Clean (n : Node) : Prop := ∀ n' ∈ subexpressions n, faulty n' = false

theorem clean_unop {op : UnaryOperator} :
    Clean (.unop op e) ↔ faulty (.unop op e) = false ∧ Clean e := by
  simp [Clean, subexpressions]

theorem clean_binop :
    Clean (.binop op l r) ↔ faulty (.binop op l r) = false ∧ Clean l ∧ Clean r := by
  simp only [Clean, subexpressions, List.mem_cons, List.mem_append, forall_eq_or_imp]
  refine and_congr_right fun _ => ⟨fun h => ⟨fun n hn => h n (.inl hn), fun n hn => h n (.inr hn)⟩, ?_⟩
  rintro ⟨hl, hr⟩ n (hn | hn)
  · exact hl n hn
  · exact hr n hn

variable {n : Node}

theorem sound_of_clean (hb : built n = true) (hclean : Clean n) : Sound n := by
  induction n with
  | integer v => exact sound_integer v
  | negativeInteger v => exact sound_negativeInteger (by simpa [built] using hb)
  | boolean b | var ident => simp [built] at hb
  | unop op e ih =>
    simp only [built, Bool.and_eq_true, decide_eq_true_eq] at hb
    obtain ⟨rfl, hbe⟩ := hb
    obtain ⟨hok, he⟩ := clean_unop.mp hclean
    exact sound_unop (ih hbe he) hok
  | binop op l r ihl ihr =>
    simp only [built, Bool.and_eq_true] at hb
    obtain ⟨⟨hop, hbl⟩, hbr⟩ := hb
    obtain ⟨hok, hl, hr⟩ := clean_binop.mp hclean
    exact sound_binop hop (ihl hbl hl) (ihr hbr hr) hok

theorem admitInts_exact (h : admitInts op a b = some x) :
    exactBinary op a b = some x.toInt := by
  unfold admitInts at h
  unfold exactBinary
  cases hc : comparison op with
  | some c =>
    simp only [hc, Option.ite_none_right_eq_some, Option.some.injEq] at h
    obtain ⟨-, rfl⟩ := h
    rfl
  | none =>
    simp only [hc, Option.bind_eq_some_iff, Option.ite_none_right_eq_some, Option.some.injEq] at h
    obtain ⟨y, hy, -, rfl⟩ := h
    exact hy

theorem admitTruths_exact {p q : Bool} (h : admitTruths op p q = some x)
    (hok : ((op = .plus && p && q) || (op = .minus && !p && q)) = false) :
    exactBinary op p.toNat q.toNat = some x.toInt := by
  unfold admitTruths at h
  unfold exactBinary
  cases hc : comparison op with
  | some c =>
    simp only [hc, Option.some.injEq] at h
    subst h
    rfl
  | none =>
    simp only [hc] at h
    cases op <;> simp only [reduceCtorEq, Option.some.injEq] at h <;> revert x hok <;>
      cases p <;> cases q <;> simp [exactArith, Exact.toInt]

theorem ideal_of_exactOf (hb : built n = true) (hclean : Clean n)
    (h : exactOf n = some x) : ideal n = some x.toInt := by
  induction n generalizing x with
  | integer v | negativeInteger v =>
    cases h
    rfl
  | boolean b | var ident => simp [built] at hb
  | unop op e ih =>
    simp only [built, Bool.and_eq_true, decide_eq_true_eq] at hb
    obtain ⟨rfl, hbe⟩ := hb
    obtain ⟨-, he⟩ := clean_unop.mp hclean
    simp only [exactOf] at h
    split at h
    · rename_i a hx
      simp only [Option.ite_none_right_eq_some, Option.some.injEq] at h
      obtain ⟨-, rfl⟩ := h
      simp [ideal, ih hbe he hx, exactUnary, Exact.toInt]
    · cases h
  | binop op l r ihl ihr =>
    simp only [built, Bool.and_eq_true] at hb
    obtain ⟨⟨hop, hbl⟩, hbr⟩ := hb
    obtain ⟨hok, hl, hr⟩ := clean_binop.mp hclean
    simp only [exactOf] at h
    split at h
    · rename_i a b hxl hxr
      simp only [ideal, ihl hbl hl hxl, ihr hbr hr hxr, Option.bind_some, Exact.toInt]
      exact admitInts_exact h
    · rename_i p q hxl hxr
      simp only [faulty, hxl, hxr] at hok
      simp only [ideal, ihl hbl hl hxl, ihr hbr hr hxr, Option.bind_some, Exact.toInt]
      exact admitTruths_exact h hok
    · cases h

theorem settled_of_clean (hb : built n = true) (hclean : Clean n) : Settled n := by
  obtain ⟨m, errors, hfold, hagrees⟩ := sound_of_clean hb hclean
  refine ⟨m, errors, hfold, ?_⟩
  cases hx : exactOf n with
  | none =>
    rw [hx] at hagrees
    cases hagrees with
    | error herr _ => exact .inl herr
  | some x =>
    rw [hx] at hagrees
    cases hagrees with
    | literal hm => exact .inr ⟨_, hm.literal_eq, ideal_of_exactOf hb hclean hx⟩

/-! ## The faulty expressions -/

theorem denotes_of_sound (h : Sound n) (hx : exactOf n = some x) :
    ∃ m, fold n = some (m, []) ∧ Denotes m x := by
  obtain ⟨m, errors, hfold, hagrees⟩ := h
  rw [hx] at hagrees
  cases hagrees with
  | literal hm => exact ⟨m, hfold, hm⟩

theorem not_settled_of_fold {x : Option Int} (hfold : fold n = some (m, [])) (hlit : literal m = x)
    (hwrong : x = none ∨ ideal n ≠ x) : ¬ Settled n := by
  rintro ⟨m', errors, hfold', h⟩
  rw [hfold, Option.some.injEq, Prod.mk.injEq] at hfold'
  obtain ⟨rfl, rfl⟩ := hfold'
  rcases h with h | ⟨y, hy, hn⟩
  · exact h rfl
  · obtain rfl : x = some y := hlit.symm.trans hy
    rcases hwrong with hnone | hideal
    · cases hnone
    · exact hideal hn

theorem evalMinus_least {l r : BitVec 64} (hl : 0 ≤ l.toInt) (hr : r.toInt = -2 ^ 63) :
    ∃ v, evalMinus .signed l r = some v ∧ v.Represents (l.toInt - 2 ^ 63) := by
  have hbound := toInt_bounds l
  obtain rfl : r = int64Min := val_injective (s := .signed) (hr.trans toInt_int64Min.symm)
  have hneg : (-int64Min).toInt = -2 ^ 63 := by decide
  have hmax : (int64Max - l).toInt = 2 ^ 63 - 1 - l.toInt := by
    rw [toInt_sub] <;> rw [toInt_int64Max] <;> omega
  have hwraps : (l - int64Min).toInt = l.toInt - 2 ^ 63 := by
    have hadd : l - int64Min = l + int64Min := by
      have : int64Min = -int64Min := by decide
      rw [BitVec.sub_eq_add_neg, ← this]
    rw [hadd, toInt_add] <;> rw [toInt_int64Min] <;> omega
  have hzero : int64Min ≠ 0 := by decide
  have hfirst : ¬ (0 < l.toInt ∧ int64Min.toInt < 0 ∧ (int64Max - l).toInt < (-int64Min).toInt) := by
    omega
  have hsecond : ¬ (l.toInt < 0 ∧ 0 < int64Min.toInt ∧ (-int64Min).toInt < (int64Min - l).toInt) := by
    omega
  simp only [evalMinus]
  rw [if_neg hzero, if_neg hfirst, if_neg hsecond]
  exact ⟨_, rfl, represents_clamp (t := .signed) hwraps⟩

theorem Operands.signed_of_neg {t : Sign} {l r : BitVec 64} (h : Operands t l r a b) (hneg : a < 0 ∨ b < 0) :
    t = .signed := by
  cases t with
  | unsigned =>
    obtain ⟨rfl, rfl, -⟩ := h
    simp only [Sign.val] at hneg
    omega
  | signed => rfl

theorem neg_of_mul_neg (h : a * b < 0) : (a < 0 ∧ 0 ≤ b) ∨ (0 ≤ a ∧ b < 0) := by
  rcases Int.mul_neg_iff.mp h with ⟨ha, hb⟩ | ⟨ha, hb⟩ <;> omega

/-- A product without a value is no result at all. -/
theorem evalBinop_mul_undefined {l r : BitVec 64} (h : Operands .signed l r a b) (hlow : a * b < -2 ^ 63) :
    evalBinop .signed l r .mul = none := by
  obtain ⟨rfl, rfl, -⟩ := h
  simp only [Sign.val] at hlow
  have hsigns := neg_of_mul_neg (by omega : l.toInt * r.toInt < 0)
  have hzero : ¬ (l = 0 ∨ r = 0) := by
    rintro (rfl | rfl) <;> simp at hlow
  have hmul : ¬ multiplies .signed l r := fun h => by
    have := (holds_signed_iff _).mp (h rfl)
    omega
  rw [evalBinop, evalMul, if_neg hzero, if_neg (by omega), checkedProduct, if_neg hmul]

theorem not_settled_overflow
    (hfl : fold l = some (left, [])) (hfr : fold r = some (right, [])) (hdl : Denotes left (.int a))
    (hdr : Denotes right (.int b)) (hil : ideal l = some a) (hir : ideal r = some b)
    (h : Overflows op a b) : ¬ Settled (.binop op l r) := by
  have hfold : fold (.binop op _ _) = _ := fold_binop hfl hfr
  have hneg : a < 0 ∨ b < 0 := by
    rcases h with ⟨-, h⟩ | ⟨-, h⟩ | ⟨-, -, -, h⟩
    · omega
    · omega
    · rcases neg_of_mul_neg (by omega : a * b < 0) with ⟨h, -⟩ | ⟨-, h⟩
      · exact .inl h
      · exact .inr h
  rcases visitBinop_integers hdl hdr with ⟨t, lb, rb, hops, -, hvisit⟩ | ⟨hfits, -⟩
  · obtain rfl := hops.signed_of_neg hneg
    rcases h with ⟨rfl, hnonneg, hsmall, rfl⟩ | ⟨hop, hab⟩ | ⟨rfl, -, -, hlow⟩
    · obtain ⟨hleft, hright, -⟩ := hops
      simp only [Sign.val] at hleft hright
      obtain ⟨v, hv, hrep⟩ := evalMinus_least (hleft.symm ▸ hnonneg) hright
      have hnode : fold (.binop .minus l r) = some (v.toNode, []) := by
        simp [hfold, hvisit, visitIntegers, comparison, evalBinop, hv]
      refine not_settled_of_fold hnode (denotes_toNode hrep).literal_eq (.inr ?_)
      simp only [ideal, hil, hir, Option.bind_some, exactBinary, comparison, exactArith, Exact.toInt, ne_eq,
        Option.some.injEq]
      omega
    · have htrap : ¬ divides .signed lb rb := fun hdiv => hops.divides_iff.mp hdiv hab
      have hzero : rb ≠ 0 := by
        rintro rfl
        have := hops.right
        simp [Sign.val] at this
        omega
      rintro ⟨m, errors, hsome, -⟩
      rw [hfold, hvisit] at hsome
      rcases hop with rfl | rfl <;>
        simp only [visitIntegers, comparison, evalBinop, quotient, remainder, if_neg htrap, if_neg hzero,
          Option.map_none, reduceCtorEq] at hsome
    · rintro ⟨m, errors, hsome, -⟩
      simp [hfold, hvisit, visitIntegers, comparison, evalBinop_mul_undefined hops hlow] at hsome
  · refine absurd ?_ hfits
    unfold Fits
    rcases h with ⟨-, h⟩ | ⟨-, h⟩ | ⟨-, h⟩ <;> split <;> omega

theorem not_settled_truths {p q : Bool} (hfl : fold l = some (.boolean p, []))
    (hfr : fold r = some (.boolean q, [])) (hil : ideal l = some p.toNat) (hir : ideal r = some q.toNat)
    (h : ((op = .plus && p && q) || (op = .minus && !p && q)) = true) : ¬ Settled (.binop op l r) := by
  have hfold : fold (.binop op _ _) = _ := fold_binop hfl hfr
  simp only [Bool.or_eq_true, Bool.and_eq_true, decide_eq_true_eq] at h
  rcases h with ⟨⟨rfl, rfl⟩, rfl⟩ | ⟨⟨rfl, hp⟩, rfl⟩
  · refine not_settled_of_fold hfold (x := some 1) rfl (.inr ?_)
    simp [ideal, hil, hir, exactBinary, comparison, exactArith]
  · obtain rfl : p = false := by simpa using hp
    refine not_settled_of_fold hfold (x := some 1) rfl (.inr ?_)
    simp [ideal, hil, hir, exactBinary, comparison, exactArith]

theorem settled_unop_iff (hb : built e = true) (hclean : Clean e) :
    Settled (.unop .minus e) ↔ faulty (.unop .minus e) = false := by
  refine ⟨fun hsettled => ?_, fun hok => settled_of_clean (by simp [built, hb]) (clean_unop.mpr ⟨hok, hclean⟩)⟩
  by_contra hfaulty
  simp only [faulty, Bool.not_eq_false] at hfaulty
  split at hfaulty
  · rename_i b hx
    obtain ⟨m, hfold, hm⟩ := denotes_of_sound (sound_of_clean hb hclean) hx
    cases hm
    exact not_settled_of_fold (fold_unop hfold) rfl (.inl rfl) hsettled
  · cases hfaulty

theorem settled_binop_iff (hb : built (.binop op l r) = true) (hl : Clean l)
    (hr : Clean r) : Settled (.binop op l r) ↔ faulty (.binop op l r) = false := by
  refine ⟨fun hsettled => ?_, fun hok => settled_of_clean hb (clean_binop.mpr ⟨hok, hl, hr⟩)⟩
  by_contra hfaulty
  rw [Bool.not_eq_false] at hfaulty
  simp only [built, Bool.and_eq_true] at hb
  obtain ⟨⟨hop, hbl⟩, hbr⟩ := hb
  -- both operands have exact values, or the expression would not be faulty
  cases hxl : exactOf l with
  | none => simp [faulty, hxl] at hfaulty
  | some x =>
    cases hxr : exactOf r with
    | none => simp [faulty, hxl, hxr] at hfaulty
    | some y =>
      obtain ⟨left, hfl, hdl⟩ := denotes_of_sound (sound_of_clean hbl hl) hxl
      obtain ⟨right, hfr, hdr⟩ := denotes_of_sound (sound_of_clean hbr hr) hxr
      have hil := ideal_of_exactOf hbl hl hxl
      have hir := ideal_of_exactOf hbr hr hxr
      have hmixed : visitBinop op left right = some (none, []) → ¬ Settled (.binop op l r) := by
        intro hvisit
        exact not_settled_of_fold (by rw [fold_binop hfl hfr, hvisit]; rfl) rfl (.inl rfl)
      simp only [faulty, hxl, hxr] at hfaulty
      cases x with
      | int a =>
        cases y with
        | int b => exact not_settled_overflow hfl hfr hdl hdr hil hir (of_decide_eq_true hfaulty) hsettled
        | truth q => exact hmixed (visitBinop_mixed hop (.inl ⟨hdl, hdr⟩)) hsettled
      | truth p =>
        cases y with
        | int b => exact hmixed (visitBinop_mixed hop (.inr ⟨hdl, hdr⟩)) hsettled
        | truth q =>
          cases hdl
          cases hdr
          exact not_settled_truths hfl hfr hil hir hfaulty hsettled

/-- The folder settles an expression with all its parts exactly if none of them is
faulty. -/
theorem folding_exact_iff {n : Node} (hb : built n = true) :
    (∀ n' ∈ subexpressions n, Settled n') ↔ ∀ n' ∈ subexpressions n, faulty n' = false := by
  change _ ↔ Clean n
  induction n with
  | integer v | negativeInteger v =>
    simp only [Clean, subexpressions, List.mem_singleton, forall_eq, faulty, iff_true]
    exact settled_of_clean hb (by simp [Clean, subexpressions, faulty])
  | boolean b | var ident => simp [built] at hb
  | unop op e ih =>
    simp only [built, Bool.and_eq_true, decide_eq_true_eq] at hb
    obtain ⟨rfl, hbe⟩ := hb
    rw [clean_unop, ← ih hbe]
    simp only [subexpressions, List.mem_cons, forall_eq_or_imp]
    apply and_congr_left
    intro he
    exact settled_unop_iff hbe ((ih hbe).mp he)
  | binop op l r ihl ihr =>
    have hparts := hb
    simp only [built, Bool.and_eq_true] at hparts
    obtain ⟨⟨-, hbl⟩, hbr⟩ := hparts
    rw [clean_binop, ← ihl hbl, ← ihr hbr]
    simp only [subexpressions, List.mem_cons, List.mem_append, or_imp, forall_and, forall_eq]
    apply and_congr_left
    rintro ⟨hl, hr⟩
    exact settled_binop_iff hb ((ihl hbl).mp hl) ((ihr hbr).mp hr)

/-- `(7 - (-3)) / 2 < 100` and its parts. -/
theorem folding_exact_iff_clean :
    let n : Node := .binop .lt (.binop .div (.binop .minus (.integer 7) (.unop .minus (.integer 3))) (.integer 2))
      (.integer 100)
    built n = true ∧ ∀ n' ∈ subexpressions n, Settled n' :=
  ⟨by decide +kernel, (folding_exact_iff (by decide +kernel)).mpr (by decide +kernel)⟩

/-- `0 - (-9223372036854775808)` is folded to -9223372036854775808. -/
theorem least_subtracted_from_zero :
    let n : Node := .binop .minus (.integer 0) (.unop .minus (.integer (2 ^ 63)))
    built n = true ∧ fold n = some (.negativeInteger int64Min, []) ∧
      literal (.negativeInteger int64Min) = some (-2 ^ 63) ∧
      ideal n = some (2 ^ 63) ∧ ¬ Settled n := by
  refine ⟨by decide +kernel, by decide +kernel, by decide +kernel, by decide +kernel, ?_⟩
  exact not_settled_of_fold (m := .negativeInteger int64Min) (x := some (-2 ^ 63)) (by decide +kernel)
    (by decide +kernel)
    (.inr (by decide +kernel))

end FoldLiterals
