import Mathlib.Data.List.Basic
import Mathlib.Tactic.Ring
import Mathlib.Tactic.Linarith

/-!
# Histograms as they are printed

What `types_format.cpp` makes of an array of bucket counts, and how the text
output of `text.cpp` reads it: the labels are the upper ends of the buckets,
the lower end of a bucket is the label before it. For `hist()` the bucket of a
value comes from the code that `createLog2Function` generates.
-/

namespace Histograms

/-- A number, or a number with a suffix for a power of 1024 as it is printed, and the
64-bit number it stands for. -/
inductive Primitive where
  | int (n : Int)
  | symbolic (mantissa : Int) (decade : Nat) (numeric : Nat)
  deriving DecidableEq

/-- The number that a reader of the printed label sees. -/
def Primitive.value : Primitive → Int
  | .int n => n
  | .symbolic mantissa decade _ => mantissa * 1024 ^ decade

def Primitive.text : Primitive → String
  | .int n => toString n
  | .symbolic mantissa decade _ => toString mantissa ++ ["", "K", "M", "G", "T", "P", "E"].getD decade ""

structure Histogram where
  lowerBound : Option Primitive
  labels : List Primitive
  counts : List Nat
  deriving DecidableEq

/-- The integers from `lower` up to but not including `upper`; without a bound, all of that side. -/
structure Interval where
  lower : Option Int
  upper : Option Int
  deriving DecidableEq

def Interval.Contains (I : Interval) (x : Int) : Prop := (∀ l ∈ I.lower, l ≤ x) ∧ ∀ u ∈ I.upper, x < u

instance (I : Interval) (x : Int) : Decidable (I.Contains x) := inferInstanceAs (Decidable (_ ∧ _))

theorem Interval.contains_some {l u x : Int} : Interval.Contains ⟨some l, some u⟩ x ↔ l ≤ x ∧ x < u := by
  simp [Interval.Contains]

/-- The interval that the text output prints for the bucket at position `p`. It
reads the first label if there is no lower bound, and the label before `p` from
the second bucket on, without asking whether there is one. -/
def Histogram.printed (h : Histogram) (p : Nat) : Option Interval :=
  match p with
  | 0 =>
    match h.lowerBound with
    | none => h.labels[0]?.map fun u => ⟨none, some u.value⟩
    | some l => some ⟨some l.value, h.labels[0]?.map Primitive.value⟩
  | p + 1 => h.labels[p]?.map fun l => ⟨some l.value, h.labels[p + 1]?.map Primitive.value⟩

theorem Histogram.printed_first {h : Histogram} {u : Int} (hlower : h.lowerBound = none)
    (hlabel : h.labels[0]?.map Primitive.value = some u) : h.printed 0 = some ⟨none, some u⟩ := by
  obtain ⟨l, hl, rfl⟩ := Option.map_eq_some_iff.mp hlabel
  simp only [printed, hlower, hl, Option.map_some]

theorem Histogram.printed_next {h : Histogram} {p : Nat} {l : Int}
    (hlabel : h.labels[p]?.map Primitive.value = some l) :
    h.printed (p + 1) = some ⟨some l, h.labels[p + 1]?.map Primitive.value⟩ := by
  obtain ⟨l, hl, rfl⟩ := Option.map_eq_some_iff.mp hlabel
  simp only [printed, hl, Option.map_some]

/-- The test of `indices`: the count is truncated to an `int`. -/
def isPositive (count : UInt64) : Bool := 0 < (BitVec.ofNat 32 count.toNat).toInt

def indicesFrom (i : Nat) (found : Option (Nat × Nat)) : List UInt64 → Option (Nat × Nat)
  | [] => found
  | v :: vs =>
    indicesFrom (i + 1) (if isPositive v then some (found.elim i Prod.fst, i) else found) vs

/-- The first and the last bucket with a positive count, if there is one. -/
def indices (values : List UInt64) : Option (Nat × Nat) := indicesFrom 0 none values

/-- The bucket `i` has a positive count. -/
def Filled (values : List UInt64) (i : Nat) : Prop := ∃ v, values[i]? = some v ∧ isPositive v

/-- Below `i`, the first and the last bucket with a positive count were found. -/
structure Spans (values : List UInt64) (i : Nat) (found : Option (Nat × Nat)) : Prop where
  filled : ∀ lo hi, found = some (lo, hi) → lo ≤ hi ∧ hi < i ∧ Filled values lo ∧ Filled values hi
  covers : ∀ j < i, Filled values j → ∃ lo hi, found = some (lo, hi) ∧ lo ≤ j ∧ j ≤ hi

variable {values : List UInt64}

theorem Spans.next {i : Nat} {found : Option (Nat × Nat)} (h : Spans values i found) {v : UInt64}
    (hv : values[i]? = some v) :
    Spans values (i + 1) (if isPositive v then some (found.elim i Prod.fst, i) else found) := by
  by_cases hpos : isPositive v
  · rw [if_pos hpos]
    have hlast : Filled values i := ⟨v, hv, hpos⟩
    have hfirst : found.elim i Prod.fst ≤ i ∧ Filled values (found.elim i Prod.fst) := by
      cases found with
      | none => exact ⟨Nat.le_refl i, hlast⟩
      | some p =>
        obtain ⟨hle, hlt, hlo, -⟩ := h.filled p.1 p.2 rfl
        exact ⟨by change p.1 ≤ i; omega, hlo⟩
    refine ⟨fun lo hi heq => ?_, fun j hj hfilled => ⟨_, i, rfl, ?_, by omega⟩⟩
    · cases heq
      exact ⟨hfirst.1, Nat.lt_succ_self i, hfirst.2, hlast⟩
    · rcases Nat.lt_succ_iff_lt_or_eq.mp hj with hlt | rfl
      · obtain ⟨lo, hi, rfl, hlo, -⟩ := h.covers j hlt hfilled
        exact hlo
      · exact hfirst.1
  · rw [if_neg hpos]
    refine ⟨fun lo hi heq => ?_, fun j hj hfilled => ?_⟩
    · obtain ⟨hle, hlt, hboth⟩ := h.filled lo hi heq
      exact ⟨hle, Nat.lt_succ_of_lt hlt, hboth⟩
    · refine h.covers j (Nat.lt_of_le_of_ne (by omega) ?_) hfilled
      rintro rfl
      obtain ⟨w, hw, hwpos⟩ := hfilled
      cases hv.symm.trans hw
      exact hpos hwpos

theorem spans_indicesFrom {rest : List UInt64} {i : Nat} {found : Option (Nat × Nat)}
    (hrest : ∀ j, rest[j]? = values[i + j]?) (h : Spans values i found) :
    Spans values (i + rest.length) (indicesFrom i found rest) := by
  induction rest generalizing i found with
  | nil => exact h
  | cons v vs ih =>
    have hnext := ih (fun j => by simpa [Nat.add_assoc, Nat.add_comm 1] using hrest (j + 1)) (h.next (hrest 0).symm)
    rwa [Nat.add_assoc, Nat.add_comm 1] at hnext

theorem spans_indices (values : List UInt64) : Spans values (0 + values.length) (indices values) :=
  spans_indicesFrom (fun j => by rw [Nat.zero_add]) ⟨by simp, by simp⟩

theorem indices_filled {lo hi : Nat} (h : indices values = some (lo, hi)) :
    lo ≤ hi ∧ Filled values lo ∧ Filled values hi := by
  obtain ⟨hle, -, hboth⟩ := (spans_indices values).filled lo hi h
  exact ⟨hle, hboth⟩

theorem indices_covers {j : Nat} (h : Filled values j) : ∃ lo hi, indices values = some (lo, hi) ∧ lo ≤ j ∧ j ≤ hi := by
  have hlt := (List.getElem?_eq_some_iff.mp h.choose_spec.1).1
  exact (spans_indices values).covers j (by omega) h

section Log2

/-- One round of the search for the leftmost one: the rest of the value, and the bits found so far. -/
def log2Round (st : BitVec 64 × BitVec 64) (i : Nat) : BitVec 64 × BitVec 64 :=
  let threshold : BitVec 64 := 1#64 <<< (2 ^ i)
  let isGe : BitVec 64 := (BitVec.ofBool (threshold.sle st.1)).setWidth 64
  let shift := isGe <<< i
  (st.1 >>> shift, st.2 + shift)

/-- The generated function `log2(n, k)`. -/
def log2 (n k : BitVec 64) : BitVec 64 :=
  if n.slt 0 then 0
  else
    let mask := (1#64 <<< k) - 1
    if n.ule mask then n + 1
    else
      let l := ([5, 4, 3, 2, 1, 0].foldl log2Round (n, 0)).2 - k
      let x := (n >>> l) &&& mask
      ((l + 1) <<< k) + x + 1

/-- `hist_index_label`, for the shifts that stay below the width of the word. -/
def histIndexLabel (index k : Nat) : Primitive :=
  let n := 1 <<< k
  let interval := index &&& (n - 1)
  let power := (index >>> k) - 1
  let value := (1 <<< power) * (n + interval) % 2 ^ 64
  let decade := power / 10
  .symbolic ((1 <<< (power - 10 * decade)) * (n + interval) % 2 ^ 64 : Nat) decade value

/-- The label of a bucket: the upper end of its interval. -/
def histLabel (k i : Nat) : Primitive :=
  if i = 0 then .int 0 else if i ≤ 2 <<< k then .int i else histIndexLabel i k

def buildHistogram (values : List UInt64) (div : UInt32) (k : Nat) : Histogram :=
  match indices values with
  | none => ⟨none, [], []⟩
  | some (lo, hi) =>
    { lowerBound :=
        if lo = 0 then none
        else some (if lo - 1 ≤ 2 <<< k then .int (lo - 1 : Nat) else histIndexLabel (lo - 1) k)
      labels := (List.range' lo (hi + 1 - lo)).map (histLabel k)
      counts := (List.range' lo (hi + 1 - lo)).map fun i => (values.getD i 0).toNat / div.toNat }

/-- The buckets that are allocated for each key of a `hist()` map. -/
def histBuckets : Nat := 65 * 32

theorem lower_eq_histLabel (k j : Nat) :
    (if j ≤ 2 <<< k then Primitive.int (j : Nat) else histIndexLabel j k) = histLabel k j := by
  rw [histLabel]
  split
  · split
    · next h => subst h; rfl
    · rfl
  · next hj =>
    rw [if_neg]
    rintro rfl
    exact hj (Nat.zero_le _)

theorem printed_buildHistogram (div : UInt32) {k lo hi i : Nat} (h : indices values = some (lo, hi)) (hlo : lo ≤ i)
    (hhi : i ≤ hi) :
    (buildHistogram values div k).printed (i - lo) =
      some ⟨if i = 0 then none else some (histLabel k (i - 1)).value, some (histLabel k i).value⟩ := by
  have hlabel : ∀ j, lo + j ≤ hi → (List.map (histLabel k) (List.range' lo (hi + 1 - lo)))[j]? =
      some (histLabel k (lo + j)) := by
    intro j hj
    rw [List.getElem?_map, List.getElem?_range' (by omega)]
    simp
  rw [buildHistogram, h]
  dsimp only
  rcases Nat.eq_or_lt_of_le hlo with rfl | hlt
  · rw [Nat.sub_self, Histogram.printed]
    rw [hlabel 0 (by omega), Nat.add_zero]
    by_cases hz : lo = 0
    · rw [if_pos hz, if_pos hz]
      rfl
    · rw [if_neg hz, if_neg hz, lower_eq_histLabel]
      rfl
  · obtain ⟨p, rfl⟩ : ∃ p, i = lo + (p + 1) := ⟨i - lo - 1, by omega⟩
    rw [Nat.add_sub_cancel_left, Histogram.printed]
    rw [hlabel p (by omega), hlabel (p + 1) (by omega), if_neg (by omega)]
    rfl

theorem log2Round_eq (n l : BitVec 64) (i : Nat) (hi : i ≤ 5) (hn : n.toNat < 2 ^ 63) (hl : l.toNat + 2 ^ i < 2 ^ 64) :
    (2 ^ 2 ^ i ≤ n.toNat ∧ (log2Round (n, l) i).1.toNat = n.toNat / 2 ^ 2 ^ i ∧
        (log2Round (n, l) i).2.toNat = l.toNat + 2 ^ i) ∨
      (n.toNat < 2 ^ 2 ^ i ∧ log2Round (n, l) i = (n, l)) := by
  have hpow : 2 ^ i ≤ 32 := Nat.pow_le_pow_right (by decide) hi
  have hbig : 2 ^ 2 ^ i ≤ 2 ^ 32 := Nat.pow_le_pow_right (by decide) hpow
  have hthreshold : (1#64 <<< (2 ^ i)).toNat = 2 ^ 2 ^ i := by
    rw [BitVec.toNat_shiftLeft, Nat.shiftLeft_eq, BitVec.toNat_ofNat, Nat.one_mod, Nat.one_mul]
    exact Nat.mod_eq_of_lt (Nat.lt_of_le_of_lt hbig (by decide))
  have hsle : (1#64 <<< (2 ^ i)).sle n = decide (2 ^ 2 ^ i ≤ n.toNat) := by
    rw [BitVec.sle_eq_decide, BitVec.toInt_eq_toNat_of_lt (by omega), BitVec.toInt_eq_toNat_of_lt (by omega),
      hthreshold]
    norm_cast
  by_cases hge : 2 ^ 2 ^ i ≤ n.toNat
  · have hshift : ((BitVec.ofBool true).setWidth 64 <<< i : BitVec 64).toNat = 2 ^ i := by
      have hone : ((BitVec.ofBool true).setWidth 64 : BitVec 64).toNat = 1 := rfl
      rw [BitVec.toNat_shiftLeft, Nat.shiftLeft_eq, hone, Nat.one_mul]
      exact Nat.mod_eq_of_lt (Nat.lt_of_le_of_lt hpow (by decide))
    refine Or.inl ⟨hge, ?_, ?_⟩
    · simp only [log2Round, hsle, hge, decide_true]
      rw [BitVec.ushiftRight_eq', BitVec.toNat_ushiftRight, hshift, Nat.shiftRight_eq_div_pow]
    · simp only [log2Round, hsle, hge, decide_true]
      rw [BitVec.toNat_add, hshift, Nat.mod_eq_of_lt hl]
  · refine Or.inr ⟨by omega, ?_⟩
    simp [log2Round, hsle, hge]

/-- The rounds from `i` down find the position of the leftmost one. -/
theorem rounds_spec (i : Nat) (hi : i ≤ 6) (n l : BitVec 64) (hpos : 0 < n.toNat) (hn : n.toNat < 2 ^ 63)
    (hlt : n.toNat < 2 ^ 2 ^ i) (hl : l.toNat + 2 ^ i ≤ 64) :
    ∃ b < 2 ^ i, ((List.range i).reverse.foldl log2Round (n, l)).2.toNat = l.toNat + b ∧
      2 ^ b ≤ n.toNat ∧ n.toNat < 2 ^ (b + 1) := by
  induction i generalizing n l with
  | zero =>
    refine ⟨0, Nat.one_pos, rfl, ?_, hlt⟩
    omega
  | succ i ih =>
    have hdouble : 2 ^ (i + 1) = 2 ^ i + 2 ^ i := by ring
    have hstep : 0 < 2 ^ i := by positivity
    rw [List.range_succ, List.reverse_append, List.reverse_singleton, List.singleton_append, List.foldl_cons]
    rcases log2Round_eq n l i (by omega) hn (by omega) with ⟨hge, hrest, hbits⟩ | ⟨hsmall, hsame⟩
    · have hquot : n.toNat / 2 ^ 2 ^ i < 2 ^ 2 ^ i := by
        rw [Nat.div_lt_iff_lt_mul (by positivity), ← Nat.pow_add, ← hdouble]
        exact hlt
      have hone : 0 < n.toNat / 2 ^ 2 ^ i := Nat.div_pos hge (by positivity)
      obtain ⟨b, hb, hfound, hlow, hhigh⟩ := ih (by omega) (log2Round (n, l) i).1 (log2Round (n, l) i).2
        (by omega) (by omega) (by omega) (by omega)
      rw [hrest] at hlow hhigh
      refine ⟨2 ^ i + b, by omega, by rw [hfound, hbits, Nat.add_assoc], ?_, ?_⟩
      · rw [Nat.pow_add, Nat.mul_comm]
        exact (Nat.le_div_iff_mul_le (by positivity)).mp hlow
      · rw [Nat.add_assoc, Nat.pow_add, Nat.mul_comm]
        exact (Nat.div_lt_iff_lt_mul (by positivity)).mp hhigh
    · rw [hsame]
      obtain ⟨b, hb, hfound⟩ := ih (by omega) n l hpos hn hsmall (by omega)
      exact ⟨b, by omega, hfound⟩

/-- The bucket of a value: below zero the first one, below `2 ^ k` one for each
value, and above that `2 ^ k` for each power of two. -/
inductive InBucket (k : Nat) (v : Int) (i : Nat) : Prop where
  | negative (below : v < 0) (first : i = 0)
  | single (j : Nat) (small : j < 2 ^ k) (same : v = j) (bucket : i = j + 1)
  | scaled (l q : Nat) (least : 2 ^ k ≤ q) (most : q < 2 ^ (k + 1)) (bits : l + k ≤ 62)
      (lower : (2 ^ l * q : Nat) ≤ v) (upper : v < (2 ^ l * (q + 1) : Nat)) (bucket : i = l * 2 ^ k + q + 1)

/-- The last part of the generated code, for values that share their bucket. -/
theorem log2_scaled {k : Nat} {n : BitVec 64} (hk : k ≤ 5) (hkn : (BitVec.ofNat 64 k).toNat = k)
    (hmask : ((1#64 <<< BitVec.ofNat 64 k) - 1).toNat = 2 ^ k - 1) (hn : n.toNat < 2 ^ 63)
    (hint : n.toInt = n.toNat) (hge : 2 ^ k ≤ n.toNat) :
    let l := ([5, 4, 3, 2, 1, 0].foldl log2Round (n, 0)).2 - BitVec.ofNat 64 k
    InBucket k n.toInt
      (((l + 1) <<< BitVec.ofNat 64 k) + ((n >>> l) &&& ((1#64 <<< BitVec.ofNat 64 k) - 1)) + 1).toNat := by
  have hpos : 0 < 2 ^ k := by positivity
  have hpow : 2 ^ k ≤ 32 := Nat.pow_le_pow_right (by decide) hk
  obtain ⟨b, hb, hfound, hlow, hhigh⟩ := rounds_spec 6 (Nat.le_refl _) n 0 (by omega) hn (by omega) (by decide)
  -- the leftmost one is at bit `b`, and the value has at least the bits of `k`
  have hkb : k < b + 1 := (Nat.pow_lt_pow_iff_right (by decide)).mp (Nat.lt_of_le_of_lt hge hhigh)
  have hb62 : b < 63 := (Nat.pow_lt_pow_iff_right (by decide)).mp (Nat.lt_of_le_of_lt hlow hn)
  obtain ⟨d, rfl⟩ : ∃ d, b = d + k := ⟨b - k, by omega⟩
  intro l
  have hl : l.toNat = d := by
    have hbits : ([5, 4, 3, 2, 1, 0].foldl log2Round (n, 0)).2.toNat = 0 + (d + k) := hfound
    rw [BitVec.toNat_sub_of_le (by rw [BitVec.le_def, hkn, hbits]; omega), hkn, hbits]
    omega
  have hq : 2 ^ k ≤ n.toNat / 2 ^ d ∧ n.toNat / 2 ^ d < 2 ^ (k + 1) := by
    constructor
    · rw [Nat.le_div_iff_mul_le (by positivity), ← Nat.pow_add, Nat.add_comm]
      exact hlow
    · rw [Nat.div_lt_iff_lt_mul (by positivity), ← Nat.pow_add]
      rwa [show k + 1 + d = d + k + 1 by omega]
  have hdouble : 2 ^ (k + 1) = 2 ^ k + 2 ^ k := by ring
  have hx : ((n >>> l) &&& ((1#64 <<< BitVec.ofNat 64 k) - 1)).toNat = n.toNat / 2 ^ d - 2 ^ k := by
    rw [BitVec.toNat_and, hmask, BitVec.ushiftRight_eq', hl, BitVec.toNat_ushiftRight, Nat.shiftRight_eq_div_pow,
      Nat.and_two_pow_sub_one_eq_mod, Nat.mod_eq_sub_mod hq.1]
    exact Nat.mod_eq_of_lt (by omega)
  have hone : (1 : BitVec 64).toNat = 1 := rfl
  have hsucc : (l + 1).toNat = d + 1 := by
    rw [BitVec.toNat_add, hl, hone]
    omega
  have hscaled : (d + 1) * 2 ^ k ≤ 63 * 32 := Nat.mul_le_mul (by omega) hpow
  have hshift : ((l + 1) <<< BitVec.ofNat 64 k).toNat = (d + 1) * 2 ^ k := by
    rw [BitVec.shiftLeft_eq', hkn, BitVec.toNat_shiftLeft, hsucc, Nat.shiftLeft_eq]
    omega
  have hindex : (((l + 1) <<< BitVec.ofNat 64 k) + ((n >>> l) &&& ((1#64 <<< BitVec.ofNat 64 k) - 1)) + 1).toNat =
      d * 2 ^ k + n.toNat / 2 ^ d + 1 := by
    have hexpand : (d + 1) * 2 ^ k = d * 2 ^ k + 2 ^ k := by ring
    rw [BitVec.toNat_add, BitVec.toNat_add, hshift, hx, hone]
    omega
  refine .scaled d (n.toNat / 2 ^ d) hq.1 hq.2 (by omega) ?_ ?_ hindex
  · rw [hint]
    exact_mod_cast Nat.mul_div_le n.toNat (2 ^ d)
  · rw [hint]
    exact_mod_cast Nat.lt_mul_div_succ n.toNat (by positivity)

theorem log2_inBucket (k : Nat) (hk : k ≤ 5) (n : BitVec 64) :
    InBucket k n.toInt (log2 n (BitVec.ofNat 64 k)).toNat := by
  have hkn : (BitVec.ofNat 64 k).toNat = k := by
    rw [BitVec.toNat_ofNat]
    omega
  have hpow : 2 ^ k ≤ 32 := Nat.pow_le_pow_right (by decide) hk
  have hpos : 0 < 2 ^ k := by positivity
  have hmask : ((1#64 <<< BitVec.ofNat 64 k) - 1).toNat = 2 ^ k - 1 := by
    have hone : (1#64 <<< BitVec.ofNat 64 k).toNat = 2 ^ k := by
      rw [BitVec.shiftLeft_eq', hkn, BitVec.toNat_shiftLeft, Nat.shiftLeft_eq, BitVec.toNat_ofNat, Nat.one_mod,
        Nat.one_mul]
      exact Nat.mod_eq_of_lt (Nat.lt_of_le_of_lt hpow (by decide))
    rw [BitVec.toNat_sub_of_le (by rw [BitVec.le_def, hone]; exact hpos), hone]
    rfl
  rw [log2]
  split
  · next hneg => exact .negative (by simpa [BitVec.slt_eq_decide] using hneg) rfl
  · next hnonneg =>
    have hsigned : 0 ≤ n.toInt := by simpa [BitVec.slt_eq_decide] using hnonneg
    have hn : n.toNat < 2 ^ 63 := by
      rw [BitVec.toInt_eq_toNat_cond] at hsigned
      split at hsigned <;> omega
    have hint : n.toInt = n.toNat := BitVec.toInt_eq_toNat_of_lt (by omega)
    dsimp only
    split
    · next hsmall =>
      have hle : n.toNat ≤ 2 ^ k - 1 := by
        rw [BitVec.ule_eq_decide, decide_eq_true_eq, hmask] at hsmall
        exact hsmall
      refine .single n.toNat (by omega) hint ?_
      have hone : (1 : BitVec 64).toNat = 1 := rfl
      rw [BitVec.toNat_add, hone]
      omega
    · next hlarge =>
      have hge : 2 ^ k ≤ n.toNat := by
        rw [BitVec.ule_eq_decide, decide_eq_true_eq, hmask] at hlarge
        omega
      exact log2_scaled hk hkn hmask hn hint hge

/-- The starting value of the `x`-th of the `2 ^ k` intervals of a power of two, as it is
printed and as a number. -/
theorem histIndexLabel_eq {k p x : Nat} (hx : x < 2 ^ k) (hp : p + k ≤ 63) :
    (histIndexLabel ((p + 1) * 2 ^ k + x) k).value = (2 ^ p * (2 ^ k + x) : Nat) ∧
      ∃ mantissa decade, histIndexLabel ((p + 1) * 2 ^ k + x) k = .symbolic mantissa decade (2 ^ p * (2 ^ k + x)) := by
  have hpos : 0 < 2 ^ k := by positivity
  have hquot : ((p + 1) * 2 ^ k + x) >>> k - 1 = p := by
    rw [Nat.shiftRight_eq_div_pow, Nat.mul_comm, Nat.mul_add_div hpos, Nat.div_eq_of_lt hx]
    omega
  have hrem : ((p + 1) * 2 ^ k + x) &&& (2 ^ k - 1) = x := by
    rw [Nat.and_two_pow_sub_one_eq_mod, Nat.mul_comm, Nat.mul_add_mod, Nat.mod_eq_of_lt hx]
  have hbelow : 2 ^ p * (2 ^ k + x) < 2 ^ 64 := by
    have hlt : 2 ^ k + x < 2 ^ (k + 1) := by omega
    calc 2 ^ p * (2 ^ k + x) < 2 ^ p * 2 ^ (k + 1) := (Nat.mul_lt_mul_left (by positivity)).mpr hlt
      _ = 2 ^ (p + k + 1) := by ring
      _ ≤ 2 ^ 64 := Nat.pow_le_pow_right (by decide) (by omega)
  have hsplit : 2 ^ (p - 10 * (p / 10)) * (2 ^ k + x) * 1024 ^ (p / 10) = 2 ^ p * (2 ^ k + x) := by
    have hten : (1024 : Nat) ^ (p / 10) = 2 ^ (10 * (p / 10)) := by rw [Nat.pow_mul]
    rw [hten, Nat.mul_right_comm, ← Nat.pow_add, Nat.sub_add_cancel (Nat.mul_div_le p 10)]
  have hmantissa : 2 ^ (p - 10 * (p / 10)) * (2 ^ k + x) < 2 ^ 64 := by
    refine Nat.lt_of_le_of_lt ?_ hbelow
    rw [← hsplit]
    exact Nat.le_mul_of_pos_right _ (by positivity)
  constructor
  · simp only [histIndexLabel, hquot, Nat.one_shiftLeft, hrem, Primitive.value]
    rw [Nat.mod_eq_of_lt hmantissa, ← hsplit]
    push_cast
    rfl
  · simp only [histIndexLabel, hquot, Nat.one_shiftLeft, hrem]
    rw [Nat.mod_eq_of_lt hbelow]
    exact ⟨_, _, rfl⟩

theorem histLabel_scaled {k l q : Nat} (hleast : 2 ^ k ≤ q) (hmost : q ≤ 2 ^ (k + 1)) (hbits : l + k ≤ 62) :
    (histLabel k (l * 2 ^ k + q)).value = (2 ^ l * q : Nat) := by
  have hpos : 0 < 2 ^ k := by positivity
  rw [histLabel, if_neg (by omega), Nat.shiftLeft_eq]
  split
  · next hclosed =>
    cases l with
    | zero => simp [Primitive.value]
    | succ l =>
      -- only the first label of the second power of two is printed as a plain number
      have hmul : (l + 1) * 2 ^ k = l * 2 ^ k + 2 ^ k := by ring
      have hl : l * 2 ^ k = 0 := by omega
      obtain rfl : l = 0 := by
        rcases Nat.mul_eq_zero.mp hl with h0 | h0
        · exact h0
        · omega
      obtain rfl : q = 2 ^ k := by omega
      exact congrArg Nat.cast (by ring)
  · next hopen =>
    rcases Nat.lt_or_eq_of_le hmost with hlt | rfl
    · obtain ⟨x, rfl⟩ : ∃ x, q = 2 ^ k + x := ⟨q - 2 ^ k, by omega⟩
      have hindex : l * 2 ^ k + (2 ^ k + x) = (l + 1) * 2 ^ k + x := by ring
      rw [hindex, (histIndexLabel_eq (by omega) (by omega)).1]
    · have hindex : l * 2 ^ k + 2 ^ (k + 1) = (l + 1 + 1) * 2 ^ k + 0 := by ring
      have hvalue : 2 ^ (l + 1) * (2 ^ k + 0) = 2 ^ l * 2 ^ (k + 1) := by ring
      rw [hindex, (histIndexLabel_eq hpos (by omega)).1, hvalue]

theorem histLabel_single {k j : Nat} (hj : j ≤ 2 ^ k) : (histLabel k j).value = j := by
  rw [histLabel]
  split
  · next h0 => rw [h0]; rfl
  · rw [if_pos (by omega)]
    rfl

/-- The bucket of a value in a `hist()` map. -/
def log2Index (k : Nat) (v : BitVec 64) : Nat := (log2 v (BitVec.ofNat 64 k)).toNat

theorem InBucket.enclosed {k i : Nat} {v : Int} (h : InBucket k v i) :
    Interval.Contains ⟨if i = 0 then none else some (histLabel k (i - 1)).value, some (histLabel k i).value⟩ v := by
  cases h with
  | negative hbelow hfirst =>
    subst hfirst
    exact ⟨by simp, by simpa [histLabel, Primitive.value] using hbelow⟩
  | single j hsmall hsame hbucket =>
    subst hsame hbucket
    rw [if_neg (Nat.succ_ne_zero j), Nat.add_sub_cancel, histLabel_single (Nat.le_of_lt hsmall),
      histLabel_single hsmall, Interval.contains_some]
    omega
  | scaled l q hleast hmost hbits hlower hupper hbucket =>
    subst hbucket
    rw [if_neg (Nat.succ_ne_zero _), Nat.add_sub_cancel, histLabel_scaled hleast (Nat.le_of_lt hmost) hbits,
      Nat.add_assoc, histLabel_scaled (Nat.le_succ_of_le hleast) hmost hbits, Interval.contains_some]
    exact ⟨hlower, hupper⟩

theorem InBucket.below {k i : Nat} {v : Int} (hk : k ≤ 5) (h : InBucket k v i) : i < histBuckets := by
  have hpow : 2 ^ k ≤ 32 := Nat.pow_le_pow_right (by decide) hk
  rw [histBuckets]
  cases h with
  | negative _ hfirst => omega
  | single j hsmall _ hbucket => omega
  | scaled l q _ hmost hbits _ _ hbucket =>
    have hscaled : l * 2 ^ k ≤ 62 * 32 := Nat.mul_le_mul (by omega) hpow
    omega

/-- The bucket of every value is allocated, and where it is listed its printed
interval contains the value; the intervals of neighbours are adjacent and disjoint. -/
theorem hist_bucket_labelled (k : Nat) (hk : k ≤ 5) :
    (∀ v, log2Index k v < histBuckets) ∧
      (∀ v values div lo hi, indices values = some (lo, hi) → lo ≤ log2Index k v → log2Index k v ≤ hi →
        ∃ I, (buildHistogram values div k).printed (log2Index k v - lo) = some I ∧ I.Contains v.toInt) ∧
      ∀ values div lo hi i, indices values = some (lo, hi) → lo ≤ i → i + 1 ≤ hi →
        ∃ I J, (buildHistogram values div k).printed (i - lo) = some I ∧
          (buildHistogram values div k).printed (i + 1 - lo) = some J ∧
          I.upper = J.lower ∧ ∀ x, ¬ (I.Contains x ∧ J.Contains x) := by
  refine ⟨fun v => (log2_inBucket k hk v).below hk, ?_, ?_⟩
  · intro v values div lo hi h hlo hhi
    exact ⟨_, printed_buildHistogram div h hlo hhi, (log2_inBucket k hk v).enclosed⟩
  · intro values div lo hi i h hlo hhi
    refine ⟨_, _, printed_buildHistogram div h hlo (by omega), printed_buildHistogram div h (by omega) hhi, ?_, ?_⟩
    · rw [if_neg (Nat.succ_ne_zero i), Nat.add_sub_cancel]
    · rintro x ⟨⟨-, hbelow⟩, habove, -⟩
      rw [if_neg (Nat.succ_ne_zero i), Nat.add_sub_cancel] at habove
      have h₁ := hbelow _ rfl
      have h₂ := habove _ rfl
      omega

/-- The value 100 in the plain histogram: bucket 8, printed as `[64, 128)`. -/
theorem hist_bucket_labelled_hundred :
    log2Index 0 100#64 < histBuckets ∧
      ∃ I, (buildHistogram [0, 0, 0, 0, 0, 0, 0, 0, 3] 1 0).printed (log2Index 0 100#64 - 8) = some I ∧
        I.Contains (100#64).toInt :=
  have h := hist_bucket_labelled 0 (by decide)
  ⟨h.1 100#64, h.2.1 100#64 _ 1 8 8 (by decide) (by decide) (by decide)⟩

end Log2

end Histograms
