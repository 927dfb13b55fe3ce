import Ubpftrace.Histograms

/-!
# Linear histograms

`lhist(n, min, max, step)` redoes its bucket arithmetic three times: the
argument checks on 64-bit literals with an `int` for the number of buckets, the
generated code on 64-bit words, and `build_linear_histogram` on `int`.
-/

namespace Histograms

section Linear

/-- The checks of the three literals, as the errors they report. -/
def lhistErrors (min max step : BitVec 64) : List String :=
  (if step.toNat ≤ 0 then ["lhist() step must be >= 1 (" ++ toString step.toNat ++ " provided)"]
    else
      let buckets := (((max - min) / step).setWidth 32).toInt
      if 1000 < buckets then
        ["lhist() too many buckets, must be <= 1000 (would need " ++ toString buckets ++ ")"]
      else []) ++
    (if max.toNat < min.toNat then
      ["lhist() min must be less than max (provided min " ++ toString min.toNat ++ " and max " ++
        toString max.toNat ++ ")"]
    else []) ++
    if (max - min).toNat < step.toNat then
      ["lhist() step is too large for the given range (provided step " ++ toString step.toNat ++ " for range " ++
        toString (max - min).toNat ++ ")"]
    else []

/-- The generated function `linear(value, min, max, step)`. -/
def linear (value min max step : BitVec 64) : BitVec 64 :=
  if value.slt min then 0
  else if max.slt value then (max - min) / step + 1
  else (value - min) / step + 1

/-- The buckets that are allocated for each key of an `lhist()` map. -/
def lhistBuckets : Nat := 1002

/-- The result of an `int` operation; an overflow is undefined. -/
def int (x : Int) : Option Int := if -2 ^ 31 ≤ x ∧ x < 2 ^ 31 then some x else none

/-- A 64-bit argument of a call that takes an `int`. -/
def asInt (x : BitVec 64) : Int := (x.setWidth 32).toInt

def lhistIndexLabel (number step : Int) : Primitive :=
  let numeric := (BitVec.ofInt 64 number).toNat
  if step.tmod 1024 ≠ 0 then .int number
  else if number = 0 then .symbolic number 0 numeric
  else if number.tmod (1024 * 1024) = 0 then .symbolic (number.tdiv (1024 * 1024)) 2 numeric
  else if number.tmod 1024 = 0 then .symbolic (number.tdiv 1024) 1 numeric
  else .symbolic number 0 numeric

/-- `min + (i * step)` in `int`. -/
def boundary (min step : Int) (i : Nat) : Option Int := do
  let offset ← int (i * step)
  int (min + offset)

/-- The labels of the buckets; one beyond `max` is left out. -/
def linearLabels (min max step : Int) : List Nat → Option (List Primitive)
  | [] => some []
  | i :: is => do
    let number ← boundary min step i
    let rest ← linearLabels min max step is
    some (if number ≤ max then lhistIndexLabel number step :: rest else rest)

/-- The lower bound of the first listed bucket; the bucket of the values below `min` has none. -/
def linearLowerBound (min step : Int) (lo : Nat) : Option (Option Primitive) :=
  if lo = 0 then some none
  else (boundary min step (lo - 1)).map fun number => some (lhistIndexLabel number step)

def buildLinearHistogram (values : List UInt64) (min max step : Int) : Option Histogram :=
  match indices values with
  | none => some ⟨none, [], []⟩
  | some (lo, hi) => do
    let lowerBound ← linearLowerBound min step lo
    let labels ← linearLabels min max step (List.range' lo (hi + 1 - lo))
    some ⟨lowerBound, labels, (List.range' lo (hi + 1 - lo)).map fun i => (values.getD i 0).toNat⟩

theorem lhistIndexLabel_value (number step : Int) : (lhistIndexLabel number step).value = number := by
  simp only [lhistIndexLabel]
  split
  · rfl
  split
  · simp [Primitive.value]
  split
  · next hmega =>
    have hexact := Int.tdiv_mul_cancel (Int.dvd_of_tmod_eq_zero hmega)
    simpa [Primitive.value] using hexact
  split
  · next hkilo =>
    have hexact := Int.tdiv_mul_cancel (Int.dvd_of_tmod_eq_zero hkilo)
    simpa [Primitive.value] using hexact
  · simp [Primitive.value]

theorem asInt_range (x : BitVec 64) : -2 ^ 31 ≤ asInt x ∧ asInt x < 2 ^ 31 := by
  have hlow := BitVec.le_toInt (x.setWidth 32)
  have hhigh := BitVec.toInt_lt (x := x.setWidth 32)
  exact ⟨hlow, hhigh⟩

theorem asInt_eq {x : BitVec 64} (hlow : -2 ^ 31 ≤ x.toInt) (hhigh : x.toInt < 2 ^ 31) : asInt x = x.toInt := by
  rw [BitVec.toInt_eq_toNat_cond] at hlow hhigh ⊢
  rw [asInt, BitVec.toInt_eq_toNat_cond, BitVec.toNat_setWidth]
  split <;> split at hlow <;> omega

theorem asInt_of_small {x : BitVec 64} (hx : x.toNat < 2 ^ 31) : asInt x = x.toNat := by
  have hint : x.toInt = x.toNat := BitVec.toInt_eq_toNat_of_lt (by omega)
  rw [asInt_eq (by omega) (by omega), hint]

theorem int_eq_some {x y : Int} : int x = some y ↔ x = y ∧ -2 ^ 31 ≤ x ∧ x < 2 ^ 31 := by
  rw [int]
  split
  · next h => exact ⟨fun hy => ⟨Option.some.inj hy, h⟩, fun hy => congrArg some hy.1⟩
  · next h => exact ⟨fun hy => (nomatch hy), fun hy => absurd hy.2 h⟩

variable {i : Nat}

theorem boundary_eq_some {min step y : Int} :
    boundary min step i = some y ↔
      y = min + i * step ∧ (-2 ^ 31 ≤ i * step ∧ i * step < 2 ^ 31) ∧ -2 ^ 31 ≤ y ∧ y < 2 ^ 31 := by
  rw [boundary, Option.bind_eq_bind, Option.bind_eq_some_iff]
  constructor
  · rintro ⟨offset, hoffset, hy⟩
    obtain ⟨rfl, hfits⟩ := int_eq_some.mp hoffset
    obtain ⟨rfl, hsum⟩ := int_eq_some.mp hy
    exact ⟨rfl, hfits, hsum⟩
  · rintro ⟨rfl, hfits, hsum⟩
    exact ⟨_, int_eq_some.mpr ⟨rfl, hfits⟩, int_eq_some.mpr ⟨rfl, hsum⟩⟩

/-- What accepted arguments promise: a step, an order of the literals, at least one whole bucket. -/
theorem accepted {min max step : BitVec 64} (h : lhistErrors min max step = []) :
    0 < step.toNat ∧ min.toNat ≤ max.toNat ∧ step.toNat ≤ max.toNat - min.toNat := by
  simp only [lhistErrors, List.append_eq_nil_iff] at h
  obtain ⟨⟨hstep, hordered⟩, hrange⟩ := h
  have hpos : 0 < step.toNat := by
    by_contra hzero
    rw [if_pos (by omega)] at hstep
    cases hstep
  have hle : min.toNat ≤ max.toNat := by
    by_contra hlt
    rw [if_pos (by omega)] at hordered
    cases hordered
  by_contra hlarge
  have hsub : (max - min).toNat = max.toNat - min.toNat := BitVec.toNat_sub_of_le hle
  rw [if_pos (by omega)] at hrange
  cases hrange

/-- The whole steps between the bounds. -/
def steps (min max step : BitVec 64) : Nat := (max.toNat - min.toNat) / step.toNat

variable {min max step : BitVec 64}

variable {v : BitVec 64}

theorem linear_below (hv : v.toInt < min.toInt) : (linear v min max step).toNat = 0 := by
  rw [linear, if_pos (by rwa [BitVec.slt_iff_toInt_lt])]
  rfl

theorem linear_above (hle : min.toNat ≤ max.toNat) (hmin : min.toInt ≤ v.toInt)
    (hmax : max.toInt < v.toInt) : (linear v min max step).toNat = (steps min max step + 1) % 2 ^ 64 := by
  have hsub : (max - min).toNat = max.toNat - min.toNat := BitVec.toNat_sub_of_le hle
  rw [linear, if_neg (by rw [BitVec.slt_iff_toInt_lt]; omega), if_pos (by rwa [BitVec.slt_iff_toInt_lt]),
    BitVec.toNat_add, BitVec.toNat_udiv, hsub]
  rfl

/-- Literals in order as numbers with and without sign are less than half the range apart. -/
theorem distance (hle : min.toNat ≤ max.toNat) (hord : min.toInt ≤ max.toInt) :
    (max.toNat : Int) - min.toNat = max.toInt - min.toInt ∧ max.toNat - min.toNat < 2 ^ 63 := by
  rw [BitVec.toInt_eq_toNat_cond, BitVec.toInt_eq_toNat_cond] at *
  split at hord <;> split at hord <;> omega

theorem linear_between (hle : min.toNat ≤ max.toNat) (hmin : min.toInt ≤ v.toInt)
    (hmax : v.toInt ≤ max.toInt) :
    (linear v min max step).toNat = (v.toInt - min.toInt).toNat / step.toNat + 1 := by
  have hspan := distance hle (Int.le_trans hmin hmax)
  have hsub : (v - min).toNat = (v.toInt - min.toInt).toNat := by
    rw [BitVec.toNat_sub]
    rw [BitVec.toInt_eq_toNat_cond, BitVec.toInt_eq_toNat_cond] at *
    split <;> split <;> omega
  have hquot : (v.toInt - min.toInt).toNat / step.toNat < 2 ^ 63 :=
    Nat.lt_of_le_of_lt (Nat.div_le_self _ _) (by omega)
  have hone : (1 : BitVec 64).toNat = 1 := rfl
  rw [linear, if_neg (by rw [BitVec.slt_iff_toInt_lt]; omega), if_neg (by rw [BitVec.slt_iff_toInt_lt]; omega),
    BitVec.toNat_add, BitVec.toNat_udiv, hsub, hone]
  exact Nat.mod_eq_of_lt (Nat.lt_trans (Nat.succ_lt_succ hquot) (by decide))

/-- The labels where no `int` overflows and the bounds up to the `q`-th are within `max`. -/
theorem linearLabels_range {m M s : Int} (q lo n : Nat)
    (hb : ∀ i, lo ≤ i → i < lo + n → boundary m s i = some (m + i * s))
    (hM : ∀ i, lo ≤ i → i < lo + n → (m + i * s ≤ M ↔ i ≤ q)) :
    ∃ labels, linearLabels m M s (List.range' lo n) = some labels ∧
      ∀ p, labels[p]? = if p < n ∧ lo + p ≤ q then some (lhistIndexLabel (m + (lo + p : Nat) * s) s) else none := by
  induction n generalizing lo with
  | zero =>
    refine ⟨[], rfl, fun p => ?_⟩
    rw [if_neg (by omega), List.getElem?_nil]
  | succ n ih =>
    obtain ⟨rest, hrest, hget⟩ := ih (lo + 1) (fun i h₁ h₂ => hb i (by omega) (by omega))
      (fun i h₁ h₂ => hM i (by omega) (by omega))
    have hfirst := hM lo (Nat.le_refl _) (by omega)
    rw [List.range'_succ]
    simp only [linearLabels, hb lo (Nat.le_refl _) (by omega), hrest, Option.bind_eq_bind, Option.bind_some]
    refine ⟨_, rfl, fun p => ?_⟩
    by_cases hq : lo ≤ q
    · rw [if_pos (hfirst.mpr hq)]
      cases p with
      | zero => rw [if_pos ⟨Nat.succ_pos n, hq⟩]; rfl
      | succ p =>
        rw [List.getElem?_cons_succ, hget, show lo + 1 + p = lo + (p + 1) by omega]
        exact if_congr (by omega) rfl rfl
    · rw [if_neg (fun h => hq (hfirst.mp h)), hget, if_neg (by omega), if_neg (by omega)]

/-- The arguments for which the printer's `int` arithmetic is exact and the array is large enough. -/
structure Fits (min max step : BitVec 64) : Prop where
  ordered : min.toInt ≤ max.toInt
  few : steps min max step ≤ 1000
  least : -2 ^ 31 ≤ min.toInt
  span : (steps min max step + 1) * step.toNat < 2 ^ 31
  top : min.toInt + ((steps min max step + 1) * step.toNat : Nat) < 2 ^ 31

/-- Every value is counted in an allocated bucket, and where it is counted the
interval printed for its bucket contains it. -/
def Faithful (min max step : BitVec 64) : Prop :=
  ∀ v : BitVec 64, (linear v min max step).toNat < lhistBuckets ∧
    ∀ values : List UInt64, values.length = lhistBuckets →
      (∀ i, Filled values i → ∃ w, (linear w min max step).toNat = i) →
      Filled values (linear v min max step).toNat →
      ∃ lo hi h I, indices values = some (lo, hi) ∧
        buildLinearHistogram values (asInt min) (asInt max) (asInt step) = some h ∧
        h.printed ((linear v min max step).toNat - lo) = some I ∧ I.Contains v.toInt

section

variable (h : Fits min max step) (hle : min.toNat ≤ max.toNat) (hpos : 0 < step.toNat)
include h hle hpos

theorem Fits.steps_spec :
    min.toInt + (steps min max step * step.toNat : Nat) ≤ max.toInt ∧
      max.toInt < min.toInt + ((steps min max step + 1) * step.toNat : Nat) := by
  have hspan := distance hle h.ordered
  have hlow : steps min max step * step.toNat ≤ max.toNat - min.toNat := Nat.div_mul_le_self _ _
  have hhigh : max.toNat - min.toNat < (steps min max step + 1) * step.toNat := by
    rw [Nat.mul_comm]
    exact Nat.lt_mul_div_succ _ hpos
  omega

theorem Fits.exact : asInt min = min.toInt ∧ asInt max = max.toInt ∧ asInt step = step.toNat := by
  have hspec := h.steps_spec hle hpos
  have hleast := h.least
  have htop := h.top
  have hspan := h.span
  have hstep : step.toNat ≤ (steps min max step + 1) * step.toNat := Nat.le_mul_of_pos_left _ (Nat.succ_pos _)
  exact ⟨asInt_eq hleast (by omega), asInt_eq (by omega) (by omega), asInt_of_small (by omega)⟩

theorem Fits.printed {values : List UInt64} {lo hi : Nat} (hindices : indices values = some (lo, hi)) (hlo : lo ≤ i)
    (hhi : i ≤ hi) (hlast : hi ≤ steps min max step + 1) :
    ∃ H, buildLinearHistogram values (asInt min) (asInt max) (asInt step) = some H ∧
      H.printed (i - lo) =
        some ⟨if i = 0 then none else some (min.toInt + (i - 1 : Nat) * step.toNat),
          if i ≤ steps min max step then some (min.toInt + i * step.toNat) else none⟩ := by
  obtain ⟨hmin, hmax, hstep⟩ := h.exact hle hpos
  obtain ⟨hlow, hhigh⟩ := h.steps_spec hle hpos
  have hspan := h.span
  have htop := h.top
  have hleast := h.least
  set q := steps min max step
  set s := step.toNat
  rw [hmin, hmax, hstep]
  have hboundary : ∀ j ≤ q + 1, boundary min.toInt s j = some (min.toInt + j * s) := by
    intro j hj
    have hmul : j * s ≤ (q + 1) * s := Nat.mul_le_mul_right _ hj
    have hcast : ((j * s : Nat) : Int) = j * s := by rfl
    rw [boundary_eq_some, ← hcast]
    omega
  have hwithin : ∀ j : Nat, min.toInt + j * s ≤ max.toInt ↔ j ≤ q := by
    intro j
    constructor
    · by_contra hq
      have hmul : (q + 1) * s ≤ j * s := Nat.mul_le_mul_right _ (by omega)
      omega
    · intro hj
      have hmul : j * s ≤ q * s := Nat.mul_le_mul_right _ hj
      omega
  obtain ⟨labels, hlabels, hget⟩ := linearLabels_range q lo (hi + 1 - lo)
    (fun j _ hj => hboundary j (by omega)) (fun j _ _ => hwithin j)
  have hlabel : ∀ p, lo + p ≤ hi → labels[p]?.map Primitive.value =
      if lo + p ≤ q then some (min.toInt + (lo + p : Nat) * s) else none := by
    intro p hp
    rw [hget]
    by_cases hq : lo + p ≤ q
    · rw [if_pos ⟨by omega, hq⟩, if_pos hq, Option.map_some, lhistIndexLabel_value]
    · rw [if_neg (by omega), if_neg hq, Option.map_none]
  have hlower : linearLowerBound min.toInt s lo =
      some (if lo = 0 then none else some (lhistIndexLabel (min.toInt + (lo - 1 : Nat) * s) s)) := by
    rw [linearLowerBound]
    split
    · rfl
    · rw [hboundary (lo - 1) (by omega), Option.map_some]
  rw [buildLinearHistogram, hindices]
  simp only [hlower, hlabels, Option.bind_eq_bind, Option.bind_some]
  refine ⟨_, rfl, ?_⟩
  rcases Nat.eq_or_lt_of_le hlo with rfl | hlt
  · have hfirst := hlabel 0 hhi
    rw [Nat.add_zero] at hfirst
    rw [Nat.sub_self]
    by_cases hz : lo = 0
    · subst hz
      exact Histogram.printed_first rfl hfirst
    · simp only [if_neg hz, Histogram.printed, hfirst, lhistIndexLabel_value]
  · obtain ⟨p, rfl⟩ : ∃ p, i = lo + (p + 1) := ⟨i - lo - 1, by omega⟩
    have hbefore := hlabel p (by omega)
    rw [if_pos (by omega)] at hbefore
    have hne : lo + (p + 1) ≠ 0 := by omega
    rw [Nat.add_sub_cancel_left, Histogram.printed_next hbefore, hlabel (p + 1) hhi, if_neg hne]
    rfl

/-- The index of a value among the boundaries of its bucket. -/
theorem Fits.linear_spec (v : BitVec 64) :
    (linear v min max step).toNat ≤ steps min max step + 1 ∧
      Interval.Contains
        ⟨if (linear v min max step).toNat = 0 then none
          else some (min.toInt + ((linear v min max step).toNat - 1 : Nat) * step.toNat),
        if (linear v min max step).toNat ≤ steps min max step then
          some (min.toInt + (linear v min max step).toNat * step.toNat) else none⟩ v.toInt := by
  obtain ⟨hlow, hhigh⟩ := h.steps_spec hle hpos
  have hfew := h.few
  rcases Int.lt_or_le v.toInt min.toInt with hbelow | hmin
  · rw [linear_below hbelow, if_pos rfl, if_pos (Nat.zero_le _)]
    exact ⟨Nat.zero_le _, by simp, by simpa using hbelow⟩
  rcases Int.lt_or_le max.toInt v.toInt with habove | hmax
  · have hindex : (linear v min max step).toNat = steps min max step + 1 := by
      rw [linear_above hle hmin habove]
      exact Nat.mod_eq_of_lt (by omega)
    rw [hindex, if_neg (Nat.succ_ne_zero _), if_neg (Nat.not_succ_le_self _), Nat.add_sub_cancel]
    exact ⟨Nat.le_refl _, by simpa using by omega, by simp⟩
  · rw [linear_between hle hmin hmax, if_neg (Nat.succ_ne_zero _), Nat.add_sub_cancel]
    obtain ⟨d, hd⟩ : ∃ d : Nat, v.toInt = min.toInt + d := ⟨(v.toInt - min.toInt).toNat, by omega⟩
    have hdiff : (v.toInt - min.toInt).toNat = d := by omega
    have hfloor : d / step.toNat * step.toNat ≤ d := Nat.div_mul_le_self _ _
    have hceil : d < (d / step.toNat + 1) * step.toNat := by
      rw [Nat.mul_comm]
      exact Nat.lt_mul_div_succ _ hpos
    rw [hdiff, hd]
    refine ⟨?_, ?_, ?_⟩
    · have hbound : d / step.toNat < steps min max step + 1 := by
        rw [Nat.div_lt_iff_lt_mul hpos]
        omega
      omega
    · rintro l hl
      obtain rfl := Option.mem_some_iff.mp hl
      omega
    · rintro u hu
      split at hu
      · obtain rfl := Option.mem_some_iff.mp hu
        omega
      · cases hu

theorem Fits.faithful : Faithful min max step := by
  intro v
  obtain ⟨hindex, hinside⟩ := h.linear_spec hle hpos v
  refine ⟨Nat.lt_of_le_of_lt hindex (Nat.succ_lt_succ (Nat.lt_succ_of_le h.few)), ?_⟩
  intro values _ hcounted hfilled
  obtain ⟨lo, hi, hindices, hlo, hhi⟩ := indices_covers hfilled
  obtain ⟨w, hw⟩ := hcounted hi (indices_filled hindices).2.2
  obtain ⟨H, hbuilt, hprinted⟩ := h.printed hle hpos hindices hlo hhi (by rw [← hw]; exact (h.linear_spec hle hpos w).1)
  exact ⟨lo, hi, H, _, hindices, hbuilt, hprinted, hinside⟩

end

def twoCounts (lo hi : Nat) : List UInt64 := (List.range lhistBuckets).map fun i => if i = lo ∨ i = hi then 1 else 0

theorem filled_twoCounts {lo hi : Nat} : Filled (twoCounts lo hi) i ↔ i < lhistBuckets ∧ (i = lo ∨ i = hi) := by
  have hget : (twoCounts lo hi)[i]? = if i < lhistBuckets then some (if i = lo ∨ i = hi then 1 else 0) else none := by
    rw [twoCounts, List.getElem?_map]
    split
    · next h => rw [List.getElem?_range h, Option.map_some]
    · next h => rw [List.getElem?_eq_none (by rw [List.length_range]; omega), Option.map_none]
  rw [Filled, hget]
  constructor
  · rintro ⟨v, hv, hpositive⟩
    split at hv
    · next h =>
      refine ⟨h, ?_⟩
      by_contra hother
      rw [if_neg hother] at hv
      cases hv
      exact absurd hpositive (by decide)
    · cases hv
  · rintro ⟨h, hcounted⟩
    rw [if_pos h, if_pos hcounted]
    exact ⟨1, rfl, by decide⟩

theorem indices_twoCounts {lo hi : Nat} (hle : lo ≤ hi) (hhi : hi < lhistBuckets) :
    indices (twoCounts lo hi) = some (lo, hi) := by
  obtain ⟨a, b, hindices, ha, -⟩ := indices_covers (filled_twoCounts.mpr ⟨Nat.lt_of_le_of_lt hle hhi, Or.inl rfl⟩)
  obtain ⟨c, d, hsame, -, hd⟩ :=
    indices_covers (filled_twoCounts.mpr ⟨hhi, Or.inr (Eq.refl hi)⟩ : Filled (twoCounts lo hi) hi)
  obtain ⟨rfl, rfl⟩ := Prod.mk.inj (Option.some.inj (hindices.symm.trans hsame))
  obtain ⟨-, hlo', hhi'⟩ := indices_filled hindices
  obtain ⟨-, hfirst⟩ := filled_twoCounts.mp hlo'
  obtain ⟨-, hlast⟩ := filled_twoCounts.mp hhi'
  rw [hindices, show a = lo by omega, show b = hi by omega]

theorem linearLabels_cons {m M s : Int} {is : List Nat} {labels : List Primitive}
    (h : linearLabels m M s (i :: is) = some labels) :
    ∃ b rest, boundary m s i = some b ∧ linearLabels m M s is = some rest ∧
      labels = if b ≤ M then lhistIndexLabel b s :: rest else rest := by
  simp only [linearLabels, Option.bind_eq_bind, Option.bind_eq_some_iff] at h
  obtain ⟨b, hb, rest, hrest, hlabels⟩ := h
  exact ⟨b, rest, hb, hrest, (Option.some.inj hlabels).symm⟩

section

variable (h : Faithful min max step)
include h

/-- What a faithful histogram prints where two buckets are counted. -/
theorem Faithful.printed {lo hi : Nat} (hle : lo ≤ hi) {w : BitVec 64} (hv : (linear v min max step).toNat = lo)
    (hw : (linear w min max step).toNat = hi) :
    ∃ H, linearLowerBound (asInt min) (asInt step) lo = some H.lowerBound ∧
      linearLabels (asInt min) (asInt max) (asInt step) (List.range' lo (hi + 1 - lo)) = some H.labels ∧
      ∀ x i, (linear x min max step).toNat = i → i = lo ∨ i = hi →
        ∃ I, Histogram.printed H (i - lo) = some I ∧ I.Contains x.toInt := by
  have hhi : hi < lhistBuckets := by
    rw [← hw]
    exact (h w).1
  have hindices := indices_twoCounts hle hhi
  have hlength : (twoCounts lo hi).length = lhistBuckets := by rw [twoCounts, List.length_map, List.length_range]
  have hcounted : ∀ i, Filled (twoCounts lo hi) i → ∃ w, (linear w min max step).toNat = i := by
    intro i hi
    rcases (filled_twoCounts.mp hi).2 with rfl | rfl
    · exact ⟨v, hv⟩
    · exact ⟨w, hw⟩
  have hprinted : ∀ x i, (linear x min max step).toNat = i → i = lo ∨ i = hi →
      ∃ H I, buildLinearHistogram (twoCounts lo hi) (asInt min) (asInt max) (asInt step) = some H ∧
        Histogram.printed H (i - lo) = some I ∧ I.Contains x.toInt := by
    rintro x i rfl hx
    obtain ⟨a, b, H, I, hab, hbuilt, hI, hinside⟩ :=
      (h x).2 _ hlength hcounted (filled_twoCounts.mpr ⟨(h x).1, hx⟩)
    obtain ⟨rfl, rfl⟩ := Prod.mk.inj (Option.some.inj (hindices.symm.trans hab))
    exact ⟨H, I, hbuilt, hI, hinside⟩
  obtain ⟨H, -, hbuilt, -, -⟩ := hprinted v lo hv (Or.inl rfl)
  have hparts := hbuilt
  rw [buildLinearHistogram, hindices] at hparts
  simp only [Option.bind_eq_bind, Option.bind_eq_some_iff] at hparts
  obtain ⟨lower, hlower, labels, hlabels, hH⟩ := hparts
  have hfields := Option.some.inj hH
  refine ⟨H, by rw [← hfields]; exact hlower, by rw [← hfields]; exact hlabels, ?_⟩
  intro x i hx hi
  obtain ⟨H', I, hsame, hI, hinside⟩ := hprinted x i hx hi
  obtain rfl := Option.some.inj (hbuilt.symm.trans hsame)
  exact ⟨I, hI, hinside⟩

theorem Faithful.first (hv : (linear v min max step).toNat = 0) : asInt min ≤ asInt max ∧ v.toInt < asInt min := by
  obtain ⟨H, hlower, hlabels, hprinted⟩ := h.printed (Nat.le_refl 0) hv hv
  obtain ⟨I, hI, hinside⟩ := hprinted v 0 hv (Or.inl rfl)
  obtain ⟨b, rest, hb, hrest, hparts⟩ := linearLabels_cons hlabels
  obtain rfl : [] = rest := Option.some.inj hrest
  obtain ⟨rfl, -⟩ := boundary_eq_some.mp hb
  have hnone : H.lowerBound = none := (Option.some.inj hlower).symm
  rw [Nat.cast_zero, Int.zero_mul, Int.add_zero] at hparts
  split at hparts
  · next hle =>
    rw [Histogram.printed_first hnone
      (by rw [hparts, List.getElem?_cons_zero, Option.map_some, lhistIndexLabel_value])] at hI
    cases hI
    exact ⟨hle, hinside.2 _ rfl⟩
  · rw [Histogram.printed, hnone, hparts] at hI
    cases hI

/-- A bucket alone: both boundaries are `int`s, and the upper one counts where it is within `max`. -/
theorem Faithful.alone (hv : (linear v min max step).toNat = i + 1) :
    ∃ a b, boundary (asInt min) (asInt step) i = some a ∧ boundary (asInt min) (asInt step) (i + 1) = some b ∧
      a ≤ v.toInt ∧ (b ≤ asInt max → v.toInt < b) := by
  obtain ⟨H, hlower, hlabels, hprinted⟩ := h.printed (Nat.le_refl (i + 1)) hv hv
  obtain ⟨I, hI, hinside⟩ := hprinted v (i + 1) hv (Or.inl rfl)
  rw [Nat.add_sub_cancel_left] at hlabels
  obtain ⟨b, rest, hb, hrest, hparts⟩ := linearLabels_cons hlabels
  obtain ⟨a, ha, hlowest⟩ := Option.map_eq_some_iff.mp hlower
  rw [Nat.sub_self, Histogram.printed, ← hlowest] at hI
  cases hI
  refine ⟨a, b, ha, hb, ?_, ?_⟩
  · have hlow := hinside.1 _ rfl
    rwa [lhistIndexLabel_value] at hlow
  · intro hle
    apply hinside.2
    rw [hparts, if_pos hle, List.getElem?_cons_zero, Option.map_some, lhistIndexLabel_value b]
    rfl

/-- Two neighbours of which the second has no label: the first one has one, and its values are below it. -/
theorem Faithful.neighbours {w : BitVec 64} (hv : (linear v min max step).toNat = i + 1)
    (hw : (linear w min max step).toNat = i + 2)
    (hbeyond : ∀ b, boundary (asInt min) (asInt step) (i + 2) = some b → ¬ b ≤ asInt max) :
    ∃ b, boundary (asInt min) (asInt step) (i + 1) = some b ∧ v.toInt < b := by
  obtain ⟨H, hlower, hlabels, hprinted⟩ := h.printed (Nat.le_succ (i + 1)) hv hw
  obtain ⟨I, hI, hinside⟩ := hprinted v (i + 1) hv (Or.inl rfl)
  obtain ⟨J, hJ, -⟩ := hprinted w (i + 2) hw (Or.inr rfl)
  rw [show i + 1 + 1 + 1 - (i + 1) = 2 by omega] at hlabels
  obtain ⟨b, rest, hb, hrest, hparts⟩ := linearLabels_cons hlabels
  obtain ⟨c, last, hc, hlast, hrest⟩ := linearLabels_cons hrest
  obtain rfl : [] = last := Option.some.inj hlast
  rw [if_neg (hbeyond c hc)] at hrest
  subst hrest
  refine ⟨b, hb, ?_⟩
  split at hparts
  · obtain ⟨a, ha, hlowest⟩ := Option.map_eq_some_iff.mp hlower
    rw [Nat.sub_self, Histogram.printed, ← hlowest, hparts] at hI
    cases hI
    apply hinside.2
    rw [List.getElem?_cons_zero, Option.map_some, lhistIndexLabel_value b]
    rfl
  · -- the second bucket would have to read a label that is not there
    rw [show i + 2 - (i + 1) = 0 + 1 by omega, Histogram.printed, hparts] at hJ
    cases hJ

end

theorem exists_toInt {x : Int} (hlow : -2 ^ 63 ≤ x) (hhigh : x < 2 ^ 63) : ∃ v : BitVec 64, v.toInt = x :=
  ⟨BitVec.ofInt 64 x, BitVec.toInt_ofInt_eq_self (by decide) hlow hhigh⟩

section

variable (h : Faithful min max step) (hle : min.toNat ≤ max.toNat)
include h hle

/-- Literals that are out of order as signed numbers put every value from `min` on into one bucket. -/
theorem Faithful.ordered (hsteps : 1 ≤ steps min max step) : min.toInt ≤ max.toInt := by
  by_contra hcrossed
  have hnonneg : 0 ≤ min.toInt := by
    rw [BitVec.toInt_eq_toNat_cond, BitVec.toInt_eq_toNat_cond] at *
    split at hcrossed <;> split at hcrossed <;> split <;> omega
  have hminlt := BitVec.toInt_lt (x := min)
  have hsmall := asInt_range min
  have hindex : ∀ v : BitVec 64, min.toInt ≤ v.toInt →
      (linear v min max step).toNat = (steps min max step + 1) % 2 ^ 64 :=
    fun v hv => linear_above hle hv (by omega)
  obtain ⟨below, hbelow⟩ := exists_toInt (x := min.toInt - 1) (by omega) (by omega)
  obtain ⟨last, hlast⟩ := exists_toInt (x := 2 ^ 63 - 1) (by decide) (by decide)
  have hlastindex := hindex last (by omega)
  obtain ⟨hpushed, hmin⟩ := h.first (linear_below (by omega) : (linear below min max step).toNat = 0)
  rcases Nat.eq_zero_or_pos ((steps min max step + 1) % 2 ^ 64) with hz | hpos
  · rw [hz] at hlastindex
    have hend := (h.first hlastindex).2
    omega
  · have hq : steps min max step < 2 ^ 64 := by
      exact Nat.lt_of_le_of_lt (Nat.div_le_self _ _) (by omega)
    have hexact : (steps min max step + 1) % 2 ^ 64 = steps min max step + 1 := by omega
    rw [hexact] at hlastindex hindex
    obtain ⟨a, b, ha, hb, -, hupper⟩ := h.alone hlastindex
    obtain ⟨a', b', ha', hb', hlower, -⟩ := h.alone (hindex min (Int.le_refl _))
    obtain rfl := Option.some.inj (ha.symm.trans ha')
    obtain ⟨rfl, -, -, hbelow31⟩ := boundary_eq_some.mp hb
    obtain ⟨rfl, -⟩ := boundary_eq_some.mp ha
    -- the lower end must not exceed `min`, so the step is not positive; the missing upper end says it is
    have hstep : 0 < asInt step := by
      by_contra hnot
      have hmul : ((steps min max step + 1 : Nat) : Int) * asInt step ≤ 0 :=
        Int.mul_nonpos_of_nonneg_of_nonpos (Int.natCast_nonneg _) (by omega)
      omega
    have hmul : 0 < (steps min max step : Int) * asInt step := Int.mul_pos (by omega) hstep
    omega

theorem Faithful.min_exact (hord : min.toInt ≤ max.toInt) : asInt min = min.toInt := by
  have hone : (linear min min max step).toNat = 0 + 1 := by
    rw [linear_between hle (Int.le_refl _) hord, Int.sub_self]
    simp
  have hrange := asInt_range min
  have hminlt := BitVec.toInt_lt (x := min)
  obtain ⟨a, b, ha, -, hlower, -⟩ := h.alone hone
  obtain ⟨rfl, -⟩ := boundary_eq_some.mp ha
  obtain ⟨below, hbelow⟩ := exists_toInt (x := min.toInt - 1) (by omega) (by omega)
  obtain ⟨-, hupper⟩ := h.first (linear_below (by omega) : (linear below min max step).toNat = 0)
  omega

theorem Faithful.fits (hpos : 0 < step.toNat) (hsteps : 1 ≤ steps min max step) : Fits min max step := by
  have hord := h.ordered hle hsteps
  have hmin := h.min_exact hle hord
  have hspan := distance hle hord
  have hrange := asInt_range min
  have hmaxlt := BitVec.toInt_lt (x := max)
  have hmost : (linear max min max step).toNat = steps min max step + 1 := by
    rw [linear_between hle hord (Int.le_refl _), steps]
    congr 2
    omega
  have hfew : steps min max step + 1 < lhistBuckets := by
    rw [← hmost]
    exact (h max).1
  rw [lhistBuckets] at hfew
  -- the last bucket has no label
  obtain ⟨last, hlast⟩ := exists_toInt (x := 2 ^ 63 - 1) (by decide) (by decide)
  have hlastindex : (linear last min max step).toNat = steps min max step + 1 := by
    rcases Int.lt_or_le max.toInt last.toInt with habove | hat
    · rw [linear_above hle (by omega) habove]
      exact Nat.mod_eq_of_lt (by omega)
    · obtain rfl : last = max := BitVec.eq_of_toInt_eq (by omega)
      exact hmost
  obtain ⟨a, b, -, hb, -, hupper⟩ := h.alone hlastindex
  obtain ⟨hbeq, hspans, -, hb31⟩ := boundary_eq_some.mp hb
  have hopen : ¬ b ≤ asInt max := fun hle' => by
    omega
  -- so the bucket before it has one, and the largest of its values is below
  obtain ⟨i, hi⟩ : ∃ i, steps min max step = i + 1 := ⟨steps min max step - 1, by omega⟩
  rw [hi] at hmost hb hbeq hspans
  have hwhole : (i + 1) * step.toNat ≤ max.toNat - min.toNat := by
    rw [← hi]
    exact Nat.div_mul_le_self _ _
  have hlarge : step.toNat ≤ (i + 1) * step.toNat := Nat.le_mul_of_pos_left _ (Nat.succ_pos i)
  obtain ⟨v, hv⟩ := exists_toInt (x := min.toInt + ((i + 1) * step.toNat - 1 : Nat)) (by omega) (by omega)
  have hvindex : (linear v min max step).toNat = i + 1 := by
    rw [linear_between hle (by omega) (by omega), hv, show (min.toInt + ((i + 1) * step.toNat - 1 : Nat) -
      min.toInt).toNat = (i + 1) * step.toNat - 1 by omega]
    congr 1
    apply Nat.div_eq_of_lt_le
    · rw [Nat.add_mul] at *
      omega
    · omega
  obtain ⟨c, hc, hvc⟩ := h.neighbours hvindex hmost (fun b' hb' => by
    obtain rfl := Option.some.inj (hb.symm.trans hb')
    exact hopen)
  obtain ⟨rfl, -⟩ := boundary_eq_some.mp hc
  have hstep : (step.toNat : Int) ≤ asInt step := by
    have hmul : ((i + 1 : Nat) : Int) * step.toNat ≤ (i + 1 : Nat) * asInt step := by
      omega
    exact Int.le_of_mul_le_mul_left hmul (by omega)
  have hstepexact : asInt step = step.toNat := asInt_of_small (by have := asInt_range step; omega)
  rw [hstepexact, ← Nat.cast_mul] at hspans hbeq
  constructor
  · exact hord
  · omega
  · omega
  · rw [hi]
    omega
  · rw [hi]
    omega

end

/-- Accepted arguments are faithful exactly if they fit. -/
theorem linear_faithful_iff (min max step : BitVec 64) (h : lhistErrors min max step = []) :
    Faithful min max step ↔ Fits min max step := by
  obtain ⟨hpos, hle, hrange⟩ := accepted h
  exact ⟨fun hf => hf.fits hle hpos ((Nat.le_div_iff_mul_le hpos).mpr (by omega)), fun hf => hf.faithful hle hpos⟩

theorem linear_faithful_iff_hundred : Faithful 0#64 100#64 10#64 :=
  (linear_faithful_iff 0#64 100#64 10#64 (by decide)).mpr
    ⟨by decide, by decide, by decide, by decide, by decide⟩

/-- A range of `2 ^ 32` steps passes for one of none, and the value 5000 is in bucket 5001. -/
theorem truncated_range_accepted :
    lhistErrors 0#64 4294967296#64 1#64 = [] ∧ (linear 5000#64 0#64 4294967296#64 1#64).toNat = 5001 ∧
      ¬ 5001 < lhistBuckets := by
  decide

end Linear

end Histograms
