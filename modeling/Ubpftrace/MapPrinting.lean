import Ubpftrace.Bytes
import Ubpftrace.KeyedSort
import Ubpftrace.MachineWords

/-!
# Printing a map

`format` for a map sorts the collected elements by a number it computes from
their bytes, leaves out all but the last `top`, and formats each value with
code of its own choice of width and sign. The map types are the scalar ones:
integers in a plain hash map, the aggregations in a per-CPU map.
-/

namespace MapPrinting

open Bytes
open MachineWords (Sign)
open KeyedSort (Sorts Showable shown hidden cut)

inductive Width where
  | one | two | four | eight
  deriving DecidableEq

def Width.bytes : Width → Nat
  | .one => 1
  | .two => 2
  | .four => 4
  | .eight => 8

inductive ValueType where
  | integer (w : Width) (s : Sign)
  | count
  | sum (s : Sign)
  | min (s : Sign)
  | max (s : Sign)
  | avg (s : Sign)
  deriving DecidableEq

/-- The bytes that `collect_elements` allocates for a value: of a per-CPU map, one for
each CPU, and a second word with each for `min`, `max` and `avg`. -/
def ValueType.size (ncpus : Nat) : ValueType → Nat
  | .integer w _ => w.bytes
  | .count | .sum _ => 8 * ncpus
  | .min _ | .max _ | .avg _ => 16 * ncpus

/-- `OpaqueValue::count<T>` for a type of `w` bytes. -/
def count (w : Nat) (value : List UInt8) : Nat := value.length / w

/-- `OpaqueValue::bitcast<T>(i)` for a type of `w` bytes. -/
def bitcast (w : Nat) (value : List UInt8) (i : Nat) : BitVec (8 * w) :=
  BitVec.ofNat _ (readLe (ofList value) (i * w) w)

def reduceValue (w : Nat) (value : List UInt8) : BitVec (8 * w) :=
  (List.range (count w value)).foldl (fun sum i => sum + bitcast w value i) 0

/-- One round of `min_max_value`: CPUs whose second word is zero have no value. -/
def minMaxStep (s : Sign) (isMax : Bool) (value : List UInt8) (found : Option (BitVec (8 * 8))) (i : Nat) :
    Option (BitVec (8 * 8)) :=
  let val := bitcast 8 value (i * 2)
  if bitcast 8 value (i * 2 + 1) = 0 then found
  else
    match found with
    | none => some val
    | some best =>
      if isMax ∧ s.val best < s.val val then some val
      else if ¬ isMax ∧ s.val val < s.val best then some val
      else some best

def minMaxValue (s : Sign) (isMax : Bool) (value : List UInt8) : BitVec (8 * 8) :=
  ((List.range (count 8 value / 2)).foldl (minMaxStep s isMax value) none).getD 0

/-- `avg_value`, the average of `stats_value`. -/
def avgValue (s : Sign) (value : List UInt8) : BitVec (8 * 8) :=
  let cpus := List.range (count 8 value / 2)
  let total := cpus.foldl (fun sum i => sum + bitcast 8 value (i * 2)) 0
  let entries := cpus.foldl (fun sum i => sum + bitcast 8 value (i * 2 + 1)) 0
  if 0 < s.val entries then s.quot total entries else 0

/-- The number that the elements are sorted by. -/
def sortKey : ValueType → List UInt8 → Int
  | .count, value => Sign.unsigned.val (reduceValue 8 value)
  | .sum s, value => s.val (reduceValue 8 value)
  | .integer _ s, value => s.val (reduceValue 8 value)
  | .min _, value => Sign.unsigned.val (minMaxValue .unsigned false value)
  | .max _, value => Sign.unsigned.val (minMaxValue .unsigned true value)
  | .avg s, value => s.val (avgValue s value)

/-- The divisor at the type of a signed dividend: below 64 bits it is cast to that type. -/
def castDiv (w : Width) (div : UInt32) : Int :=
  match w with
  | .eight => div.toNat
  | w => (BitVec.ofNat (8 * w.bytes) div.toNat).toInt

/-- An integer divided for display. There is no quotient by zero, nor of the least
number by -1 in the type of the division, which is `int` below 32 bits. -/
def intQuotient (w : Width) (s : Sign) (x : BitVec (8 * w.bytes)) (div : UInt32) : Option Int :=
  match s with
  | .unsigned => some (x.toNat / div.toNat : Nat)
  | .signed =>
    let d := castDiv w div
    if d = 0 ∨ (4 ≤ w.bytes ∧ x.toInt = -2 ^ (8 * w.bytes - 1) ∧ d = -1) then none else some (x.toInt.tdiv d)

/-- The two words of each CPU, or a single word where they were combined before. -/
def collapsed (s : Sign) (value : List UInt8) (combined : BitVec (8 * 8)) : Int :=
  if count 8 value = 1 then s.val (bitcast 8 value 0) else s.val combined

/-- The number that is displayed for a value. -/
def displayed (ty : ValueType) (div : UInt32) (value : List UInt8) : Option Int :=
  match ty with
  | .count => some ((reduceValue 8 value).toNat / div.toNat : Nat)
  | .integer w s => intQuotient w s (reduceValue w.bytes value) div
  | .sum s => some ((s.val (reduceValue 8 value)).tdiv div.toNat)
  | .min s => some ((collapsed s value (minMaxValue s false value)).tdiv div.toNat)
  | .max s => some ((collapsed s value (minMaxValue s true value)).tdiv div.toNat)
  | .avg s => some ((collapsed s value (avgValue s value)).tdiv div.toNat)

variable {κ : Type}

/-- A row of the output: the key and the number displayed for it. -/
def row (ty : ValueType) (div : UInt32) (e : κ × List UInt8) : Option (κ × Int) :=
  (displayed ty div e.2).map fun v => (e.1, v)

/-- The loop over the sorted elements; `done` counts the ones that are left out. -/
def printLoop (ty : ValueType) (div : UInt32) (top total done : Nat) : List (κ × List UInt8) → Option (List (κ × Int))
  | [] => some []
  | e :: es =>
    let next := if top ≠ 0 ∧ top < total then done + 1 else done
    if top ≠ 0 ∧ top < total ∧ done < total - top then printLoop ty div top total next es
    else do
      let r ← row ty div e
      let rs ← printLoop ty div top total next es
      some (r :: rs)

/-- A divisor of zero stands for none. -/
def divisor (div : UInt32) : UInt32 := if div = 0 then 1 else div

def printSorted (ty : ValueType) (div : UInt32) (top : Nat) (sorted : List (κ × List UInt8)) :
    Option (List (κ × Int)) :=
  printLoop ty (divisor div) top sorted.length 0 sorted

/-- A map: every value has the bytes of its type. -/
structure Content (κ : Type) where
  type : ValueType
  ncpus : Nat
  entries : List (κ × List UInt8)
  sized : ∀ e ∈ entries, e.2.length = type.size ncpus

/-- Whatever the sort does with equal keys: the rows are printed in non-decreasing
order of the displayed numbers, all of them or with `top` exactly `min top size`, and
then no row that is left out has a larger number than one that is printed. -/
def PrintsLargest (m : Content κ) (div : UInt32) (top : Nat) : Prop :=
  ∀ sorted, Sorts (fun e => sortKey m.type e.2) m.entries sorted →
    ∃ rows rest all, printSorted m.type div top sorted = some rows ∧
      m.entries.mapM (row m.type (divisor div)) = some all ∧ (rows ++ rest).Perm all ∧
      rows.Pairwise (fun a b => a.2 ≤ b.2) ∧
      rows.length = (if top = 0 then m.entries.length else min top m.entries.length) ∧
      ∀ x ∈ rest, ∀ y ∈ rows, x.2 ≤ y.2

theorem printLoop_eq (ty : ValueType) (div : UInt32) (top total done : Nat) (es : List (κ × List UInt8)) :
    printLoop ty div top total done es = (es.drop (cut top total - done)).mapM (row ty div) := by
  induction es generalizing done with
  | nil => rw [List.drop_nil]; rfl
  | cons e es ih =>
    simp only [printLoop, ih]
    by_cases hskip : top ≠ 0 ∧ top < total ∧ done < total - top
    · have hcut : cut top total - done = cut top total - (done + 1) + 1 := by
        rw [cut, if_neg hskip.1]
        omega
      rw [if_pos hskip, if_pos ⟨hskip.1, hskip.2.1⟩, hcut, List.drop_succ_cons]
    · have hcut : cut top total - done = 0 := by
        rw [cut]
        split
        · exact Nat.zero_sub _
        · omega
      have hnext : cut top total - (if top ≠ 0 ∧ top < total then done + 1 else done) = 0 := by
        split <;> omega
      rw [if_neg hskip, hcut, hnext, List.drop_zero, List.drop_zero, List.mapM_cons]
      rfl

def rowOf (ty : ValueType) (div : UInt32) (e : κ × List UInt8) : κ × Int := (e.1, (displayed ty div e.2).getD 0)

variable {ty : ValueType} {value : List UInt8}

theorem mapM_row_eq_some_iff {div : UInt32} {es : List (κ × List UInt8)} {rows : List (κ × Int)} :
    es.mapM (row ty div) = some rows ↔ (∀ e ∈ es, (displayed ty div e.2).isSome) ∧ rows = es.map (rowOf ty div) := by
  induction es generalizing rows with
  | nil =>
    constructor
    · intro h
      exact ⟨fun e he => (List.not_mem_nil he).elim, (Option.some.inj h).symm⟩
    · rintro ⟨-, rfl⟩
      rfl
  | cons e es ih =>
    rw [List.mapM_cons, Option.bind_eq_bind, Option.bind_eq_some_iff]
    constructor
    · rintro ⟨r, hr, htail⟩
      rw [Option.bind_eq_bind, Option.bind_eq_some_iff] at htail
      obtain ⟨rs, hrs, hrows⟩ := htail
      obtain ⟨hdefined, rfl⟩ := ih.mp hrs
      obtain ⟨v, hv, rfl⟩ := Option.map_eq_some_iff.mp hr
      refine ⟨?_, ?_⟩
      · rintro x hx
        rcases List.mem_cons.mp hx with rfl | hx
        · rw [hv]; rfl
        · exact hdefined x hx
      · rw [List.map_cons, rowOf, hv]
        exact (Option.some.inj hrows).symm
    · rintro ⟨hdefined, rfl⟩
      obtain ⟨v, hv⟩ := Option.isSome_iff_exists.mp (hdefined e List.mem_cons_self)
      refine ⟨(e.1, v), by rw [row, hv, Option.map_some], ?_⟩
      rw [ih.mpr ⟨fun x hx => hdefined x (List.mem_cons_of_mem e hx), rfl⟩, List.map_cons, rowOf, hv]
      rfl

/-- Both entries have displayed numbers, the first at most the second. -/
def NotAbove (ty : ValueType) (div : UInt32) (x y : κ × List UInt8) : Prop :=
  ∃ a b, displayed ty div x.2 = some a ∧ displayed ty div y.2 = some b ∧ a ≤ b

theorem notAbove_iff {div : UInt32} {x y : κ × List UInt8}
    (hx : (displayed ty div x.2).isSome) (hy : (displayed ty div y.2).isSome) :
    NotAbove ty div x y ↔ (rowOf ty div x).2 ≤ (rowOf ty div y).2 := by
  obtain ⟨a, ha⟩ := Option.isSome_iff_exists.mp hx
  obtain ⟨b, hb⟩ := Option.isSome_iff_exists.mp hy
  rw [rowOf, rowOf, ha, hb]
  constructor
  · rintro ⟨a', b', ha', hb', hle⟩
    obtain rfl := Option.some.inj (ha.symm.trans ha')
    obtain rfl := Option.some.inj (hb.symm.trans hb')
    exact hle
  · exact fun hle => ⟨a, b, ha, hb, hle⟩

theorem NotAbove.isSome {div : UInt32} {x y : κ × List UInt8} (h : NotAbove ty div x y) :
    (displayed ty div x.2).isSome := by
  obtain ⟨a, b, ha, -⟩ := h
  rw [ha]
  rfl

/-- The printed rows are the largest exactly if the sort never puts an entry behind one that displays more. -/
theorem printsLargest_iff (m : Content κ) (div : UInt32) (top : Nat) :
    PrintsLargest m div top ↔
      ∀ x ∈ m.entries, ∀ y ∈ m.entries, sortKey m.type x.2 ≤ sortKey m.type y.2 →
        Showable (fun e => sortKey m.type e.2) top m.entries y → NotAbove m.type (divisor div) x y := by
  rw [← KeyedSort.shown_related_iff, PrintsLargest]
  refine forall₂_congr fun sorted hsorts => ?_
  rw [printSorted, printLoop_eq, Nat.sub_zero]
  have hmem : ∀ e, e ∈ sorted ↔ e ∈ m.entries := fun e => hsorts.perm.mem_iff
  have hparts := KeyedSort.hidden_append_shown top sorted
  constructor
  · rintro ⟨rows, rest, all, hrows, hall, hperm, hordered, -, habove⟩
    obtain ⟨hdefined, rfl⟩ := mapM_row_eq_some_iff.mp hall
    obtain ⟨-, rfl⟩ := mapM_row_eq_some_iff.mp hrows
    have hsome : ∀ e ∈ sorted, (displayed m.type (divisor div) e.2).isSome := fun e he => hdefined e ((hmem e).mp he)
    have hshown : ∀ e ∈ shown top sorted, e ∈ sorted := fun e he => List.mem_of_mem_drop he
    -- the rows that are left out are those of the hidden entries
    have hrest : rest.Perm ((hidden top sorted).map (rowOf m.type (divisor div))) := by
      have hboth := hperm.trans (hsorts.perm.symm.map (rowOf m.type (divisor div)))
      rw [← hparts, List.map_append, hparts] at hboth
      exact (List.perm_append_left_iff _).mp (hboth.trans List.perm_append_comm)
    refine ⟨?_, ?_, ?_⟩
    · rw [List.pairwise_map] at hordered
      exact hordered.imp_of_mem fun hx hy hle => (notAbove_iff (hsome _ (hshown _ hx)) (hsome _ (hshown _ hy))).mpr hle
    · exact fun e he => (notAbove_iff (hsome _ (hshown _ he)) (hsome _ (hshown _ he))).mpr (le_refl _)
    · intro x hx y hy
      refine (notAbove_iff (hsome x (List.mem_of_mem_take hx)) (hsome y (hshown y hy))).mpr ?_
      exact habove _ (hrest.mem_iff.mpr (List.mem_map_of_mem hx)) _ (List.mem_map_of_mem hy)
  · rintro ⟨hpairs, hself, hacross⟩
    have hshown : ∀ e ∈ shown top sorted, (displayed m.type (divisor div) e.2).isSome := fun e he => (hself e he).isSome
    have hlength : (shown top sorted).length = if top = 0 then m.entries.length else min top m.entries.length := by
      rw [← hsorts.perm.length_eq]
      split
      · next htop => rw [shown, cut, if_pos htop, List.drop_zero]
      · next htop => exact KeyedSort.length_shown (Nat.pos_of_ne_zero htop) sorted
    have hhidden : ∀ e ∈ hidden top sorted, (displayed m.type (divisor div) e.2).isSome := by
      intro e he
      obtain ⟨last, hlast⟩ := KeyedSort.exists_shown he
      exact (hacross e he last hlast).isSome
    have hsome : ∀ e ∈ sorted, (displayed m.type (divisor div) e.2).isSome := by
      intro e he
      rw [← hparts, List.mem_append] at he
      exact he.elim (hhidden e) (hshown e)
    refine ⟨(shown top sorted).map (rowOf m.type (divisor div)), (hidden top sorted).map (rowOf m.type (divisor div)),
      m.entries.map (rowOf m.type (divisor div)), mapM_row_eq_some_iff.mpr ⟨hshown, rfl⟩,
      mapM_row_eq_some_iff.mpr ⟨fun e he => hsome e ((hmem e).mpr he), rfl⟩, ?_, ?_, ?_, ?_⟩
    · rw [← List.map_append]
      exact ((List.perm_append_comm.trans (List.Perm.of_eq hparts)).trans hsorts.perm).map _
    · rw [List.pairwise_map]
      exact hpairs.imp_of_mem fun hx hy h => (notAbove_iff (hshown _ hx) (hshown _ hy)).mp h
    · rw [List.length_map, hlength]
    · rintro a ha b hb
      obtain ⟨x, hx, rfl⟩ := List.mem_map.mp ha
      obtain ⟨y, hy, rfl⟩ := List.mem_map.mp hb
      exact (notAbove_iff (hhidden x hx) (hshown y hy)).mp (hacross x hx y hy)

theorem divisor_pos (div : UInt32) : 0 < (divisor div).toNat := by
  rw [divisor]
  split
  · decide
  · next h =>
    have hne : div.toNat ≠ 0 := fun h0 => h (UInt32.toNat_inj.mp h0)
    omega

theorem collapsed_of_pairs {ncpus : Nat} (h : value.length = 16 * ncpus) (s : Sign) (combined : BitVec (8 * 8)) :
    collapsed s value combined = s.val combined := by
  rw [collapsed, if_neg]
  rw [count, h]
  omega

/-- The types that are displayed as the number they are sorted by, divided. -/
def SortedAsDisplayed : ValueType → Bool
  | .integer w _ => w = .eight
  | .count | .sum _ | .avg _ => true
  | .min s | .max s => s = .unsigned

theorem displayed_eq (hty : SortedAsDisplayed ty) (div : UInt32) {ncpus : Nat} (hsize : value.length = ty.size ncpus) :
    displayed ty (divisor div) value = some ((sortKey ty value).tdiv (divisor div).toNat) := by
  have hpos := divisor_pos div
  cases ty with
  | integer w s =>
    obtain rfl : w = .eight := of_decide_eq_true hty
    cases s with
    | unsigned => exact congrArg some (Int.ofNat_tdiv _ _)
    | signed =>
      have hd : castDiv .eight (divisor div) = (divisor div).toNat := rfl
      refine if_neg ?_
      omega
  | count => exact congrArg some (Int.ofNat_tdiv _ _)
  | sum s => rfl
  | min s | max s =>
    obtain rfl : s = .unsigned := of_decide_eq_true hty
    simp only [displayed, collapsed_of_pairs hsize, sortKey]
  | avg s => simp only [displayed, collapsed_of_pairs hsize, sortKey]

/-- The bytes of a narrow integer are no 64-bit word, so that all of them are sorted as zero. -/
theorem sortKey_narrow {w : Width} (hw : w ≠ .eight) (s : Sign) (hsize : value.length = w.bytes) :
    sortKey (.integer w s) value = 0 := by
  have hcount : count 8 value = 0 := by
    rw [count, hsize]
    cases w with
    | eight => exact absurd rfl hw
    | one | two | four => rfl
  rw [sortKey, reduceValue, hcount]
  cases s <;> rfl

/-- The extreme over the CPUs read without sign never ranks an entry behind one that
may be shown and whose signed extreme displays less. -/
def ExtremesAgree (isMax : Bool) (entries : List (κ × List UInt8)) (div : UInt32) (top : Nat) : Prop :=
  ∀ x ∈ entries, ∀ y ∈ entries,
    Sign.unsigned.val (minMaxValue .unsigned isMax x.2) ≤ Sign.unsigned.val (minMaxValue .unsigned isMax y.2) →
    Showable (fun e => Sign.unsigned.val (minMaxValue .unsigned isMax e.2)) top entries y →
    (Sign.signed.val (minMaxValue .signed isMax x.2)).tdiv (divisor div).toNat ≤
      (Sign.signed.val (minMaxValue .signed isMax y.2)).tdiv (divisor div).toNat

/-- The condition under which the sort agrees with the display. -/
def Agrees (m : Content κ) (div : UInt32) (top : Nat) : Prop :=
  match m.type with
  | .count | .sum _ | .avg _ | .min .unsigned | .max .unsigned | .integer .eight _ => True
  | .integer w s => ∃ c, ∀ e ∈ m.entries, intQuotient w s (reduceValue w.bytes e.2) (divisor div) = some c
  | .min .signed => ExtremesAgree false m.entries div top
  | .max .signed => ExtremesAgree true m.entries div top

variable {m : Content κ} {div : UInt32} {top : Nat}

theorem printsLargest_of_sortedAsDisplayed (h : SortedAsDisplayed m.type) : PrintsLargest m div top := by
  rw [printsLargest_iff]
  intro x hx y hy hle _
  refine ⟨_, _, displayed_eq h div (m.sized x hx), displayed_eq h div (m.sized y hy), ?_⟩
  exact Int.tdiv_le_tdiv (by exact_mod_cast divisor_pos div) hle

theorem printsLargest_narrow_iff {w : Width} {s : Sign} (hty : m.type = .integer w s) (hw : w ≠ .eight) :
    PrintsLargest m div top ↔
      ∃ c, ∀ e ∈ m.entries, intQuotient w s (reduceValue w.bytes e.2) (divisor div) = some c := by
  have hzero : ∀ e ∈ m.entries, sortKey m.type e.2 = 0 := by
    intro e he
    have hsize := m.sized e he
    rw [hty] at hsize ⊢
    exact sortKey_narrow hw s hsize
  have hshow : ∀ y ∈ m.entries, Showable (fun e => sortKey m.type e.2) top m.entries y := by
    intro y hy
    by_cases htop : top = 0
    · exact Or.inl htop
    right
    rw [List.countP_eq_zero.mpr]
    · omega
    · intro x hx
      simp only [hzero x hx, hzero y hy]
      decide
  have hdisplayed : ∀ e : κ × List UInt8, displayed m.type (divisor div) e.2 =
      intQuotient w s (reduceValue w.bytes e.2) (divisor div) := fun e => by rw [hty]; rfl
  rw [printsLargest_iff]
  constructor
  · intro h
    have hpair : ∀ x ∈ m.entries, ∀ y ∈ m.entries, NotAbove m.type (divisor div) x y := fun x hx y hy =>
      h x hx y hy (by rw [hzero x hx, hzero y hy]) (hshow y hy)
    cases hentries : m.entries with
    | nil => exact ⟨0, fun e he => (List.not_mem_nil he).elim⟩
    | cons first others =>
      have hfirst : first ∈ m.entries := by rw [hentries]; exact List.mem_cons_self
      obtain ⟨c, -, hc, -⟩ := hpair first hfirst first hfirst
      refine ⟨c, fun e he => ?_⟩
      rw [← hentries] at he
      obtain ⟨a, b, ha, hb, hab⟩ := hpair e he first hfirst
      obtain ⟨a', b', ha', hb', hba⟩ := hpair first hfirst e he
      obtain rfl := Option.some.inj (hc.symm.trans hb)
      obtain rfl := Option.some.inj (hc.symm.trans ha')
      obtain rfl := Option.some.inj (ha.symm.trans hb')
      rw [← hdisplayed, ha, Int.le_antisymm hab hba]
  · rintro ⟨c, hc⟩ x hx y hy - -
    exact ⟨c, c, by rw [hdisplayed, hc x hx], by rw [hdisplayed, hc y hy], le_refl c⟩

theorem printsLargest_extremes_iff (isMax : Bool)
    (hty : m.type = if isMax then .max .signed else .min .signed) :
    PrintsLargest m div top ↔ ExtremesAgree isMax m.entries div top := by
  have hsize : ∀ e ∈ m.entries, e.2.length = 16 * m.ncpus := by
    intro e he
    rw [m.sized e he, hty]
    cases isMax <;> rfl
  have hkey : ∀ value, sortKey m.type value = Sign.unsigned.val (minMaxValue .unsigned isMax value) := by
    intro value
    rw [hty]
    cases isMax <;> rfl
  have hdisplayed : ∀ e ∈ m.entries, displayed m.type (divisor div) e.2 =
      some ((Sign.signed.val (minMaxValue .signed isMax e.2)).tdiv (divisor div).toNat) := by
    intro e he
    rw [← collapsed_of_pairs (hsize e he), hty]
    cases isMax <;> rfl
  rw [printsLargest_iff, ExtremesAgree]
  simp only [hkey]
  refine forall₄_congr fun x hx y hy => forall₂_congr fun _ _ => ?_
  rw [NotAbove, hdisplayed x hx, hdisplayed y hy]
  constructor
  · rintro ⟨a, b, ha, hb, hle⟩
    cases ha
    cases hb
    exact hle
  · exact fun hle => ⟨_, _, rfl, rfl, hle⟩

/-- Which maps are printed as sorted by what is displayed. -/
theorem prints_largest_iff_agrees (m : Content κ) (div : UInt32) (top : Nat) :
    PrintsLargest m div top ↔ Agrees m div top := by
  cases hty : m.type with
  | integer w s =>
    by_cases hw : w = .eight
    · subst hw
      simp only [Agrees, hty, iff_true]
      exact printsLargest_of_sortedAsDisplayed (by rw [hty]; rfl)
    · rw [printsLargest_narrow_iff hty hw]
      cases w with
      | eight => exact absurd rfl hw
      | one | two | four => simp only [Agrees, hty]
  | count | sum _ | avg _ =>
    simp only [Agrees, hty, iff_true]
    exact printsLargest_of_sortedAsDisplayed (by rw [hty]; rfl)
  | min s | max s =>
    cases s with
    | unsigned =>
      simp only [Agrees, hty, iff_true]
      exact printsLargest_of_sortedAsDisplayed (by rw [hty]; rfl)
    | signed =>
      simp only [Agrees, hty]
      exact printsLargest_extremes_iff _ hty

/-- Signed maxima 1 and -1 on one CPU are sorted as numbers without sign, and two
32-bit integers are not sorted at all. -/
theorem displayed_order_missed :
    (Sorts (fun e => sortKey (.max .signed) e.2)
        [(0, le 8 1 ++ le 8 1), (1, le 8 (2 ^ 64 - 1) ++ le 8 1)]
        [(0, le 8 1 ++ le 8 1), (1, le 8 (2 ^ 64 - 1) ++ le 8 1)] ∧
      printSorted (.max .signed) 1 0
        [(0, le 8 1 ++ le 8 1), (1, le 8 (2 ^ 64 - 1) ++ le 8 1)] = some [(0, 1), (1, -1)]) ∧
    Sorts (fun e => sortKey (.integer .four .unsigned) e.2)
        [(0, le 4 2), (1, le 4 1)] [(0, le 4 2), (1, le 4 1)] ∧
      printSorted (.integer .four .unsigned) 1 0 [(0, le 4 2), (1, le 4 1)] = some [(0, 2), (1, 1)] :=
  ⟨⟨⟨List.Perm.refl _, by decide +kernel⟩, by decide +kernel⟩,
    ⟨List.Perm.refl _, by decide +kernel⟩, by decide +kernel⟩

end MapPrinting
