import Mathlib.Data.UInt
import Ubpftrace.LinearHistogram

/-!
# The counts of a printed histogram

`collect_histogram_data` sums the counts of the CPUs for every bucket of a key; `build_histogram`
and `build_linear_histogram` print the buckets from the first to the last one that `indices` takes
for filled. It looks at the counts as `int`s, so that a multiple of 2^32 is none for it.
-/

namespace Histograms

open Function

variable {κ : Type} [DecidableEq κ] {values : List UInt64} {f : UInt64 → Nat}

/-- `reduce_value`, of the words of the CPUs. -/
def reduceValue (cpus : List UInt64) : UInt64 := cpus.foldl (· + ·) 0

/-- A key of the map with a bucket, and the counts of the CPUs. -/
abbrev Entry (κ : Type) := (κ × UInt64) × List UInt64

/-- One round of `collect_histogram_data`; `at` throws for a bucket that is not there. -/
def collectEntry (size : Nat) (values : κ → Option (List UInt64)) (e : Entry κ) : Option (κ → Option (List UInt64)) :=
  if e.1.2.toNat < size then
    some (update values e.1.1
      (some (((values e.1.1).getD (List.replicate size 0)).set e.1.2.toNat (reduceValue e.2))))
  else none

def collectHistogramData (size : Nat) (content : List (Entry κ)) : Option (κ → Option (List UInt64)) :=
  content.foldlM (collectEntry size) fun _ => none

/-- The sum of an entry is in the buckets of its key. -/
def Collected (values : κ → Option (List UInt64)) (e : Entry κ) : Prop :=
  ∃ vs, values e.1.1 = some vs ∧ vs[e.1.2.toNat]? = some (reduceValue e.2)

theorem collectEntry_collected {size : Nat} {values next : κ → Option (List UInt64)} {e : Entry κ}
    (hsize : ∀ k vs, values k = some vs → vs.length = size) (h : collectEntry size values e = some next) :
    Collected next e ∧ (∀ d, d.1 ≠ e.1 → Collected values d → Collected next d) ∧
      ∀ k vs, next k = some vs → vs.length = size := by
  unfold collectEntry at h
  split at h
  · next hlt =>
    cases h
    have hlen : ((values e.1.1).getD (List.replicate size 0)).length = size := by
      cases hv : values e.1.1 with
      | none => exact List.length_replicate
      | some vs => exact hsize _ vs hv
    refine ⟨⟨_, update_self .., List.getElem?_set_self (by rwa [hlen])⟩, ?_, ?_⟩
    · rintro ⟨⟨k, i⟩, _⟩ hne ⟨vs, hvs, hi⟩
      by_cases hk : k = e.1.1
      · subst hk
        refine ⟨_, update_self .., ?_⟩
        rw [hvs, Option.getD_some, List.getElem?_set_ne fun heq => hne (Prod.ext rfl (UInt64.toNat.inj heq.symm))]
        exact hi
      · exact ⟨vs, (update_of_ne hk ..).trans hvs, hi⟩
    · intro k vs hvs
      by_cases hk : k = e.1.1
      · subst hk
        rw [update_self] at hvs
        cases hvs
        rw [List.length_set, hlen]
      · exact hsize k vs ((update_of_ne hk ..).symm.trans hvs)
  · cases h

theorem foldlM_collected {size : Nat} {content : List (Entry κ)} (hkeys : (content.map Prod.fst).Nodup)
    {values last : κ → Option (List UInt64)} (hsize : ∀ k vs, values k = some vs → vs.length = size)
    (h : content.foldlM (collectEntry size) values = some last) :
    (∀ e ∈ content, Collected last e) ∧
      ∀ d : Entry κ, d.1 ∉ content.map Prod.fst → Collected values d → Collected last d := by
  induction content generalizing values with
  | nil =>
    cases h
    exact ⟨List.forall_mem_nil _, fun _ _ hd => hd⟩
  | cons e content ih =>
    obtain ⟨next, hnext, h⟩ := Option.bind_eq_some_iff.mp h
    obtain ⟨hself, hothers, hsize⟩ := collectEntry_collected hsize hnext
    obtain ⟨hnot, hkeys⟩ := List.nodup_cons.mp hkeys
    obtain ⟨hrest, hkept⟩ := ih hkeys hsize h
    constructor
    · intro d hd
      obtain rfl | hd := List.mem_cons.mp hd
      · exact hkept d hnot hself
      · exact hrest d hd
    · intro d hd hcollected
      rw [List.map_cons, List.mem_cons, not_or] at hd
      exact hkept d hd.2 (hothers d hd.1 hcollected)

/-- The bucket has a row, with the count. -/
def Lists (h : Histogram) (values : List UInt64) (i count : Nat) : Prop :=
  ∃ lo hi, indices values = some (lo, hi) ∧ lo ≤ i ∧ i ≤ hi ∧ h.counts[i - lo]? = some count

/-- The bucket is between two whose counts are positive as `int`s. -/
def Enclosed (values : List UInt64) (i : Nat) : Prop :=
  ∃ j j', j ≤ i ∧ i ≤ j' ∧ Filled values j ∧ Filled values j'

theorem enclosed_iff {i : Nat} : Enclosed values i ↔ ∃ lo hi, indices values = some (lo, hi) ∧ lo ≤ i ∧ i ≤ hi := by
  constructor
  · rintro ⟨j, j', hj, hj', hfirst, hlast⟩
    obtain ⟨lo, hi, h, hlo, -⟩ := indices_covers hfirst
    obtain ⟨lo', hi', h', -, hhi⟩ := indices_covers hlast
    cases h.symm.trans h'
    exact ⟨lo, hi, h, Nat.le_trans hlo hj, Nat.le_trans hj' hhi⟩
  · rintro ⟨lo, hi, h, hlo, hhi⟩
    obtain ⟨-, hfirst, hlast⟩ := indices_filled h
    exact ⟨lo, hi, hlo, hhi, hfirst, hlast⟩

theorem lists_iff {h : Histogram}
    (hcounts : ∀ lo hi, indices values = some (lo, hi) →
      h.counts = (List.range' lo (hi + 1 - lo)).map fun i => f (values.getD i 0))
    {i : Nat} {v : UInt64} (hv : values[i]? = some v) : Lists h values i (f v) ↔ Enclosed values i := by
  rw [enclosed_iff]
  constructor
  · rintro ⟨lo, hi, hfound, hlo, hhi, -⟩
    exact ⟨lo, hi, hfound, hlo, hhi⟩
  · rintro ⟨lo, hi, hfound, hlo, hhi⟩
    refine ⟨lo, hi, hfound, hlo, hhi, ?_⟩
    rw [hcounts lo hi hfound, List.getElem?_map, List.getElem?_range' (by omega), Option.map_some, Nat.one_mul,
      Nat.add_sub_cancel' hlo, List.getD_eq_getElem?_getD, hv, Option.getD_some]

/-- A histogram made of the buckets, and the counts it shows for their sums. -/
def Prints (values : List UInt64) (h : Histogram) (f : UInt64 → Nat) : Prop :=
  (∃ (div : UInt32) (k : Nat), h = buildHistogram values div k ∧ f = fun v => v.toNat / div.toNat) ∨
    ∃ min max step, buildLinearHistogram values min max step = some h ∧ f = UInt64.toNat

theorem Prints.counts {h : Histogram} (hprints : Prints values h f) {lo hi : Nat}
    (hfound : indices values = some (lo, hi)) :
    h.counts = (List.range' lo (hi + 1 - lo)).map fun i => f (values.getD i 0) := by
  obtain ⟨div, k, rfl, rfl⟩ | ⟨min, max, step, hbuilt, rfl⟩ := hprints
  · rw [buildHistogram, hfound]
  · rw [buildLinearHistogram, hfound] at hbuilt
    obtain ⟨lower, -, hbuilt⟩ := Option.bind_eq_some_iff.mp hbuilt
    obtain ⟨labels, -, hbuilt⟩ := Option.bind_eq_some_iff.mp hbuilt
    cases hbuilt
    rfl

/-- Whatever the counts of the CPUs are, all buckets of a key with a sum that is not zero have a row
with this sum in the printed histogram, exactly if each of them is between two, itself included,
whose sums are positive as `int`s. -/
theorem nonzero_buckets_listed_iff {size : Nat} {content : List (Entry κ)} {values : κ → Option (List UInt64)}
    (hkeys : (content.map Prod.fst).Nodup) (hcollect : collectHistogramData size content = some values)
    {key : κ} {vs : List UInt64} (hvs : values key = some vs) {h : Histogram} {f : UInt64 → Nat}
    (hprints : Prints vs h f) :
    (∀ e ∈ content, e.1.1 = key → reduceValue e.2 ≠ 0 → Lists h vs e.1.2.toNat (f (reduceValue e.2))) ↔
      ∀ e ∈ content, e.1.1 = key → reduceValue e.2 ≠ 0 → Enclosed vs e.1.2.toNat := by
  have hcollected := (foldlM_collected hkeys (fun _ _ hnone => by cases hnone) hcollect).1
  have hrow : ∀ e ∈ content, e.1.1 = key →
      (Lists h vs e.1.2.toNat (f (reduceValue e.2)) ↔ Enclosed vs e.1.2.toNat) := by
    rintro e he rfl
    obtain ⟨us, hus, hi⟩ := hcollected e he
    cases hus.symm.trans hvs
    exact lists_iff (fun _ _ => hprints.counts) hi
  constructor
  · exact fun hall e he hkey hsum => (hrow e he hkey).mp (hall e he hkey hsum)
  · exact fun hall e he hkey hsum => (hrow e he hkey).mpr (hall e he hkey hsum)

/-- One bucket, with 1 on one CPU and 2 on another. -/
theorem nonzero_buckets_listed_iff_three :
    let content : List (Entry Unit) := [(((), 1), [1, 2])]
    ∀ e ∈ content, e.1.1 = () → reduceValue e.2 ≠ 0 →
      Lists (buildHistogram [0, 3] 1 0) [0, 3] e.1.2.toNat ((reduceValue e.2).toNat / 1) := by
  intro content
  have hcollect : collectHistogramData 2 content = some (update (fun _ => none) () (some [0, 3])) := rfl
  refine (nonzero_buckets_listed_iff (by decide) hcollect (update_self ..) (.inl ⟨1, 0, rfl, rfl⟩)).mpr ?_
  intro e he _ _
  obtain rfl := List.mem_singleton.mp he
  exact ⟨1, 1, Nat.le_refl _, Nat.le_refl _, ⟨3, rfl, by decide⟩, ⟨3, rfl, by decide⟩⟩

/-- Two CPUs with 2^31 events each in one bucket: the printed histogram is empty. -/
theorem full_bucket_left_out : reduceValue [2 ^ 31, 2 ^ 31] ≠ 0 ∧
    ∃ values, collectHistogramData 2 [(((), 1), [2 ^ 31, 2 ^ 31])] = some values ∧
      ∃ vs, values () = some vs ∧ buildHistogram vs 1 0 = ⟨none, [], []⟩ :=
  ⟨by decide, _, rfl, _, rfl, by decide⟩

end Histograms
