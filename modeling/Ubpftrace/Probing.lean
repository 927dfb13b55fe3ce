import Mathlib.Data.Finset.Card
import Mathlib.Data.Int.ModEq

/-!
# Open addressing with linear probing

A search for a key begins at the key's home bucket, goes round the table and
ends at an empty bucket. A removal leaves a mark, so that the chains that lead
past the bucket stay whole; an insertion takes the first bucket of the chain
that holds nothing. `WellProbed` says what makes such a search find a key.
-/

namespace Probing

open Function

inductive Slot (κ : Type) where
  | empty
  | deleted
  | filled (key : κ)
  deriving DecidableEq

def Slot.isFilled {κ : Type} : Slot κ → Bool
  | .filled _ => true
  | .empty | .deleted => false

@[simp] theorem Slot.isFilled_filled {κ : Type} (k : κ) : (Slot.filled k).isFilled = true := rfl
@[simp] theorem Slot.isFilled_empty {κ : Type} : (Slot.empty : Slot κ).isFilled = false := rfl
@[simp] theorem Slot.isFilled_deleted {κ : Type} : (Slot.deleted : Slot κ).isFilled = false := rfl

/-- The indices of `do { … index = (index + 1) % n; } while (index != start)`. -/
def visited (n start : Nat) : Nat → Nat → List Nat
  | 0, _ => []
  | fuel + 1, index =>
    index :: if (index + 1) % n = start then [] else visited n start fuel ((index + 1) % n)

def order (n start : Nat) : List Nat := (List.range n).map fun d => (start + d) % n

variable {i : Nat}

section Order

variable {n start : Nat}

theorem offset_injective {d e : Nat} (hd : d < n) (he : e < n) (h : (start + d) % n = (start + e) % n) : d = e := by
  have hmod : d % n = e % n := Nat.ModEq.add_left_cancel' start h
  rwa [Nat.mod_eq_of_lt hd, Nat.mod_eq_of_lt he] at hmod

theorem exists_offset (hs : start < n) (hi : i < n) : ∃ d < n, (start + d) % n = i := by
  by_cases hle : start ≤ i
  · exact ⟨i - start, by omega, by rw [Nat.add_sub_cancel' hle, Nat.mod_eq_of_lt hi]⟩
  · refine ⟨n - start + i, by omega, ?_⟩
    rw [show start + (n - start + i) = i + n by omega, Nat.add_mod_right, Nat.mod_eq_of_lt hi]

theorem mem_order_lt (hs : start < n) (h : i ∈ order n start) : i < n := by
  obtain ⟨d, -, rfl⟩ := List.mem_map.mp h
  exact Nat.mod_lt _ (by omega)

/-- The loop is back at its start after one round, with fuel to spare. -/
theorem visited_offset (hs : start < n) (m d fuel : Nat) (hm : d + m + 1 = n) (hf : m < fuel) :
    visited n start fuel ((start + d) % n) = (List.range (m + 1)).map fun e => (start + (d + e)) % n := by
  induction m generalizing d fuel with
  | zero =>
    obtain ⟨fuel, rfl⟩ : ∃ f, fuel = f + 1 := ⟨fuel - 1, by omega⟩
    have hback : ((start + d) % n + 1) % n = start := by
      rw [Nat.mod_add_mod, show start + d + 1 = start + n by omega, Nat.add_mod_right, Nat.mod_eq_of_lt hs]
    simp [visited, hback]
  | succ m ih =>
    obtain ⟨fuel, rfl⟩ : ∃ f, fuel = f + 1 := ⟨fuel - 1, by omega⟩
    have hnext : ((start + d) % n + 1) % n = (start + (d + 1)) % n := by
      rw [Nat.mod_add_mod, Nat.add_assoc]
    have hne : (start + (d + 1)) % n ≠ start := by
      intro h
      have h0 : (start + (d + 1)) % n = (start + 0) % n := by
        rw [h, Nat.add_zero, Nat.mod_eq_of_lt hs]
      have := offset_injective (by omega) (by omega) h0
      omega
    rw [visited, hnext, if_neg hne, ih (d + 1) fuel (by omega) (by omega), List.range_succ_eq_map (n := m + 1)]
    simp [comp_def, Nat.add_assoc, Nat.add_comm 1]

theorem visited_eq_order (hs : start < n) {fuel : Nat} (hf : n ≤ fuel) :
    visited n start fuel start = order n start := by
  have h := visited_offset hs (n - 1) 0 fuel (by omega) (by omega)
  rw [Nat.add_zero, Nat.mod_eq_of_lt hs, show n - 1 + 1 = n by omega] at h
  simpa [order] using h

theorem find?_order (p : Nat → Bool) (i : Nat) :
    (order n start).find? p = some i ↔
      ∃ d < n, (start + d) % n = i ∧ p i = true ∧ ∀ e < d, p ((start + e) % n) = false := by
  rw [order, List.find?_map, Option.map_eq_some_iff]
  constructor
  · rintro ⟨d, hfind, rfl⟩
    obtain ⟨hp, hd, hbefore⟩ := List.find?_range_eq_some.mp hfind
    exact ⟨d, List.mem_range.mp hd, rfl, hp, fun e he => by simpa using hbefore e he⟩
  · rintro ⟨d, hd, rfl, hp, hbefore⟩
    exact ⟨d, List.find?_range_eq_some.mpr ⟨hp, List.mem_range.mpr hd, fun e he => by simp [hbefore e he]⟩, rfl⟩

end Order

section Table

variable {κ : Type} (n : Nat) (home : κ → Nat) (slot : Nat → Slot κ)

/-- The bucket at which a search for the key succeeds. -/
def hit [DecidableEq κ] (k : κ) : Option Nat :=
  ((order n (home k)).find? fun i => slot i = .empty ∨ slot i = .filled k).filter fun i => slot i = .filled k

/-- The bucket at which the key is inserted. -/
def vacancy (k : κ) : Option Nat := (order n (home k)).find? fun i => !(slot i).isFilled

def live : Finset Nat := (Finset.range n).filter fun i => (slot i).isFilled

/-- No empty bucket stands before a key on its chain, and no key stands twice. -/
structure WellProbed : Prop where
  home_lt : ∀ k, home k < n
  chained : ∀ k d, d < n → slot ((home k + d) % n) = .filled k → ∀ e < d, slot ((home k + e) % n) ≠ .empty
  distinct : ∀ i < n, ∀ j < n, ∀ k, slot i = .filled k → slot j = .filled k → i = j

variable {n home slot} {k : κ}

theorem wellProbed_empty (hhome : ∀ k, home k < n) : WellProbed n home fun _ => Slot.empty :=
  { home_lt := hhome
    chained := fun _ _ _ h => nomatch h
    distinct := fun _ _ _ _ _ h => nomatch h }

theorem WellProbed.hit_eq_some_iff [DecidableEq κ] (h : WellProbed n home slot) :
    hit n home slot k = some i ↔ i < n ∧ slot i = .filled k := by
  rw [hit, Option.filter_eq_some_iff]
  constructor
  · rintro ⟨hfind, hk⟩
    exact ⟨mem_order_lt (h.home_lt k) (List.mem_of_find?_eq_some hfind), by simpa using hk⟩
  · rintro ⟨hi, hk⟩
    refine ⟨?_, by simpa using hk⟩
    obtain ⟨d, hd, rfl⟩ := exists_offset (h.home_lt k) hi
    refine (find?_order _ _).mpr ⟨d, hd, rfl, by simp [hk], ?_⟩
    intro e he
    -- an earlier bucket is neither empty nor a second bucket of the key
    have hne : slot ((home k + e) % n) ≠ .filled k := by
      intro hke
      have heq := h.distinct _ (Nat.mod_lt _ (by omega)) _ hi k hke hk
      have := offset_injective (by omega) hd heq
      omega
    simpa using ⟨h.chained k d hd hk e he, hne⟩

theorem WellProbed.hit_eq_none_iff [DecidableEq κ] (h : WellProbed n home slot) :
    hit n home slot k = none ↔ ∀ i < n, slot i ≠ .filled k := by
  constructor
  · intro hnone i hi hk
    have := h.hit_eq_some_iff.mpr ⟨hi, hk⟩
    rw [hnone] at this
    cases this
  · intro hno
    cases hhit : hit n home slot k with
    | none => rfl
    | some i =>
      obtain ⟨hi, hk⟩ := h.hit_eq_some_iff.mp hhit
      exact absurd hk (hno i hi)

theorem vacancy_eq_some (h : vacancy n home slot k = some i) :
    ∃ d < n, (home k + d) % n = i ∧ (slot i).isFilled = false ∧ ∀ e < d, (slot ((home k + e) % n)).isFilled = true := by
  obtain ⟨d, hd, hi, hp, hbefore⟩ := (find?_order _ _).mp h
  exact ⟨d, hd, hi, by simpa using hp, fun e he => by simpa using hbefore e he⟩

theorem live_card_eq_of_vacancy_eq_none (hhome : home k < n) (h : vacancy n home slot k = none) :
    (live n slot).card = n := by
  have hall : live n slot = Finset.range n := by
    apply Finset.filter_true_of_mem
    intro i hi
    obtain ⟨d, hd, rfl⟩ := exists_offset hhome (Finset.mem_range.mp hi)
    have := List.find?_eq_none.mp h _ (List.mem_map.mpr ⟨d, List.mem_range.mpr hd, rfl⟩)
    simpa using this
  rw [hall, Finset.card_range]

theorem live_fill (hi : i < n) (s : Slot κ) (hs : s.isFilled = true) :
    live n (update slot i s) = insert i (live n slot) := by
  ext j
  by_cases hj : j = i
  · subst hj
    simp [live, hi, hs]
  · simp [live, hj]

theorem live_clear (i : Nat) : live n (update slot i .deleted) = (live n slot).erase i := by
  ext j
  by_cases hj : j = i
  · subst hj
    simp [live]
  · simp [live, hj]

theorem WellProbed.fill (h : WellProbed n home slot) (hnew : ∀ j < n, slot j ≠ .filled k)
    (hi : vacancy n home slot k = some i) : WellProbed n home (update slot i (.filled k)) := by
  obtain ⟨d, hd, rfl, -, hbefore⟩ := vacancy_eq_some hi
  -- a bucket that was not empty before is not empty now
  have hkeep : ∀ j, slot j ≠ .empty → update slot ((home k + d) % n) (.filled k) j ≠ .empty := by
    intro j hj
    rw [update_apply]
    split
    · simp
    · exact hj
  have hother : ∀ j k', update slot ((home k + d) % n) (.filled k) j = .filled k' →
      (j = (home k + d) % n ∧ k' = k) ∨ slot j = .filled k' := by
    intro j k' hj
    rw [update_apply] at hj
    split at hj
    · next heq => exact .inl ⟨heq, (Slot.filled.inj hj).symm⟩
    · exact .inr hj
  constructor
  · exact h.home_lt
  · intro k' d' hd' hfill e he
    apply hkeep
    rcases hother _ _ hfill with ⟨heq, rfl⟩ | hold
    · obtain rfl := offset_injective hd' hd heq
      intro hempty
      have := hbefore e he
      rw [hempty] at this
      cases this
    · exact h.chained k' d' hd' hold e he
  · intro i' hi' j hj k' hik hjk
    rcases hother _ _ hik with ⟨rfl, rfl⟩ | hiold
    · rcases hother _ _ hjk with ⟨rfl, -⟩ | hjold
      · rfl
      · exact absurd hjold (hnew j hj)
    · rcases hother _ _ hjk with ⟨rfl, rfl⟩ | hjold
      · exact absurd hiold (hnew i' hi')
      · exact h.distinct i' hi' j hj k' hiold hjold

theorem WellProbed.clear (h : WellProbed n home slot) (i : Nat) :
    WellProbed n home (update slot i .deleted) := by
  have hold : ∀ j k, update slot i .deleted j = .filled k → slot j = .filled k := by
    intro j k hj
    rw [update_apply] at hj
    split at hj
    · cases hj
    · exact hj
  constructor
  · exact h.home_lt
  · intro k d hd hfill e he
    rw [update_apply]
    split
    · simp
    · exact h.chained k d hd (hold _ _ hfill) e he
  · intro i hi j hj k hik hjk
    exact h.distinct i hi j hj k (hold _ _ hik) (hold _ _ hjk)

end Table

end Probing
