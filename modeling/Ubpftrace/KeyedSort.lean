import Mathlib.Order.Lattice
import Mathlib.Data.List.Nodup
import Mathlib.Data.List.Perm.Basic

/-!
# The last entries after sorting by a key

A sort that promises nothing about entries with equal keys, followed by showing
only the last of them. For any relation `r`: it holds along what is shown and
from what is hidden to what is shown, in every result of the sort, exactly if
it holds from each entry to each one that may be shown and does not have a
smaller key.
-/

namespace KeyedSort

variable {α K : Type} [LinearOrder K] {top : Nat}

/-- A result of sorting by a key; the order of entries with equal keys is open. -/
structure Sorts (key : α → K) (entries sorted : List α) : Prop where
  perm : sorted.Perm entries
  ascending : sorted.Pairwise fun x y => key x ≤ key y

/-- How many entries are left out if only `top` are shown; zero stands for all. -/
def cut (top total : Nat) : Nat := if top = 0 then 0 else total - top

def hidden (top : Nat) (l : List α) : List α := l.take (cut top l.length)

def shown (top : Nat) (l : List α) : List α := l.drop (cut top l.length)

/-- Fewer than `top` entries have a larger key. -/
def Showable (key : α → K) (top : Nat) (entries : List α) (y : α) : Prop :=
  top = 0 ∨ entries.countP (fun x => key y < key x) < top

instance (key : α → K) (top : Nat) (entries : List α) (y : α) : Decidable (Showable key top entries y) :=
  inferInstanceAs (Decidable (_ ∨ _))

theorem hidden_append_shown (top : Nat) (l : List α) : hidden top l ++ shown top l = l := List.take_append_drop _ _

theorem length_shown (htop : 1 ≤ top) (l : List α) : (shown top l).length = min top l.length := by
  rw [shown, cut, if_neg (by omega), List.length_drop]
  omega

theorem exists_shown {l : List α} {x : α} (hx : x ∈ hidden top l) : ∃ s, s ∈ shown top l := by
  have hpos : 0 < top := by
    rw [Nat.pos_iff_ne_zero]
    rintro rfl
    simp [hidden, cut] at hx
  have hlength := length_shown hpos l
  have hall := List.length_pos_of_mem (List.mem_of_mem_take hx)
  exact List.exists_mem_of_length_pos (by omega)

theorem exists_sorts (key : α → K) (entries : List α) : ∃ sorted, Sorts key entries sorted := by
  let le : α → α → Bool := fun x y => key x ≤ key y
  have htrans : ∀ a b c, le a b = true → le b c = true → le a c = true := fun a b c hab hbc =>
    decide_eq_true (le_trans (of_decide_eq_true hab) (of_decide_eq_true hbc))
  have htotal : ∀ a b, (le a b || le b a) = true := fun a b => by
    simpa [le] using le_total (key a) (key b)
  refine ⟨entries.mergeSort le, List.mergeSort_perm _ _, ?_⟩
  exact (List.pairwise_mergeSort htrans htotal entries).imp fun hab => of_decide_eq_true hab

/-- The merge sort is stable: what stands before and behind in the list stands so among
entries with equal keys. -/
theorem mergeSort_stable {key : α → K} {le : α → α → Bool} (hle : ∀ x y, le x y = true ↔ key x ≤ key y)
    {r : α → α → Prop} {l : List α} (hl : l.Pairwise r) :
    (l.mergeSort le).Pairwise fun x y => key x < key y ∨ key x = key y ∧ r x y := by
  have htrans : ∀ a b c : α, le a b = true → le b c = true → le a c = true := fun a b c hab hbc =>
    (hle a c).mpr (le_trans ((hle a b).mp hab) ((hle b c).mp hbc))
  have htotal : ∀ a b : α, (le a b || le b a) = true := fun a b => by
    rw [Bool.or_eq_true, hle, hle]
    exact le_total (key a) (key b)
  have hsorted := List.pairwise_mergeSort (List.zipIdxLE_trans htrans) (List.zipIdxLE_total htotal) l.zipIdx
  have hperm := List.mergeSort_perm l.zipIdx (List.zipIdxLE le)
  have hnodup : l.zipIdx.Nodup := by
    refine List.Nodup.of_map Prod.snd ?_
    rw [List.zipIdx_map_snd]
    exact List.nodup_range'
  rw [← List.mergeSort_zipIdx, List.pairwise_map]
  refine (hsorted.and (hperm.nodup_iff.mpr hnodup)).imp_of_mem ?_
  rintro ⟨x, i⟩ ⟨y, j⟩ hx hy ⟨hbefore, hne⟩
  have hxi := List.mk_mem_zipIdx_iff_getElem?.mp (hperm.mem_iff.mp hx)
  have hyj := List.mk_mem_zipIdx_iff_getElem?.mp (hperm.mem_iff.mp hy)
  simp only [List.zipIdxLE] at hbefore
  split_ifs at hbefore with hxy hyx
  · -- equal keys: the first one has the smaller index
    have hlt : i < j := by
      refine Nat.lt_of_le_of_ne (of_decide_eq_true hbefore) ?_
      rintro rfl
      rw [hxi] at hyj
      exact hne (by rw [Option.some.inj hyj])
    obtain ⟨hi, rfl⟩ := List.getElem?_eq_some_iff.mp hxi
    obtain ⟨hj, rfl⟩ := List.getElem?_eq_some_iff.mp hyj
    exact .inr ⟨le_antisymm ((hle _ _).mp hxy) ((hle _ _).mp hyx), List.pairwise_iff_getElem.mp hl i j hi hj hlt⟩
  · exact .inl (lt_of_not_ge fun hge => hyx ((hle y x).mpr hge))

theorem exists_sorts_last (key : α → K) {entries : List α} {y : α} (hy : y ∈ entries) :
    ∃ lower upper, Sorts key entries (lower ++ y :: upper) ∧
      (∀ x ∈ entries, key x ≤ key y → x = y ∨ x ∈ lower) ∧
      upper.length = entries.countP (fun x => key y < key x) := by
  obtain ⟨before, after, rfl⟩ := List.append_of_mem hy
  obtain ⟨lower, hlower⟩ := exists_sorts key ((before ++ after).filter fun x => key x ≤ key y)
  obtain ⟨upper, hupper⟩ := exists_sorts key ((before ++ after).filter fun x => !decide (key x ≤ key y))
  have hlow : ∀ x ∈ lower, key x ≤ key y := fun x hx => by
    simpa using (List.mem_filter.mp (hlower.perm.mem_iff.mp hx)).2
  have hhigh : ∀ x ∈ upper, key y < key x := fun x hx => by
    simpa using (List.mem_filter.mp (hupper.perm.mem_iff.mp hx)).2
  refine ⟨lower, upper, ⟨?_, ?_⟩, ?_, ?_⟩
  · have hsplit : (lower ++ upper).Perm (before ++ after) :=
      (hlower.perm.append hupper.perm).trans (List.filter_append_perm (fun x => key x ≤ key y) (before ++ after))
    exact List.perm_middle.trans ((hsplit.cons y).trans List.perm_middle.symm)
  · rw [List.pairwise_append, List.pairwise_cons]
    refine ⟨hlower.ascending, ⟨fun x hx => le_of_lt (hhigh x hx), hupper.ascending⟩, ?_⟩
    intro x hx z hz
    rcases List.mem_cons.mp hz with rfl | hz
    · exact hlow x hx
    · exact le_of_lt (lt_of_le_of_lt (hlow x hx) (hhigh z hz))
  · intro x hx hle
    rcases List.mem_cons.mp (List.perm_middle.mem_iff.mp hx) with rfl | hx
    · exact Or.inl rfl
    · exact Or.inr (hlower.perm.mem_iff.mpr (List.mem_filter.mpr ⟨hx, by simpa using hle⟩))
  · rw [hupper.perm.length_eq, ← List.countP_eq_length_filter, List.perm_middle.countP_eq,
      List.countP_cons_of_neg (by simp)]
    simp only [← decide_not, not_le]

theorem Sorts.showable {key : α → K} {entries sorted : List α} {s : α} (h : Sorts key entries sorted)
    (hs : s ∈ shown top sorted) : Showable key top entries s := by
  by_cases htop : top = 0
  · exact Or.inl htop
  right
  obtain ⟨before, after, hparts⟩ := List.append_of_mem hs
  have hsorted : sorted = (hidden top sorted ++ before) ++ s :: after := by
    rw [List.append_assoc, ← hparts, hidden_append_shown]
  have hlength : after.length < top := by
    have hshown := length_shown (Nat.pos_of_ne_zero htop) sorted
    rw [hparts, List.length_append, List.length_cons] at hshown
    omega
  have hascending := h.ascending
  rw [hsorted, List.pairwise_append] at hascending
  rw [← h.perm.countP_eq, hsorted, List.countP_append, List.countP_cons_of_neg (by simp),
    List.countP_eq_zero.mpr, Nat.zero_add]
  · exact Nat.lt_of_le_of_lt List.countP_le_length hlength
  · intro x hx
    simpa using hascending.2.2 x hx s List.mem_cons_self

theorem shown_related_iff (key : α → K) (top : Nat) (entries : List α) (r : α → α → Prop) :
    (∀ sorted, Sorts key entries sorted →
        (shown top sorted).Pairwise r ∧ (∀ s ∈ shown top sorted, r s s) ∧
          ∀ x ∈ hidden top sorted, ∀ s ∈ shown top sorted, r x s) ↔
      ∀ x ∈ entries, ∀ y ∈ entries, key x ≤ key y → Showable key top entries y → r x y := by
  constructor
  · intro h x hx y hy hle hshow
    obtain ⟨lower, upper, hsorts, hlower, hupper⟩ := exists_sorts_last key hy
    obtain ⟨hpairs, hself, hacross⟩ := h _ hsorts
    have hcut : cut top (lower ++ y :: upper).length ≤ lower.length := by
      rw [cut, List.length_append, List.length_cons]
      split
      · exact Nat.zero_le _
      · next htop =>
        have hcount := hshow.resolve_left htop
        omega
    rw [shown, List.drop_append_of_le_length hcut] at hpairs hself hacross
    rw [hidden, List.take_append_of_le_length hcut] at hacross
    have hlast : y ∈ lower.drop (cut top (lower ++ y :: upper).length) ++ y :: upper :=
      List.mem_append_right _ List.mem_cons_self
    rcases hlower x hx hle with rfl | hmem
    · exact hself x hlast
    · rw [← List.take_append_drop (cut top (lower ++ y :: upper).length) lower, List.mem_append] at hmem
      rcases hmem with hhidden | hshown
      · exact hacross x hhidden y hlast
      · exact (List.pairwise_append.mp hpairs).2.2 x hshown y List.mem_cons_self
  · intro h sorted hsorts
    have hmem : ∀ x ∈ sorted, x ∈ entries := fun x hx => hsorts.perm.mem_iff.mp hx
    have hin : ∀ s ∈ shown top sorted, s ∈ entries := fun s hs => hmem s (List.mem_of_mem_drop hs)
    have hascending := hsorts.ascending
    rw [← hidden_append_shown top sorted, List.pairwise_append] at hascending
    refine ⟨?_, ?_, ?_⟩
    · exact hascending.2.1.imp_of_mem fun hx hy hle => h _ (hin _ hx) _ (hin _ hy) hle (hsorts.showable hy)
    · exact fun s hs => h s (hin s hs) s (hin s hs) (le_refl _) (hsorts.showable hs)
    · intro x hx s hs
      exact h x (hmem x (List.mem_of_mem_take hx)) s (hin s hs) (hascending.2.2 x hx s hs) (hsorts.showable hs)

end KeyedSort
