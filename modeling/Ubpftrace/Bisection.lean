import Mathlib.Algebra.Group.Nat.Defs
import Mathlib.Order.Basic
import Mathlib.Data.List.GetD
import Mathlib.Data.List.Nodup

/-!
# Bisection with a bounded number of steps

The search for the end of the leading positions that satisfy a predicate, and what it
finds in a sorted list.
-/

namespace Bisection

/-- At most `steps` halvings of `left .. right`; the lower end is returned. -/
def bisect (below : Nat → Bool) : Nat → Nat → Nat → Nat
  | 0, left, _ => left
  | steps + 1, left, right =>
    if left < right then
      if below ((left + right) / 2) then bisect below steps ((left + right) / 2 + 1) right
      else bisect below steps left ((left + right) / 2)
    else left

/-- The positions below `k` and no others satisfy the predicate. -/
def Boundary (below : Nat → Bool) (k n : Nat) : Prop := k ≤ n ∧ ∀ i < n, below i = true ↔ i < k

theorem bisect_eq {below : Nat → Bool} {k n steps left right : Nat} (hk : Boundary below k n)
    (hleft : left ≤ k) (hright : k ≤ right) (hn : right ≤ n) (hsteps : right - left < 2 ^ steps) :
    bisect below steps left right = k := by
  induction steps generalizing left right with
  | zero =>
    simp only [bisect]
    omega
  | succ steps ih =>
    simp only [bisect]
    split
    · have hmid := hk.2 ((left + right) / 2) (by omega)
      split
      · rename_i hbelow
        have := hmid.mp hbelow
        exact ih (by omega) hright hn (by omega)
      · rename_i hbelow
        have : ¬ (left + right) / 2 < k := fun h => hbelow (hmid.mpr h)
        exact ih hleft (by omega) (by omega) (by omega)
    · omega

section Sorted

variable {α : Type} {key : α → Nat} {l : List α} {bound : Nat}

/-- `x` has the greatest key up to the bound. -/
structure IsLast (key : α → Nat) (l : List α) (bound : Nat) (x : α) : Prop where
  mem : x ∈ l
  le : key x ≤ bound
  greatest : ∀ y ∈ l, key y ≤ bound → key y ≤ key x

theorem split_of_sorted (hsorted : l.Pairwise fun x y => key x < key y) (bound : Nat) :
    ∃ low high, l = low ++ high ∧ (∀ x ∈ low, key x ≤ bound) ∧ ∀ x ∈ high, bound < key x := by
  induction hsorted with
  | nil => exact ⟨[], [], rfl, by simp, by simp⟩
  | @cons x xs hx _ ih =>
    obtain ⟨low, high, rfl, hlow, hhigh⟩ := ih
    by_cases hle : key x ≤ bound
    · exact ⟨x :: low, high, rfl, by simpa using ⟨hle, hlow⟩, hhigh⟩
    · refine ⟨[], x :: (low ++ high), rfl, by simp, ?_⟩
      intro y hy
      rcases List.mem_cons.mp hy with rfl | hy
      · omega
      · have := hx y hy
        omega

theorem boundary_of_split [Inhabited α] {low high : List α} (hlow : ∀ x ∈ low, key x ≤ bound)
    (hhigh : ∀ x ∈ high, bound < key x) :
    Boundary (fun i => decide (key ((low ++ high).getD i default) ≤ bound)) low.length (low ++ high).length := by
  refine ⟨by simp, fun i hi => ?_⟩
  rw [decide_eq_true_eq]
  constructor
  · by_contra hge
    have hmem : (low ++ high).getD i default ∈ high := by
      rw [List.getD_append_right _ _ _ _ (by omega), List.getD_eq_getElem _ _ (by simp at hi; omega)]
      exact List.getElem_mem _
    have := hhigh _ hmem
    omega
  · intro hlt
    rw [List.getD_append _ _ _ _ hlt, List.getD_eq_getElem _ _ hlt]
    exact hlow _ (List.getElem_mem _)

theorem isLast_of_split {low high : List α} (hsorted : (low ++ high).Pairwise fun x y => key x < key y)
    (hlow : ∀ x ∈ low, key x ≤ bound) (hhigh : ∀ x ∈ high, bound < key x) (hne : low ≠ []) :
    IsLast key (low ++ high) bound (low.getLast hne) := by
  refine ⟨List.mem_append_left _ (List.getLast_mem hne), hlow _ (List.getLast_mem hne), fun y hy hle => ?_⟩
  rcases List.mem_append.mp hy with hy | hy
  · have hpair : low.Pairwise fun x y => key x < key y := (List.pairwise_append.mp hsorted).1
    obtain ⟨front, last, rfl⟩ : ∃ front last, low = front ++ [last] :=
      ⟨low.dropLast, low.getLast hne, (List.dropLast_append_getLast hne).symm⟩
    rw [List.getLast_append_singleton]
    rcases List.mem_append.mp hy with hy | hy
    · have := (List.pairwise_append.mp hpair).2.2 y hy last (by simp)
      omega
    · exact Nat.le_of_eq (congrArg key (List.mem_singleton.mp hy))
  · have := hhigh y hy
    omega

theorem IsLast.unique {x y : α} (hsorted : l.Pairwise fun x y => key x < key y) (hx : IsLast key l bound x)
    (hy : IsLast key l bound y) : x = y := by
  have heq : key x = key y := Nat.le_antisymm (hy.greatest x hx.mem hx.le) (hx.greatest y hy.mem hy.le)
  have hnodup : (l.map key).Nodup := List.pairwise_map.mpr (hsorted.imp fun h => Nat.ne_of_lt h)
  exact List.inj_on_of_nodup_map hnodup hx.mem hy.mem heq

/-- What the search over a sorted list returns: nothing if every key is above the
bound, and otherwise the last element up to it. -/
theorem bisect_sorted [Inhabited α] (hsorted : l.Pairwise fun x y => key x < key y) (bound : Nat) {steps : Nat}
    (hsteps : l.length < 2 ^ steps) :
    let k := bisect (fun i => decide (key (l.getD i default) ≤ bound)) steps 0 l.length
    (k = 0 ∧ ∀ x ∈ l, bound < key x) ∨ (0 < k ∧ k ≤ l.length ∧ IsLast key l bound (l.getD (k - 1) default)) := by
  obtain ⟨low, high, rfl, hlow, hhigh⟩ := split_of_sorted hsorted bound
  intro k
  have hk : k = low.length :=
    bisect_eq (boundary_of_split hlow hhigh) (Nat.zero_le _) (by simp) (Nat.le_refl _) (by simpa using hsteps)
  rw [hk]
  cases hne : low with
  | nil =>
    exact .inl ⟨rfl, by simpa using hhigh⟩
  | cons x xs =>
    have hlen : 0 < low.length := by simp [hne]
    have hlow' : low ≠ [] := by simp [hne]
    rw [← hne]
    refine .inr ⟨hlen, by simp, ?_⟩
    have hlast : (low ++ high).getD (low.length - 1) default = low.getLast hlow' := by
      rw [List.getD_append _ _ _ _ (by omega), List.getD_eq_getElem _ _ (by omega), List.getLast_eq_getElem]
    rw [hlast]
    exact isLast_of_split hsorted hlow hhigh hlow'

end Sorted

end Bisection
