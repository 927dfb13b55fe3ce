import Mathlib.Data.List.GetD
import Mathlib.Data.List.Range

/-!
# Lists in bounded storage

A bounded list and two ways to store one: in cells that are used in a circle, from a
head on, and as rows of one length end to end. Every operation on the list has its
counterpart on the storage.
-/

namespace BoundedLists

variable {α β : Type}

/-! ## Cells in a circle -/

/-- The elements in `count` cells from the head on. -/
def circular (cells : Nat → α) (capacity head count : Nat) : List α :=
  (List.range count).map fun i => cells ((head + i) % capacity)

section Circular

variable (cells : Nat → α) {capacity head count : Nat}

@[simp] theorem length_circular : (circular cells capacity head count).length = count := by simp [circular]

theorem head?_circular (hhead : head < capacity) (hcount : 0 < count) :
    (circular cells capacity head count).head? = some (cells head) := by
  obtain ⟨n, rfl⟩ : ∃ n, count = n + 1 := ⟨count - 1, by omega⟩
  simp [circular, List.range_succ_eq_map, Nat.mod_eq_of_lt hhead]

theorem circular_next : circular cells capacity ((head + 1) % capacity) (count - 1) =
    (circular cells capacity head count).tail := by
  cases count with
  | zero => rfl
  | succ n =>
    simp only [circular, List.range_succ_eq_map, List.map_cons, List.map_map, List.tail_cons, Nat.add_sub_cancel]
    refine List.map_congr_left fun i _ => ?_
    rw [Nat.mod_add_mod, Function.comp_apply, Nat.add_assoc, Nat.add_comm 1]

theorem circular_congr {cells' : Nat → α} (hcapacity : 0 < capacity) (h : ∀ i < capacity, cells i = cells' i) :
    circular cells capacity head count = circular cells' capacity head count :=
  List.map_congr_left fun _ _ => h _ (Nat.mod_lt _ hcapacity)

/-- A cell behind the last one is free, as long as not all are taken. -/
theorem circular_update (hcount : count < capacity) (x : α) :
    circular (Function.update cells ((head + count) % capacity) x) capacity head (count + 1) =
      circular cells capacity head count ++ [x] := by
  rw [circular, List.range_succ, List.map_append, List.map_singleton, Function.update_self]
  congr 1
  refine List.map_congr_left fun i hi => Function.update_of_ne (fun heq => ?_) _ _
  have hi' : i < count := List.mem_range.mp hi
  have hmod : (head + count - (head + i)) % capacity = 0 := Nat.sub_mod_eq_zero_of_mod_eq heq.symm
  rw [Nat.mod_eq_of_lt (by omega)] at hmod
  omega

end Circular

/-! ## Rows end to end -/

section Rows

variable {row : α → List β} {w : Nat} (hw : ∀ x, (row x).length = w)
include hw

theorem length_rows (xs : List α) : (xs.flatMap row).length = xs.length * w := by
  simp [List.length_flatMap, hw]

theorem drop_rows (xs : List α) : (xs.flatMap row).drop w = xs.tail.flatMap row := by
  cases xs with
  | nil => simp
  | cons x xs => simp [← hw x]

theorem take_rows_concat (xs : List α) (x : α) : ((xs ++ [x]).flatMap row).take (xs.length * w) = xs.flatMap row := by
  rw [List.flatMap_append, List.take_append_of_le_length (length_rows hw xs).ge, ← length_rows hw xs, List.take_length]

end Rows

end BoundedLists
