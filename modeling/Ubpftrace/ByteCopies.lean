import Ubpftrace.Bytes

/-!
# Copies within a byte memory

`move` is the copy of a run of bytes that reads all of them first. A copy in pieces, from low
addresses to high ones, has the same outcome where no piece overwrites bytes still to be read.
-/

namespace Bytes

variable {mem : Nat → UInt8} {a b p n i j k : Nat}

/-- The `n` bytes from `p` on, at `b`. -/
def move (mem : Nat → UInt8) (b p n : Nat) : Nat → UInt8 :=
  fun x => if b ≤ x ∧ x < b + n then mem (p + (x - b)) else mem x

theorem getElem_slice (mem : Nat → UInt8) (a n : Nat) {i : Nat} (h : i < (slice mem a n).length) :
    (slice mem a n)[i] = mem (a + i) := by
  simp [slice]

theorem slice_add (mem : Nat → UInt8) (a j k : Nat) : slice mem a (j + k) = slice mem a j ++ slice mem (a + j) k := by
  simp [slice, List.range_add, Nat.add_assoc]

theorem slice_congr {mem' : Nat → UInt8} (h : ∀ i < n, mem (a + i) = mem' (a + i)) : slice mem a n = slice mem' a n :=
  List.map_congr_left fun i hi => h i (List.mem_range.mp hi)

theorem write_apply (mem : Nat → UInt8) (a : Nat) (bs : List UInt8) (x : Nat) :
    write mem a bs x = if h : a ≤ x ∧ x - a < bs.length then bs[x - a] else mem x := by
  rw [write, List.getD_eq_getElem?_getD]
  by_cases hle : a ≤ x
  · by_cases hlt : x - a < bs.length
    · simp [hle, hlt]
    · simp [hle, hlt]
  · simp [hle]

theorem write_append (mem : Nat → UInt8) (a : Nat) (bs cs : List UInt8) :
    write mem a (bs ++ cs) = write (write mem a bs) (a + bs.length) cs := by
  funext x
  simp only [write_apply, List.length_append, List.getElem_append]
  split_ifs
  all_goals first
    | rfl
    | omega
    | congr 1; omega

@[simp] theorem move_zero (mem : Nat → UInt8) (b p : Nat) : move mem b p 0 = mem := by
  funext x
  rw [move, if_neg (by omega)]

theorem write_move (mem : Nat → UInt8) (b p i k : Nat) :
    write (move mem b p i) (b + i) (slice mem (p + i) k) = move mem b p (i + k) := by
  funext x
  simp only [write_apply, move, length_slice, getElem_slice]
  split_ifs
  all_goals first
    | rfl
    | omega
    | congr 1; omega

theorem move_source (h : b ≤ p ∨ p + n ≤ b) (hi : i ≤ j) (hj : j < n) : move mem b p i (p + j) = mem (p + j) := by
  rw [move, if_neg (by omega)]

end Bytes
