import Mathlib.Data.Nat.Bitwise
import Ubpftrace.ByteCopies

/-!
# Rings of bytes at unbounded positions

A ring of `n` bytes holds the byte of position `p` at `p % n`. A run of bytes that goes
over the end is stored and read in two pieces. Seen at the positions, a read is a plain one.
-/

namespace ByteRings

open Bytes

variable {data : Nat → UInt8} {n pos len : Nat}

/-- What a ring of `n` bytes holds, by position. -/
def unrolled (data : Nat → UInt8) (n : Nat) : Nat → UInt8 := fun p => data (p % n)

/-- The store of a run of bytes at an offset of the ring. -/
def writeWrapped (data : Nat → UInt8) (n offset : Nat) (bs : List UInt8) : Nat → UInt8 :=
  if offset + bs.length ≤ n then write data offset bs
  else write (write data offset (bs.take (n - offset))) 0 (bs.drop (n - offset))

/-- The run of bytes from an offset of the ring on. -/
def readWrapped (data : Nat → UInt8) (n offset len : Nat) : List UInt8 :=
  if offset + len ≤ n then slice data offset len
  else slice data offset (n - offset) ++ slice data 0 (len - (n - offset))

theorem mask_eq {k : Nat} (hn : n = 2 ^ k) (pos : Nat) : pos &&& (n - 1) = pos % n := by
  rw [hn, Nat.and_two_pow_sub_one_eq_mod]

theorem length_readWrapped (data : Nat → UInt8) (n offset len : Nat) (h : offset ≤ n) :
    (readWrapped data n offset len).length = len := by
  unfold readWrapped
  split
  · exact length_slice _ _ _
  · rw [List.length_append, length_slice, length_slice]
    omega

theorem add_mod_of_lt {i : Nat} (hn : 0 < n) (hi : i < n) :
    (pos + i) % n = if pos % n + i < n then pos % n + i else pos % n + i - n := by
  have hlt : pos % n < n := Nat.mod_lt _ hn
  rw [← Nat.mod_add_mod]
  split
  · next h => exact Nat.mod_eq_of_lt h
  · next h =>
    rw [Nat.mod_eq_sub_mod (by omega)]
    exact Nat.mod_eq_of_lt (by omega)

theorem readWrapped_eq (hn : 0 < n) (hlen : len ≤ n) :
    readWrapped data n (pos % n) len = slice (unrolled data n) pos len := by
  have hlt : pos % n < n := Nat.mod_lt _ hn
  apply List.ext_getElem
  · rw [length_readWrapped _ _ _ _ hlt.le, length_slice]
  · intro i hi hi'
    rw [length_slice] at hi'
    rw [getElem_slice, unrolled, add_mod_of_lt hn (by omega)]
    unfold readWrapped
    split
    · next hfits =>
      rw [getElem_slice, if_pos (by omega)]
    · next hwraps =>
      rw [List.getElem_append]
      simp only [length_slice, getElem_slice]
      split
      · rw [if_pos (by omega)]
      · rw [if_neg (by omega)]
        congr 1
        omega

end ByteRings
