import Mathlib.Data.List.Basic
import Mathlib.Tactic.Ring

/-!
# Appending to a file through short writes

A file that is only appended to, and an operating system that takes as much of
each `write` as it likes: the oracle gives, for every call, the most bytes that
call accepts, and a value that is not positive makes the call fail. No file
grows beyond the largest offset of a 64-bit `off_t`.
-/

namespace ShortWrites

def maxSize : Nat := 2 ^ 63 - 1

/-- The bytes in the file, the `write` calls made so far, and whether one of them failed. -/
structure File where
  bytes : List UInt8
  calls : Nat
  failed : Bool
  deriving DecidableEq

/-- What `::write` returns. -/
def File.accepts (os : Nat → Int) (f : File) (n : Nat) : Int :=
  min (os f.calls) (min (n : Int) ((maxSize - f.bytes.length : Nat) : Int))

/-- The file after `::write`. -/
def File.write (os : Nat → Int) (f : File) (bs : List UInt8) : File :=
  let n := f.accepts os bs.length
  { bytes := f.bytes ++ bs.take n.toNat
    calls := f.calls + 1
    failed := f.failed || decide (n ≤ 0) }

/-- The loop `while (to_write > 0)`, with the number of bytes it has written.
Every turn writes a byte, so that the fuel `bs.length` is enough. -/
def File.writeLoop (os : Nat → Int) : Nat → File → List UInt8 → Nat × File
  | 0, f, _ => (0, f)
  | fuel + 1, f, bs =>
    if bs = [] then (0, f)
    else
      let n := f.accepts os bs.length
      if n ≤ 0 then (0, f.write os bs)
      else
        let rest := File.writeLoop os fuel (f.write os bs) (bs.drop n.toNat)
        (n.toNat + rest.1, rest.2)

def File.writeAll (os : Nat → Int) (f : File) (bs : List UInt8) : Nat × File := f.writeLoop os bs.length bs

variable {os : Nat → Int} {f : File} {bs : List UInt8}

theorem accepts_le (os : Nat → Int) (f : File) (n : Nat) : f.accepts os n ≤ n := by
  simp only [File.accepts]
  omega

theorem write_failed (h : (f.write os bs).failed = false) : f.failed = false ∧ 0 < f.accepts os bs.length := by
  simp only [File.write, Bool.or_eq_false_iff, decide_eq_false_iff_not] at h
  exact ⟨h.1, by omega⟩

theorem length_write (bs : List UInt8) (h : 0 < f.accepts os bs.length) :
    ((f.write os bs).bytes.length : Int) = f.bytes.length + f.accepts os bs.length := by
  have := accepts_le os f bs.length
  simp only [File.write, List.length_append, List.length_take]
  omega

theorem write_le_maxSize (bs : List UInt8) (h : f.bytes.length ≤ maxSize) :
    (f.write os bs).bytes.length ≤ maxSize := by
  simp only [File.write, List.length_append, List.length_take, File.accepts]
  omega

theorem write_complete (h : f.accepts os bs.length = bs.length) : (f.write os bs).bytes = f.bytes ++ bs := by
  simp [File.write, h]

theorem writeLoop_of_failed (os : Nat → Int) (fuel : Nat) (f : File) (bs : List UInt8) (h : f.failed = true) :
    (f.writeLoop os fuel bs).2.failed = true := by
  induction fuel generalizing f bs with
  | zero => exact h
  | succ fuel ih =>
    have hw : (f.write os bs).failed = true := by simp [File.write, h]
    rw [File.writeLoop]
    split
    · exact h
    · dsimp only
      split
      · exact hw
      · exact ih _ _ hw

theorem writeLoop_spec (fuel : Nat) (f : File) (bs : List UInt8) (hfuel : bs.length ≤ fuel)
    (h : (f.writeLoop os fuel bs).2.failed = false) :
    (f.writeLoop os fuel bs).1 = bs.length ∧ (f.writeLoop os fuel bs).2.bytes = f.bytes ++ bs := by
  induction fuel generalizing f bs with
  | zero =>
    obtain rfl := List.length_eq_zero_iff.mp (Nat.le_zero.mp hfuel)
    simp [File.writeLoop]
  | succ fuel ih =>
    rw [File.writeLoop] at h ⊢
    split at h
    · next hnil => simp [hnil]
    · next hne =>
      dsimp only at h
      split at h
      · next hle =>
        have := (write_failed h).2
        omega
      · next hpos =>
        have hle := accepts_le os f bs.length
        have hdrop : (bs.drop (f.accepts os bs.length).toNat).length ≤ fuel := by
          rw [List.length_drop]
          omega
        obtain ⟨hcount, hbytes⟩ := ih _ _ hdrop h
        rw [if_neg hne]
        dsimp only
        rw [if_neg hpos, hcount, hbytes]
        constructor
        · rw [List.length_drop]
          omega
        · simp [File.write, List.append_assoc]

theorem writeLoop_le_maxSize (fuel : Nat) (f : File) (bs : List UInt8) (h : f.bytes.length ≤ maxSize) :
    (f.writeLoop os fuel bs).2.bytes.length ≤ maxSize := by
  induction fuel generalizing f bs with
  | zero => exact h
  | succ fuel ih =>
    rw [File.writeLoop]
    split
    · exact h
    · dsimp only
      split
      · exact write_le_maxSize bs h
      · exact ih _ _ (write_le_maxSize bs h)

theorem writeAll_spec (h : (f.writeAll os bs).2.failed = false) :
    f.failed = false ∧ (f.writeAll os bs).1 = bs.length ∧ (f.writeAll os bs).2.bytes = f.bytes ++ bs := by
  refine ⟨?_, writeLoop_spec _ f bs (Nat.le_refl _) h⟩
  cases hf : f.failed with
  | false => rfl
  | true =>
    have := writeLoop_of_failed os bs.length f bs hf
    rw [File.writeAll, this] at h
    cases h

end ShortWrites
