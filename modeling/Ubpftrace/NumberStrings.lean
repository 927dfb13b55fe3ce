import Mathlib.Algebra.Group.Int.Defs
import Mathlib.Algebra.Group.Nat.Defs
import Mathlib.Data.List.Basic
import Mathlib.Data.List.TakeWhile

/-!
# Decimal strings of the C++ library

`std::to_string` of an unsigned number, and the conversions back, which skip blanks and
a sign, read as many digits as there are, and throw without a digit or when the number
does not fit.
-/

namespace NumberStrings

abbrev Str := List Char

/-- `std::to_string`. -/
def toStr (n : Nat) : Str := Nat.toDigits 10 n

def isSpace (c : Char) : Bool := c ∈ [' ', '\t', '\n', '\x0b', '\x0c', '\r']

/-- The sign in front of a number, and what follows it. -/
def splitSign : Str → Bool × Str
  | '-' :: s => (true, s)
  | '+' :: s => (false, s)
  | s => (false, s)

/-- `std::stoull`, without the number where it throws. -/
def stoull (s : Str) : Option Nat :=
  let (negative, digits) := splitSign (s.dropWhile isSpace)
  let digits := digits.takeWhile Char.isDigit
  let n := Nat.ofDigitChars 10 digits 0
  if digits = [] then none
  else if 2 ^ 64 ≤ n then none
  else some (if negative then (2 ^ 64 - n) % 2 ^ 64 else n)

/-- `std::stoi`. -/
def stoi (s : Str) : Option Int :=
  let (negative, digits) := splitSign (s.dropWhile isSpace)
  let digits := digits.takeWhile Char.isDigit
  let n : Int := Nat.ofDigitChars 10 digits 0
  let n := if negative then -n else n
  if digits = [] then none
  else if n < -2 ^ 31 ∨ 2 ^ 31 ≤ n then none
  else some n

theorem toStr_injective {n n' : Nat} (h : toStr n = toStr n') : n = n' := by
  have hback := congrArg (Nat.ofDigitChars 10 · 0) h
  simpa only [toStr, Nat.ofDigitChars_ten_toDigits] using hback

theorem isDigit_of_mem_toStr {n : Nat} {d : Char} (hd : d ∈ toStr n) : d.isDigit :=
  Nat.isDigit_of_mem_toDigits (by decide) (by decide) hd

/-- No blank and no sign stands in front of a decimal number. -/
theorem splitSign_toStr (n : Nat) : splitSign ((toStr n).dropWhile isSpace) = (false, toStr n) := by
  obtain ⟨d, ds, hds⟩ := List.exists_cons_of_ne_nil (Nat.toDigits_ne_nil : Nat.toDigits 10 n ≠ [])
  have hdigit : d.isDigit := isDigit_of_mem_toStr (n := n) (by rw [toStr, hds]; exact List.mem_cons_self)
  have hother : ∀ c : Char, c.isDigit = false → d ≠ c := by
    rintro c hc rfl
    rw [hdigit] at hc
    cases hc
  have hspace : isSpace d = false := by
    simp only [isSpace, decide_eq_false_iff_not, List.mem_cons, List.not_mem_nil, not_or, not_false_eq_true, and_true]
    exact ⟨hother _ (by decide), hother _ (by decide), hother _ (by decide), hother _ (by decide),
      hother _ (by decide), hother _ (by decide)⟩
  rw [toStr, hds, List.dropWhile_cons_of_neg (by simp [hspace]), splitSign]
  · exact fun s h => hother '-' (by decide) (List.cons.inj h).1
  · exact fun s h => hother '+' (by decide) (List.cons.inj h).1

theorem takeWhile_toStr (n : Nat) : (toStr n).takeWhile Char.isDigit = toStr n := by
  apply List.takeWhile_eq_self_iff.mpr
  intro d hd
  exact isDigit_of_mem_toStr hd

theorem toStr_ne_nil (n : Nat) : toStr n ≠ [] := Nat.toDigits_ne_nil

theorem stoull_toStr {n : Nat} (hn : n < 2 ^ 64) : stoull (toStr n) = some n := by
  simp only [stoull, splitSign_toStr, takeWhile_toStr, if_neg (toStr_ne_nil n)]
  rw [toStr, Nat.ofDigitChars_ten_toDigits, if_neg (by omega)]
  rfl

theorem stoi_toStr {n : Nat} (hn : n < 2 ^ 31) : stoi (toStr n) = some (n : Int) := by
  simp only [stoi, splitSign_toStr, takeWhile_toStr, if_neg (toStr_ne_nil n), Bool.false_eq_true, if_false]
  rw [toStr, Nat.ofDigitChars_ten_toDigits, if_neg (by omega)]

end NumberStrings
