import Ubpftrace.FoldRanges

/-!
# Folding of `&&` and `||`

`LiteralFolder::visit(Binop &)` decides the truth of its operands for each pair of kinds of
literals, `eval_bool` that of a condition. They differ for two strings, where the emptiness of the
right one is taken the wrong way round, and for a negative integer of value 0, as the positional
parameter `-0` is one. Some pairs are not folded at all.
-/

namespace FoldLiterals

open MachineWords

inductive Literal where
  | integer (value : BitVec 64)
  | negativeInteger (value : BitVec 64)
  | boolean (value : Bool)
  | string (value : List UInt8)

/-- `visit(PositionalParameter &)` of a parameter's text, with `to_int` and `to_uint`. -/
def substituted (toInt toUint : List UInt8 → Option (BitVec 64)) (val : List UInt8) : Literal :=
  match val with
  | [] => .integer 0
  | c :: _ =>
    if c = '-'.toUInt8 then (toInt val).elim (.string val) .negativeInteger
    else (toUint val).elim (.string val) .integer

inductive Operand where
  | literal (l : Literal)
  | parameter (val : List UInt8)

def Operand.visit (toInt toUint : List UInt8 → Option (BitVec 64)) : Operand → Literal
  | literal l => l
  | parameter val => substituted toInt toUint val

def evalBool : Literal → Bool
  | .integer v => v ≠ 0
  | .negativeInteger _ => true
  | .string s => !s.isEmpty
  | .boolean b => b

/-- The value of `&&` or of `||`. -/
def logical (isAnd : Bool) (l r : Bool) : Bool := if isAnd then l && r else l || r

/-- `make_boolean` of two integers of a type. -/
def logicalAt (t : Sign) (isAnd : Bool) (l r : BitVec 64) : Option Bool :=
  (comparison (if isAnd then .land else .lor)).map fun c => c (t.val l) (t.val r)

/-- `visit(Binop &)` for the two operators on literals: the `Boolean` that it returns, if any. -/
def visitLogical (isAnd : Bool) : Literal → Literal → Option Bool
  -- a string is looked for first, on the left and then on the right
  | .string s, .boolean b | .boolean b, .string s => some (logical isAnd (!s.isEmpty) b)
  | .string s, .string t => some (logical isAnd (!s.isEmpty) t.isEmpty)
  | .string _, _ | _, .string _ => none
  | .boolean l, .boolean r => some (logical isAnd l r)
  | .boolean b, .integer v | .integer v, .boolean b => some (logical isAnd b (v ≠ 0))
  | .boolean b, .negativeInteger _ | .negativeInteger _, .boolean b => some (logical isAnd b true)
  | .integer l, .integer r => logicalAt .unsigned isAnd l r
  | .negativeInteger l, .negativeInteger r => logicalAt .signed isAnd l r
  | .integer l, .negativeInteger r => if l.toNat ≤ int64Max.toNat then logicalAt .signed isAnd l r else none
  | .negativeInteger l, .integer r => if r.toNat ≤ int64Max.toNat then logicalAt .signed isAnd l r else none

/-- The pairs whose folded value is that of the two conditions. -/
def TruthKept (isAnd : Bool) : Literal → Literal → Prop
  | .string s, .string _ => s = [] ↔ isAnd = true
  | .string _, .integer _ | .string _, .negativeInteger _ => False
  | .integer _, .string _ | .negativeInteger _, .string _ => False
  | .integer v, .negativeInteger n | .negativeInteger n, .integer v =>
    v.toNat ≤ int64Max.toNat ∧ (n = 0 → (v = 0 ↔ isAnd = true))
  | .negativeInteger n, .negativeInteger m => if isAnd then n ≠ 0 ∧ m ≠ 0 else n ≠ 0 ∨ m ≠ 0
  | _, _ => True

theorem logicalAt_eq (t : Sign) (isAnd : Bool) (l r : BitVec 64) :
    logicalAt t isAnd l r = some (logical isAnd (l ≠ 0) (r ≠ 0)) := by
  cases isAnd <;> simp [logicalAt, comparison, logical, val_eq_zero_iff]

theorem logical_comm (isAnd l r : Bool) : logical isAnd l r = logical isAnd r l := by
  cases isAnd
  · exact Bool.or_comm l r
  · exact Bool.and_comm l r

/-- An operand that is taken the other way round makes no difference if the other one decides. -/
theorem logical_not_iff (isAnd l r : Bool) : logical isAnd l (!r) = logical isAnd l r ↔ l = !isAnd := by
  revert isAnd l r
  decide

/-- A negative integer counts as true, and as the integer that it is where it is folded. -/
theorem mixed_iff (isAnd : Bool) (v n : BitVec 64) :
    (if v.toNat ≤ int64Max.toNat then logicalAt .signed isAnd v n else none) = some (logical isAnd (v ≠ 0) true) ↔
      v.toNat ≤ int64Max.toNat ∧ (n = 0 → (v = 0 ↔ isAnd = true)) := by
  by_cases hv : v.toNat ≤ int64Max.toNat
  · rw [if_pos hv, logicalAt_eq, Option.some.injEq]
    by_cases hn : n = 0#64
    · have hother := logical_not_iff isAnd (v ≠ 0) true
      cases isAnd <;> simpa [hn, hv] using hother
    · simp [hn, hv]
  · simp [hv]

/-- For all literals and parameters: folding gives the value of the operator on the truth values
that the operands have as conditions, exactly for the pairs of `TruthKept`. -/
theorem fold_logical_iff (toInt toUint : List UInt8 → Option (BitVec 64)) (isAnd : Bool) (l r : Operand) :
    visitLogical isAnd (l.visit toInt toUint) (r.visit toInt toUint) =
        some (logical isAnd (evalBool (l.visit toInt toUint)) (evalBool (r.visit toInt toUint))) ↔
      TruthKept isAnd (l.visit toInt toUint) (r.visit toInt toUint) := by
  generalize l.visit toInt toUint = l
  generalize r.visit toInt toUint = r
  cases l with
  | integer v =>
    cases r with
    | negativeInteger n => exact mixed_iff isAnd v n
    | _ => simp [visitLogical, logicalAt_eq, evalBool, TruthKept, logical_comm]
  | negativeInteger n =>
    cases r with
    | integer v =>
      have hmixed := mixed_iff isAnd v n
      rw [logicalAt_eq, logical_comm] at hmixed
      rw [visitLogical, logicalAt_eq, evalBool, evalBool, logical_comm isAnd true]
      exact hmixed
    | negativeInteger m => cases isAnd <;> simp [visitLogical, logicalAt_eq, evalBool, TruthKept, logical]
    | _ => simp [visitLogical, evalBool, TruthKept, logical_comm]
  | boolean b => cases r <;> simp [visitLogical, evalBool, TruthKept, logical_comm]
  | string s =>
    cases r with
    | string t =>
      have hother := logical_not_iff isAnd (!s.isEmpty) (!t.isEmpty)
      simp only [visitLogical, evalBool, TruthKept, Option.some.injEq, Bool.not_not] at hother ⊢
      rw [hother]
      cases isAnd <;> cases s <;> simp
    | _ => simp [visitLogical, evalBool, TruthKept]

/-- `"a" && "b"` is folded to false. -/
theorem two_strings_are_false :
    visitLogical true (.string "a".toUTF8.toList) (.string "b".toUTF8.toList) = some false ∧
      evalBool (.string "a".toUTF8.toList) = true ∧ evalBool (.string "b".toUTF8.toList) = true := by
  decide +kernel

end FoldLiterals
