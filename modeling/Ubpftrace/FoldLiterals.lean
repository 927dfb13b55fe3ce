import Ubpftrace.MachineWords

/-!
# Constant folding

`fold_literals.cpp` on expressions over integer and boolean literals. A literal is an
`Integer` of type `uint64_t` or a `NegativeInteger` of type `int64_t`; `eval_binop` is
instantiated at the one type both operands fit and checks the range by hand for each
operator. The checks are compared here with exact arithmetic.
-/

namespace FoldLiterals

open MachineWords

inductive Operator where
  | plus | minus | mul | div | mod
  | band | bor | bxor | left | right
  | eq | ne | le | ge | lt | gt
  | land | lor
  deriving DecidableEq

inductive UnaryOperator where
  | minus | bnot | lnot
  deriving DecidableEq

inductive Node where
  | integer (value : BitVec 64)
  | negativeInteger (value : BitVec 64)
  | boolean (value : Bool)
  | var (ident : String)
  | unop (op : UnaryOperator) (expr : Node)
  | binop (op : Operator) (left right : Node)
  deriving DecidableEq

def flowError : String := "unable to fold literals due to overflow or underflow"

def underflowError : String := "negative value will underflow"

def int64Max : BitVec 64 := BitVec.intMax 64
def int64Min : BitVec 64 := BitVec.intMin 64

/-- `std::variant<uint64_t, int64_t>`. -/
structure Variant where
  type : Sign
  bits : BitVec 64
  deriving DecidableEq

def Variant.toNode (v : Variant) : Node :=
  match v.type with
  | .unsigned => .integer v.bits
  | .signed => .negativeInteger v.bits

section EvalBinop

-- the template parameter `T`: `uint64_t` or `int64_t`
variable (t : Sign)

def clamp (v : BitVec 64) : Variant :=
  if t = .signed ∧ 0 ≤ v.toInt then ⟨.unsigned, v⟩ else ⟨t, v⟩

/-- The division traps on the one signed quotient that has no `int64_t`. -/
def divides (l r : BitVec 64) : Prop := ¬ (t = .signed ∧ l = int64Min ∧ r = -1)

instance (l r : BitVec 64) : Decidable (divides t l r) := inferInstanceAs (Decidable (¬ _))

def quotient (l r : BitVec 64) : Option (BitVec 64) :=
  if divides t l r then some (t.quot l r) else none

def remainder (l r : BitVec 64) : Option (BitVec 64) :=
  if divides t l r then some (t.rem l r) else none

def evalPlus (left right : BitVec 64) : Option Variant :=
  if left = 0 ∨ right = 0 then some (clamp t (left + right))
  else if 0 < t.val left ∧ 0 < t.val right then
    let res := left + right
    if left.toNat < res.toNat ∧ right.toNat < res.toNat then some ⟨.unsigned, res⟩ else none
  else
    match t with
    | .unsigned => none
    | .signed =>
      if (0 < left.toInt ∧ right.toInt < 0) ∨ (left.toInt < 0 ∧ 0 < right.toInt) then
        some (clamp .signed (left + right))
      else if left.toInt < 0 ∧ right.toInt < 0 then
        if right.toInt < (int64Min - left).toInt then none else some ⟨.signed, left + right⟩
      else none

def evalMinus (left right : BitVec 64) : Option Variant :=
  match t with
  | .unsigned =>
    if right.toNat ≤ left.toNat then some ⟨.unsigned, left - right⟩
    else
      let delta := right - left - 1
      if int64Max.toNat < delta.toNat then none else some ⟨.signed, -delta - 1⟩
  | .signed =>
    if right = 0 then some (clamp .signed left)
    else if 0 < left.toInt ∧ right.toInt < 0 ∧ (int64Max - left).toInt < (-right).toInt then none
    else if left.toInt < 0 ∧ 0 < right.toInt ∧ (-right).toInt < (int64Min - left).toInt then none
    else some (clamp .signed (left - right))

/-- C++ leaves a product of `int64_t` undefined that has no `int64_t`. -/
def multiplies (l r : BitVec 64) : Prop := t = .signed → Sign.signed.Holds 64 (l.toInt * r.toInt)

instance (l r : BitVec 64) : Decidable (multiplies t l r) := inferInstanceAs (Decidable (_ → _))

/-- A product, checked by dividing it back. An optimiser takes the quotient for `right`, as it is
for every product that is defined, so that no signed overflow is found. -/
def checkedProduct (left right : BitVec 64) : Option (Option Variant) :=
  if multiplies t left right then do
    let result := left * right
    let back ← quotient t result left
    if back ≠ right then return none else return some (clamp t result)
  else none

def evalMul (left right : BitVec 64) : Option (Option Variant) :=
  if left = 0 ∨ right = 0 then some (some ⟨.unsigned, 0⟩)
  else if t = .signed ∧ left.toInt < 0 ∧ right.toInt < 0 then
    -- spills into `eval_binop<uint64_t>`, whose operands are not zero either
    checkedProduct .unsigned (-(left + 1) + 1) (-(right + 1) + 1)
  else checkedProduct t left right

def shiftRight (l r : BitVec 64) : BitVec 64 :=
  match t with
  | .unsigned => l >>> r
  | .signed => l.sshiftRight r.toNat

/-- `eval_binop` on the operators that `is_comparison_op` leaves to it: `none` where the
process traps or the result is undefined, `some none` for `nullopt`. -/
def evalBinop (left right : BitVec 64) (op : Operator) : Option (Option Variant) :=
  match op with
  | .plus => some (evalPlus t left right)
  | .minus => some (evalMinus t left right)
  | .mul => evalMul t left right
  | .div => if right = 0 then some none else (quotient t left right).map fun v => some (clamp t v)
  | .mod => if right = 0 then some none else (remainder t left right).map fun v => some (clamp t v)
  | .band => some (some (clamp t (left &&& right)))
  | .bor => some (some (clamp t (left ||| right)))
  | .bxor => some (some (clamp t (left ^^^ right)))
  | .left =>
    if t.val right < 0 ∨ 64 ≤ t.val right then some none else some (some (clamp t (left <<< right)))
  | .right =>
    if t.val right < 0 ∨ 64 ≤ t.val right then some none
    else some (some (clamp t (shiftRight t left right)))
  | .eq | .ne | .le | .ge | .lt | .gt | .land | .lor => some none

end EvalBinop

/-- `is_comparison_op`, with the comparison that `make_boolean` makes. -/
def comparison : Operator → Option (Int → Int → Bool)
  | .eq => some fun l r => l = r
  | .ne => some fun l r => l ≠ r
  | .le => some fun l r => l ≤ r
  | .ge => some fun l r => l ≥ r
  | .lt => some fun l r => l < r
  | .gt => some fun l r => l > r
  | .land => some fun l r => l ≠ 0 ∧ r ≠ 0
  | .lor => some fun l r => l ≠ 0 ∨ r ≠ 0
  | _ => none

/-- `make_boolean<bool>`, with the errors it adds. -/
def makeBoolean (left right : Bool) (op : Operator) : Bool × List String :=
  match comparison op with
  | some c => (c left.toNat right.toNat, [])
  | none =>
    match op with
    | .plus => (left.toNat + right.toNat ≠ 0, [])
    | .minus => ((left.toNat : Int) - right.toNat ≠ 0, [])
    | .mul => (left && right, [])
    | .div => (left && right, if right then [] else [flowError])
    | .mod => (false, if right then [] else [flowError])
    | .band => (left && right, [])
    | .bor => (left || right, [])
    | .bxor => (left != right, [])
    | .left => (!left && right, [])
    | .right => (left && !right, [])
    | _ => (true, [])

/-- `LiteralFolder::visit(Unop &)` behind the visit of the operand: the node that
replaces the expression, if any, and the errors added. -/
def visitUnop (op : UnaryOperator) : Node → Option Node × List String
  | .integer v =>
    match op with
    | .bnot => (some (.integer (~~~ v)), [])
    | .lnot => (some (.boolean (v = 0)), [])
    | .minus =>
      if int64Max.toNat + 1 < v.toNat then (none, [underflowError])
      else if v = 0 then (some (.integer v), [])
      else if v.toNat ≤ 1 then (some (.negativeInteger (-v)), [])
      else (some (.negativeInteger (-1 - (v - 1))), [])
  | .negativeInteger v =>
    match op with
    | .bnot => (some (.integer (~~~ v)), [])
    | .lnot => (some (.boolean (v = 0)), [])
    | .minus => (some (.integer (-(v + 1) + 1)), [])
  | .boolean b =>
    match op with
    | .lnot => (some (.boolean (!b)), [])
    | _ => (none, [])
  | _ => (none, [])

/-- Two integers at the type `t`. -/
def visitIntegers (t : Sign) (left right : BitVec 64) (op : Operator) : Option (Option Node × List String) :=
  match comparison op with
  | some c => some (some (.boolean (c (t.val left) (t.val right))), [])
  | none =>
    (evalBinop t left right op).map fun
      | none => (none, [flowError])
      | some v => (some v.toNode, [])

/-- A boolean and the truth of an integer: only `&&` and `||` are folded. -/
def visitMixed (boolean other : Bool) (op : Operator) : Option Node × List String :=
  if op = .land ∨ op = .lor then
    let (value, errors) := makeBoolean boolean other op
    (some (.boolean value), errors)
  else (none, [])

/-- `LiteralFolder::visit(Binop &)` behind the visits of the operands; `none` where the
process traps or the result is undefined. -/
def visitBinop (op : Operator) : Node → Node → Option (Option Node × List String)
  | .boolean p, .boolean q =>
    let (value, errors) := makeBoolean p q op
    some (some (.boolean value), errors)
  | .boolean p, .integer v => some (visitMixed p (v ≠ 0) op)
  | .integer v, .boolean p => some (visitMixed p (v ≠ 0) op)
  | .boolean p, .negativeInteger _ => some (visitMixed p true op)
  | .negativeInteger _, .boolean p => some (visitMixed p true op)
  | .integer l, .integer r => visitIntegers .unsigned l r op
  | .negativeInteger l, .negativeInteger r => visitIntegers .signed l r op
  | .integer l, .negativeInteger r =>
    if l.toNat ≤ int64Max.toNat then visitIntegers .signed l r op else some (none, [flowError])
  | .negativeInteger l, .integer r =>
    if r.toNat ≤ int64Max.toNat then visitIntegers .signed l r op else some (none, [flowError])
  | _, _ => some (none, [])

/-- The visitor over a whole expression: the expression that stands in its place and
the errors reported; `none` where the process traps or the result is undefined. -/
def fold : Node → Option (Node × List String)
  | .unop op e => do
    let (expr, errors) ← fold e
    let (r, more) := visitUnop op expr
    return (r.getD (.unop op expr), errors ++ more)
  | .binop op l r => do
    let (left, lerrors) ← fold l
    let (right, rerrors) ← fold r
    let (r, more) ← visitBinop op left right
    return (r.getD (.binop op left right), lerrors ++ rerrors ++ more)
  | n => some (n, [])

/-! ## Exact arithmetic -/

inductive Exact where
  | int (n : Int)
  | truth (b : Bool)
  deriving DecidableEq

def Exact.toInt : Exact → Int
  | .int n => n
  | .truth b => b.toNat

/-- The arithmetic operators on integers, with the quotient truncated toward zero. -/
def exactArith : Operator → Int → Int → Option Int
  | .plus, a, b => some (a + b)
  | .minus, a, b => some (a - b)
  | .mul, a, b => some (a * b)
  | .div, a, b => if b = 0 then none else some (a.tdiv b)
  | .mod, a, b => if b = 0 then none else some (a.tmod b)
  | _, _, _ => none

def exactUnary : UnaryOperator → Int → Option Int
  | .minus, a => some (-a)
  | _, _ => none

def exactBinary (op : Operator) (a b : Int) : Option Int :=
  match comparison op with
  | some c => some (c a b).toNat
  | none => exactArith op a b

/-- The mathematical result of an expression; a comparison is 0 or 1. -/
def ideal : Node → Option Int
  | .integer v => some v.toNat
  | .negativeInteger v => some v.toInt
  | .boolean b => some b.toNat
  | .var _ => none
  | .unop op e => (ideal e).bind (exactUnary op)
  | .binop op l r => (ideal l).bind fun a => (ideal r).bind fun b => exactBinary op a b

def Operator.isArithmetic (op : Operator) : Bool :=
  op = .plus || op = .minus || op = .mul || op = .div || op = .mod

def Operator.isOrder (op : Operator) : Bool :=
  op = .eq || op = .ne || op = .le || op = .ge || op = .lt || op = .gt

/-- The expressions over integer literals with the unary minus, the arithmetic
operators and the comparisons. -/
def built : Node → Bool
  | .integer _ => true
  | .negativeInteger v => v.toInt < 0
  | .unop op e => op = .minus && built e
  | .binop op l r => (op.isArithmetic || op.isOrder) && built l && built r
  | _ => false

def literal : Node → Option Int
  | .integer v => some v.toNat
  | .negativeInteger v => some v.toInt
  | .boolean b => some b.toNat
  | _ => none

/-- Folding reports an error or leaves a literal with the exact result. -/
def Settled (n : Node) : Prop :=
  ∃ m errors, fold n = some (m, errors) ∧ (errors ≠ [] ∨ ∃ x, literal m = some x ∧ ideal n = some x)

def subexpressions : Node → List Node
  | .unop op e => .unop op e :: subexpressions e
  | .binop op l r => .binop op l r :: (subexpressions l ++ subexpressions r)
  | n => [n]

/-! ## What the folder admits -/

/-- The room for a result `x`: operands of one sign may use both types of literals,
operands of different signs are coerced to `int64_t`, with their result. -/
def Fits (a b x : Int) : Prop :=
  if (0 ≤ a ↔ 0 ≤ b) then -2 ^ 63 ≤ x ∧ x < 2 ^ 64 else a < 2 ^ 63 ∧ b < 2 ^ 63 ∧ -2 ^ 63 ≤ x ∧ x < 2 ^ 63

instance (a b x : Int) : Decidable (Fits a b x) := by
  unfold Fits
  infer_instance

def admitInts (op : Operator) (a b : Int) : Option Exact :=
  match comparison op with
  | some c => if Fits a b 0 then some (.truth (c a b)) else none
  | none => (exactArith op a b).bind fun x => if Fits a b x then some (.int x) else none

def admitTruths (op : Operator) (p q : Bool) : Option Exact :=
  match comparison op with
  | some c => some (.truth (c p.toNat q.toNat))
  | none =>
    match op with
    | .plus => some (.truth (p || q))
    | .minus => some (.truth (p != q))
    | .mul => some (.truth (p && q))
    | .div => if q then some (.truth p) else none
    | .mod => if q then some (.truth false) else none
    | _ => none

/-- The exact value of an expression whose every step the folder has to admit; `none`
where an error is due. -/
def exactOf : Node → Option Exact
  | .integer v => some (.int v.toNat)
  | .negativeInteger v => some (.int v.toInt)
  | .boolean b => some (.truth b)
  | .var _ => none
  | .unop _ e =>
    match exactOf e with
    | some (.int a) => if a ≤ 2 ^ 63 then some (.int (-a)) else none
    | _ => none
  | .binop op l r =>
    match exactOf l, exactOf r with
    | some (.int a), some (.int b) => admitInts op a b
    | some (.truth p), some (.truth q) => admitTruths op p q
    | _, _ => none

/-- The integer steps that overflow unnoticed: the least `int64_t` subtracted from a
non-negative one, and divided by -1, and a product below it. -/
def Overflows (op : Operator) (a b : Int) : Prop :=
  (op = .minus ∧ 0 ≤ a ∧ a < 2 ^ 63 ∧ b = -2 ^ 63) ∨ ((op = .div ∨ op = .mod) ∧ a = -2 ^ 63 ∧ b = -1) ∨
    (op = .mul ∧ a < 2 ^ 63 ∧ b < 2 ^ 63 ∧ a * b < -2 ^ 63)

instance (op : Operator) (a b : Int) : Decidable (Overflows op a b) := by
  unfold Overflows
  infer_instance

/-- The expressions that are folded to a wrong literal, or neither folded nor refused for sure,
although their operands have exact values: integer overflows, sums and differences of
truth values that are no truth values, and integers mixed with truth values. -/
def faulty : Node → Bool
  | .unop _ e =>
    match exactOf e with
    | some (.truth _) => true
    | _ => false
  | .binop op l r =>
    match exactOf l, exactOf r with
    | some (.int a), some (.int b) => Overflows op a b
    | some (.truth p), some (.truth q) => (op = .plus && p && q) || (op = .minus && !p && q)
    | some (.int _), some (.truth _) => true
    | some (.truth _), some (.int _) => true
    | _, _ => false
  | _ => false

end FoldLiterals
