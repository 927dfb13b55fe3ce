import Mathlib.Logic.Function.Basic
import Ubpftrace.StructuredFlow

/-!
# Scripts and their runs

The statements and expressions of `ast.h`, with what `codegen_llvm.cpp` makes of their
control flow: the order in which the parts of an expression are evaluated, short
circuits, blocks with a value, loops and jumps. What the other operations do, to a value
and to the world, is a parameter.
-/

namespace Scripts

open StructuredFlow

mutual

/-- `compound` is any expression with a fixed number of parts that are all evaluated, from
left to right: operators, casts, accesses to maps, fields and tuples. `call` is one with a
vector of parts: calls, tuples and records. `unevaluated` is one that is asked for its type
only. -/
inductive Expr where
  | none
  | integer (value : Int)
  | boolean (value : Bool)
  | leaf (text : String)
  | var (ident : String)
  | unevaluated (op : String) (expr : Expr)
  | compound (op : String) (parts : Exprs)
  | call (func : String) (vargs : Exprs)
  | arrayAccess (expr indexpr : Expr)
  | logical (isAnd : Bool) (left right : Expr)
  | ifExpr (cond left right : Expr)
  | block (stmts : Stmts) (expr : Expr)

inductive Exprs where
  | nil
  | cons (e : Expr) (es : Exprs)

inductive Stmt where
  | expr (e : Expr)
  | varDecl (ident : String)
  | assignVar (ident : String) (expr : Expr)
  | assignMap (map : String) (key : Exprs) (expr : Expr)
  | breakJump
  | continueJump
  | returnJump
  | returnValue (value : Expr)
  | unroll (expr block : Expr)
  | whileLoop (cond block : Expr)
  | forRange (decl : String) (start stop block : Expr)
  | forMap (decl map : String) (block : Expr)

inductive Stmts where
  | nil
  | cons (s : Stmt) (ss : Stmts)

end

/-- Values, the world that effects change, and the cursors of loops. -/
structure Machine (V W C : Type) where
  truthy : V → Bool
  integer : Int → V
  boolean : Bool → V
  noValue : V
  leaf : String → W → V × W
  unevaluated : String → W → V × W
  compound : String → List V → W → V × W
  call : String → List V → W → V × W
  element : V → V → W → V × W
  declare : String → V → V
  store : String → List V → V → W → W
  times : V → Nat
  rangeStart : V → V → C
  mapStart : String → W → C
  next : C → W → Option (V × C)
  truthy_zero : truthy (integer 0) = false
  truthy_one : truthy (integer 1) = true
  truthy_boolean : ∀ b, truthy (boolean b) = b

/-- Integers are true if they are not zero. -/
theorem decide_ne_zero : ∀ b : Bool, decide ((if b then 1 else 0 : Int) ≠ 0) = b := by decide

structure State (V W : Type) where
  vars : String → V
  world : W

/-- What a run returns, and whether it left the iterable of a loop last, outside of any loop. -/
structure Return (V : Type) where
  value : Option V
  fromIterable : Bool

variable {V W C : Type}

def State.set (s : State V W) (ident : String) (v : V) : State V W := { s with vars := Function.update s.vars ident v }

def State.act {α : Type} (s : State V W) (f : W → α × W) : Flow (Return V) α × State V W :=
  (.value (f s.world).1, { s with world := (f s.world).2 })

abbrev Result (V W α : Type) := Flow (Return V) α × State V W

def leaving (fromIterable : Bool) (x : Return V) : Return V := { x with fromIterable := fromIterable }

section Runs

variable (m : Machine V W C) (fuel : Nat)

/-- The turn of a `for` loop: the next value, if there is one, and the body. -/
def forTurn (decl : String) (body : State V W → Result V W V) (c : C) (s : State V W) : Result V W V × C :=
  match m.next c s.world with
  | none => ((.brk, s), c)
  | some (v, c) => (body (s.set decl v), c)

/-- The turn of a `while` loop: the condition, which is inside the loop, and the body. -/
def whileTurn (cond body : State V W → Result V W V) (c : Unit) (s : State V W) : Result V W V × Unit :=
  (andThen (cond s) fun v s => if m.truthy v then body s else (.brk, s), c)

mutual

def evalExpr : Expr → State V W → Result V W V
  | .none, s => (.value m.noValue, s)
  | .integer n, s => (.value (m.integer n), s)
  | .boolean b, s => (.value (m.boolean b), s)
  | .leaf text, s => s.act (m.leaf text)
  | .var ident, s => (.value (s.vars ident), s)
  | .unevaluated op _, s => s.act (m.unevaluated op)
  | .compound op parts, s => andThen (evalExprs parts s) fun vs s => s.act (m.compound op vs)
  | .call func vargs, s => andThen (evalExprs vargs s) fun vs s => s.act (m.call func vs)
  | .arrayAccess e i, s =>
    andThen (evalExpr e s) fun u s => andThen (evalExpr i s) fun v s => s.act (m.element u v)
  | .logical isAnd l r, s =>
    andThen (evalExpr l s) fun u s =>
      if m.truthy u = isAnd then
        andThen (evalExpr r s) fun v s => (.value (m.integer (if m.truthy v then 1 else 0)), s)
      else (.value (m.integer (if m.truthy u then 1 else 0)), s)
  | .ifExpr c l r, s => andThen (evalExpr c s) fun v s => if m.truthy v then evalExpr l s else evalExpr r s
  | .block ss e, s => andThen (execStmts ss s) fun _ s => evalExpr e s

def evalExprs : Exprs → State V W → Result V W (List V)
  | .nil, s => (.value [], s)
  | .cons e es, s => andThen (evalExpr e s) fun v s => andThen (evalExprs es s) fun vs s => (.value (v :: vs), s)

def execStmt : Stmt → State V W → Result V W Unit
  | .expr e, s => andThen (evalExpr e s) fun _ s => (.value (), s)
  | .varDecl ident, s => (.value (), s.set ident (m.declare ident (s.vars ident)))
  | .assignVar ident e, s => andThen (evalExpr e s) fun v s => (.value (), s.set ident v)
  | .assignMap map key e, s =>
    andThen (evalExpr e s) fun v s => andThen (evalExprs key s) fun k s =>
      (.value (), { s with world := m.store map k v s.world })
  | .breakJump, s => (.brk, s)
  | .continueJump, s => (.cont, s)
  | .returnJump, s => (.ret ⟨none, false⟩, s)
  | .returnValue e, s => andThen (evalExpr e s) fun v s => (.ret ⟨some v, false⟩, s)
  | .unroll e b, s => andThen (evalExpr e s) fun v s => repeated (evalExpr b) (m.times v) s
  | .whileLoop c b, s => mapRet (leaving false) (iterate (whileTurn m (evalExpr c) (evalExpr b)) fuel () s)
  | .forRange decl a b body, s =>
    -- the range is evaluated outside of the loop, before its first turn
    andThen (mapRet (leaving true)
      (andThen (evalExpr a s) fun u s => andThen (evalExpr b s) fun v s => (.value (u, v), s)))
      fun range s =>
        mapRet (leaving false) (iterate (forTurn m decl (evalExpr body)) fuel (m.rangeStart range.1 range.2) s)
  | .forMap decl map body, s =>
    mapRet (leaving false) (iterate (forTurn m decl (evalExpr body)) fuel (m.mapStart map s.world) s)

def execStmts : Stmts → State V W → Result V W Unit
  | .nil, s => (.value (), s)
  | .cons st ss, s => andThen (execStmt st s) fun _ s => execStmts ss s

end

end Runs

end Scripts
