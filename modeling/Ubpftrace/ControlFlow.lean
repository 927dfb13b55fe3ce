import Ubpftrace.Scripts

/-!
# The control flow pass

`control_flow_analyser.cpp` looks for the statements of a block that always jump. What
follows such a statement is moved into the dead branch of an `if (true)`, and a block that
does not end with a jump gets one. The analyser takes a `while` loop whose body always
returns for one that returns, though the loop may end before it comes to the body.
-/

namespace ControlFlow

open StructuredFlow Scripts

/-- The jumps `Ts` that an analyser looks for. -/
structure Jumps where
  ret : Bool
  brk : Bool
  cont : Bool
  deriving DecidableEq

namespace Jumps

def ofProbe : Jumps := ⟨true, false, false⟩
def ofFor : Jumps := ⟨false, true, true⟩
def ofWhile : Jumps := ⟨true, true, true⟩

end Jumps

/-! ## The analyser -/

def isNone : Expr → Bool
  | .none => true
  | _ => false

/-- No statement and no value is left. -/
def nothing : Stmts → Expr → Bool
  | .nil, e => isNone e
  | .cons _ _, _ => false

def snoc : Stmts → Stmt → Stmts
  | .nil, s => .cons s .nil
  | .cons s ss, t => .cons s (snoc ss t)

/-- The statements that stand behind a jump, the value of the block among them. -/
def deadCode (ss : Stmts) (e : Expr) : Stmts := if isNone e then ss else snoc ss (.expr e)

/-- `if (true) { s } else { dead }` -/
def ifStmt (s : Stmt) (dead : Stmts) : Stmt :=
  .expr (.ifExpr (.boolean true) (.block (.cons s .nil) .none) (.block dead .none))

mutual

/-- A node after a visit, and whether it terminates in a jump. Parts that `||` and `&&` of
the analyser do not come to stay as they are. -/
def analyseExpr (T : Jumps) : Expr → Expr × Bool
  | .none => (.none, false)
  | .integer n => (.integer n, false)
  | .boolean b => (.boolean b, false)
  | .leaf text => (.leaf text, false)
  | .var ident => (.var ident, false)
  | .unevaluated op e =>
    let e := analyseExpr T e
    (.unevaluated op e.1, e.2)
  | .compound op parts =>
    let parts := analyseParts T parts
    (.compound op parts.1, parts.2)
  | .call func vargs => (.call func (analyseArgs T vargs), false)
  | .arrayAccess e i =>
    let e := analyseExpr T e
    if e.2 then (.arrayAccess e.1 i, true)
    else
      let i := analyseExpr T i
      (.arrayAccess e.1 i.1, i.2)
  | .logical isAnd l r =>
    let l := analyseExpr T l
    if l.2 then (.logical isAnd l.1 r, true)
    else
      let r := analyseExpr T r
      (.logical isAnd l.1 r.1, r.2)
  | .ifExpr c l r =>
    let c := analyseExpr T c
    if c.2 then (.ifExpr c.1 l r, true)
    else
      let l := analyseExpr T l
      if l.2 then
        let r := analyseExpr T r
        (.ifExpr c.1 l.1 r.1, r.2)
      else (.ifExpr c.1 l.1 r, false)
  | .block ss e =>
    let block := analyseBlock T (analyseExpr T e) ss
    (.block block.1.1 block.1.2, block.2)

/-- The operands of an operator. -/
def analyseParts (T : Jumps) : Exprs → Exprs × Bool
  | .nil => (.nil, false)
  | .cons e es =>
    let e := analyseExpr T e
    if e.2 then (.cons e.1 es, true)
    else
      let es := analyseParts T es
      (.cons e.1 es.1, es.2)

/-- A vector of parts, for which the default visitor drops what it finds. -/
def analyseArgs (T : Jumps) : Exprs → Exprs
  | .nil => .nil
  | .cons e es => .cons (analyseExpr T e).1 (analyseArgs T es)

def analyseStmt (T : Jumps) : Stmt → Stmt × Bool
  | .expr e =>
    let e := analyseExpr T e
    (.expr e.1, e.2)
  | .varDecl ident => (.varDecl ident, false)
  | .assignVar ident e =>
    let e := analyseExpr T e
    (.assignVar ident e.1, e.2)
  | .assignMap map key e =>
    let key := analyseParts T key
    if key.2 then (.assignMap map key.1 e, true)
    else
      let e := analyseExpr T e
      (.assignMap map key.1 e.1, e.2)
  | .breakJump => (.breakJump, T.brk)
  | .continueJump => (.continueJump, T.cont)
  | .returnJump => (.returnJump, T.ret)
  | .returnValue e => (.returnValue e, T.ret)
  | .unroll e b =>
    let e := analyseExpr T e
    if e.2 then (.unroll e.1 b, true)
    else
      let b := analyseExpr T b
      (.unroll e.1 b.1, b.2)
  | .whileLoop c b =>
    let c := analyseExpr T c
    if c.2 then (.whileLoop c.1 b, true)
    else if T.ret then
      let b := analyseExpr .ofProbe b
      (.whileLoop c.1 b.1, b.2)
    else (.whileLoop c.1 b, false)
  -- what is found in a range is dropped: the member for it is called `viist`
  | .forRange decl start stop b => (.forRange decl (analyseExpr T start).1 (analyseExpr T stop).1 b, false)
  | .forMap decl map b => (.forMap decl map b, false)

/-- The loop over the statements of a block, with a visit of its value behind them. Of the
`if` that it makes of a jump, only the dead branch is still to be visited. -/
def analyseBlock (T : Jumps) (value : Expr × Bool) : Stmts → (Stmts × Expr) × Bool
  | .nil => ((.nil, value.1), value.2)
  | .cons s ss =>
    let s := analyseStmt T s
    let rest := analyseBlock T value ss
    if s.2 then
      if nothing ss value.1 then ((.cons s.1 .nil, .none), true)
      else ((.cons (ifStmt s.1 (deadCode rest.1.1 rest.1.2)) .nil, .none), rest.2)
    else ((.cons s.1 rest.1.1, rest.1.2), rest.2)

end

/-! ## The passes -/

/-- The jump `T` that is injected. -/
inductive Closing where
  | ret
  | cont

def Closing.stmt : Closing → Stmt
  | .ret => .returnJump
  | .cont => .continueJump

/-- `{ e; jump }` -/
def followedBy (e : Expr) (jump : Closing) : Expr := .block (.cons (.expr e) (.cons jump.stmt .nil)) .none

def count : Exprs → Nat
  | .nil => 0
  | .cons _ es => count es + 1

mutual

/-- `ExitReturn`: a call of `exit` with one argument at most is followed by a return. -/
def exitReturn : Expr → Expr
  | .none => .none
  | .integer n => .integer n
  | .boolean b => .boolean b
  | .leaf text => .leaf text
  | .var ident => .var ident
  | .unevaluated op e => .unevaluated op (exitReturn e)
  | .compound op parts => .compound op (exitReturnExprs parts)
  | .call func vargs =>
    let call := .call func (exitReturnExprs vargs)
    if func = "exit" ∧ count vargs ≤ 1 then followedBy call .ret else call
  | .arrayAccess e i => .arrayAccess (exitReturn e) (exitReturn i)
  | .logical isAnd l r => .logical isAnd (exitReturn l) (exitReturn r)
  | .ifExpr c l r => .ifExpr (exitReturn c) (exitReturn l) (exitReturn r)
  | .block ss e => .block (exitReturnStmts ss) (exitReturn e)

def exitReturnExprs : Exprs → Exprs
  | .nil => .nil
  | .cons e es => .cons (exitReturn e) (exitReturnExprs es)

def exitReturnStmt : Stmt → Stmt
  | .expr e => .expr (exitReturn e)
  | .varDecl ident => .varDecl ident
  | .assignVar ident e => .assignVar ident (exitReturn e)
  | .assignMap map key e => .assignMap map (exitReturnExprs key) (exitReturn e)
  | .breakJump => .breakJump
  | .continueJump => .continueJump
  | .returnJump => .returnJump
  | .returnValue e => .returnValue (exitReturn e)
  | .unroll e b => .unroll (exitReturn e) (exitReturn b)
  | .whileLoop c b => .whileLoop (exitReturn c) (exitReturn b)
  | .forRange decl start stop b => .forRange decl (exitReturn start) (exitReturn stop) (exitReturn b)
  | .forMap decl map b => .forMap decl map (exitReturn b)

def exitReturnStmts : Stmts → Stmts
  | .nil => .nil
  | .cons s ss => .cons (exitReturnStmt s) (exitReturnStmts ss)

end

/-- The last statement of a block, if it is an expression, or else a jump behind it. -/
def injectLast (inject : Expr → Expr) (jump : Closing) : Stmts → Stmts
  | .nil => .cons jump.stmt .nil
  | .cons (.expr e) .nil => .cons (.expr (inject e)) .nil
  | .cons s .nil => .cons s (.cons jump.stmt .nil)
  | .cons s (.cons t ss) => .cons s (injectLast inject jump (.cons t ss))

theorem injectLast_single (inject : Expr → Expr) (jump : Closing) (s : Stmt) :
    (∃ e, s = .expr e) ∨ injectLast inject jump (.cons s .nil) = .cons s (.cons jump.stmt .nil) := by
  cases s with
  | expr e => exact .inl ⟨e, rfl⟩
  | _ => exact .inr rfl

/-- `inject_jump<T, Ts...>`, with a bound for how deep it goes. -/
def injectJump (T : Jumps) (jump : Closing) : Nat → Expr → Expr
  | 0, e => e
  | n + 1, .block ss e =>
    if isNone e then .block (injectLast (injectJump T jump n) jump ss) .none else .block ss (injectJump T jump n e)
  | n + 1, .ifExpr c l r =>
    let branch (e : Expr) : Expr :=
      let e := analyseExpr T e
      if e.2 then e.1 else injectJump T jump n e.1
    .ifExpr c (branch l) (branch r)
  | _ + 1, e => followedBy e jump

/-- The block of a probe, a function or a loop: it ends with a jump, or gets one. -/
def closeBlock (depth : Nat) (T : Jumps) (jump : Closing) (e : Expr) : Expr :=
  let e := analyseExpr T e
  if e.2 then e.1 else injectJump T jump depth e.1

section Visit

variable (forBlock whileBlock : Expr → Expr)

mutual

/-- `ControlFlowInjector` with what it does to the blocks of loops. Conditions and iterables
are not visited. -/
def visitExpr : Expr → Expr
  | .none => .none
  | .integer n => .integer n
  | .boolean b => .boolean b
  | .leaf text => .leaf text
  | .var ident => .var ident
  | .unevaluated op e => .unevaluated op (visitExpr e)
  | .compound op parts => .compound op (visitExprs parts)
  | .call func vargs => .call func (visitExprs vargs)
  | .arrayAccess e i => .arrayAccess (visitExpr e) (visitExpr i)
  | .logical isAnd l r => .logical isAnd (visitExpr l) (visitExpr r)
  | .ifExpr c l r => .ifExpr (visitExpr c) (visitExpr l) (visitExpr r)
  | .block ss e => .block (visitStmts ss) (visitExpr e)

def visitExprs : Exprs → Exprs
  | .nil => .nil
  | .cons e es => .cons (visitExpr e) (visitExprs es)

def visitStmt : Stmt → Stmt
  | .expr e => .expr (visitExpr e)
  | .varDecl ident => .varDecl ident
  | .assignVar ident e => .assignVar ident (visitExpr e)
  | .assignMap map key e => .assignMap map (visitExprs key) (visitExpr e)
  | .breakJump => .breakJump
  | .continueJump => .continueJump
  | .returnJump => .returnJump
  | .returnValue e => .returnValue (visitExpr e)
  | .unroll e b => .unroll (visitExpr e) (visitExpr b)
  | .whileLoop c b => .whileLoop c (whileBlock b)
  | .forRange decl start stop b => .forRange decl start stop (forBlock b)
  | .forMap decl map b => .forMap decl map (forBlock b)

def visitStmts : Stmts → Stmts
  | .nil => .nil
  | .cons s ss => .cons (visitStmt s) (visitStmts ss)

end

end Visit

/-- `ControlFlowInjector`, with a bound for how deep loops stand in each other. -/
def injectLoops (depth : Nat) : Nat → Expr → Expr
  | 0, e => visitExpr id id e
  | n + 1, e =>
    visitExpr (fun b => injectLoops depth n (closeBlock depth .ofFor .cont b))
      (fun b => injectLoops depth n (closeBlock depth .ofWhile .cont b)) e

/-- `CreateControlFlowPass` on the block of a probe or a function. What is proved of it holds for
all bounds, those that no script comes to among them. -/
def controlFlow (depth loops : Nat) (block : Expr) : Expr :=
  injectLoops depth loops (closeBlock depth .ofProbe .ret (exitReturn block))

/-! ## What the analyser says -/

mutual

/-- Whether a node terminates in a jump. Of a block this is decided by its last part: what
stands behind another jump is dead code, and that has to jump as well. -/
def jumpsExpr (T : Jumps) : Expr → Bool
  | .none | .integer _ | .boolean _ | .leaf _ | .var _ | .call _ _ => false
  | .unevaluated _ e => jumpsExpr T e
  | .compound _ parts => jumpsParts T parts
  | .arrayAccess l r | .logical _ l r => jumpsExpr T l || jumpsExpr T r
  | .ifExpr c l r => jumpsExpr T c || (jumpsExpr T l && jumpsExpr T r)
  | .block ss e => jumpsBlock T e (jumpsExpr T e) ss

def jumpsParts (T : Jumps) : Exprs → Bool
  | .nil => false
  | .cons e es => jumpsExpr T e || jumpsParts T es

def jumpsStmt (T : Jumps) : Stmt → Bool
  | .expr e | .assignVar _ e => jumpsExpr T e
  | .varDecl _ | .forRange _ _ _ _ | .forMap _ _ _ => false
  | .assignMap _ key e => jumpsParts T key || jumpsExpr T e
  | .breakJump => T.brk
  | .continueJump => T.cont
  | .returnJump | .returnValue _ => T.ret
  | .unroll e b => jumpsExpr T e || jumpsExpr T b
  | .whileLoop c b => jumpsExpr T c || (T.ret && jumpsExpr .ofProbe b)

def jumpsBlock (T : Jumps) (e : Expr) (value : Bool) : Stmts → Bool
  | .nil => value
  | .cons s ss => if nothing ss e then jumpsStmt T s else jumpsBlock T e value ss

end

variable {e : Expr}

theorem isNone_iff : isNone e = true ↔ e = .none := by
  cases e <;> simp [isNone]

theorem nothing_iff {ss : Stmts} : nothing ss e = true ↔ ss = .nil ∧ e = .none := by
  cases ss <;> simp [nothing, isNone_iff]

theorem nothing_nil_none : nothing .nil .none = true := rfl

theorem nothing_congr (ss : Stmts) {e' : Expr} (h : isNone e = isNone e') : nothing ss e = nothing ss e' := by
  cases ss <;> simp [nothing, h]

theorem isNone_analyse (T : Jumps) (e : Expr) : isNone (analyseExpr T e).1 = isNone e := by
  cases e <;> simp only [analyseExpr] <;> (repeat' split) <;> rfl

theorem jumpsBlock_congr (T : Jumps) {e' : Expr} (h : isNone e = isNone e') (value : Bool) :
    ∀ ss, jumpsBlock T e value ss = jumpsBlock T e' value ss
  | .nil => rfl
  | .cons s ss => by rw [jumpsBlock, jumpsBlock, nothing_congr ss h, jumpsBlock_congr T h value ss]

mutual

theorem analyseExpr_snd (T : Jumps) : ∀ e, (analyseExpr T e).2 = jumpsExpr T e
  | .none | .integer _ | .boolean _ | .leaf _ | .var _ | .call _ _ => rfl
  | .unevaluated _ e => analyseExpr_snd T e
  | .compound _ parts => analyseParts_snd T parts
  | .arrayAccess l r | .logical _ l r => by
    simp only [analyseExpr, jumpsExpr, ← analyseExpr_snd T l, ← analyseExpr_snd T r]
    cases (analyseExpr T l).2 <;> rfl
  | .ifExpr c l r => by
    simp only [analyseExpr, jumpsExpr, ← analyseExpr_snd T c, ← analyseExpr_snd T l, ← analyseExpr_snd T r]
    cases (analyseExpr T c).2 <;> cases (analyseExpr T l).2 <;> rfl
  | .block ss e => by
    rw [jumpsExpr, ← jumpsBlock_congr T (isNone_analyse T e), ← analyseExpr_snd T e]
    refine analyseBlock_snd T (analyseExpr T e) ?_ ss
    intro hnone
    rw [isNone_analyse, isNone_iff] at hnone
    rw [hnone]
    rfl

theorem analyseParts_snd (T : Jumps) : ∀ es, (analyseParts T es).2 = jumpsParts T es
  | .nil => rfl
  | .cons e es => by
    simp only [analyseParts, jumpsParts, ← analyseExpr_snd T e, ← analyseParts_snd T es]
    cases (analyseExpr T e).2 <;> rfl

theorem analyseStmt_snd (T : Jumps) : ∀ s, (analyseStmt T s).2 = jumpsStmt T s
  | .expr e | .assignVar _ e => analyseExpr_snd T e
  | .varDecl _ | .forRange _ _ _ _ | .forMap _ _ _ | .breakJump | .continueJump | .returnJump | .returnValue _ => rfl
  | .assignMap _ key e => by
    simp only [analyseStmt, jumpsStmt, ← analyseParts_snd T key, ← analyseExpr_snd T e]
    cases (analyseParts T key).2 <;> rfl
  | .unroll e b => by
    simp only [analyseStmt, jumpsStmt, ← analyseExpr_snd T e, ← analyseExpr_snd T b]
    cases (analyseExpr T e).2 <;> rfl
  | .whileLoop c b => by
    simp only [analyseStmt, jumpsStmt, ← analyseExpr_snd T c, ← analyseExpr_snd .ofProbe b]
    cases (analyseExpr T c).2 <;> cases T.ret <;> rfl

theorem analyseBlock_snd (T : Jumps) (value : Expr × Bool) (hvalue : isNone value.1 = true → value.2 = false) :
    ∀ ss, (analyseBlock T value ss).2 = jumpsBlock T value.1 value.2 ss
  | .nil => rfl
  | .cons s ss => by
    have hs := analyseStmt_snd T s
    have hss := analyseBlock_snd T value hvalue ss
    simp only [analyseBlock, jumpsBlock, ← hs, ← hss]
    cases (analyseStmt T s).2 with
    | true => cases nothing ss value.1 <;> rfl
    | false =>
      cases hno : nothing ss value.1 with
      | false => rfl
      | true =>
        obtain ⟨rfl, hnone⟩ := nothing_iff.mp hno
        exact hvalue (isNone_iff.mpr hnone)

end

theorem nothing_analyseBlock (T : Jumps) (value : Expr × Bool) (ss : Stmts) :
    nothing (analyseBlock T value ss).1.1 (analyseBlock T value ss).1.2 = nothing ss value.1 := by
  cases ss with
  | nil => rfl
  | cons s ss =>
    simp only [analyseBlock]
    split
    · split <;> rfl
    · rfl

/-! ## Dead code -/

theorem deadCode_value (h : isNone e = false) (ss : Stmts) : deadCode ss e = snoc ss (.expr e) := by
  simp [deadCode, h]

theorem deadCode_cons (s : Stmt) (ss : Stmts) (e : Expr) : deadCode (.cons s ss) e = .cons s (deadCode ss e) := by
  unfold deadCode
  split <;> rfl

theorem nothing_deadCode (ss : Stmts) (e : Expr) : nothing (deadCode ss e) .none = nothing ss e := by
  cases ss with
  | nil => cases e <;> rfl
  | cons s ss => rw [deadCode_cons]; rfl

end ControlFlow
