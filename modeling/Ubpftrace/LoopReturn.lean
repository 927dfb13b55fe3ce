import Mathlib.Algebra.Ring.Int.Defs
import Ubpftrace.Scripts

/-!
# Returns inside loops

`loop_return.cpp` turns a `return` inside a loop into an assignment to a flag and a
`break`, and puts a check of the flag behind each loop. `visit(For)` counts itself as
a loop before it visits its iterable, though a `break` in there does not leave this
loop but the one around it, if there is one.
-/

namespace LoopReturn

open StructuredFlow Scripts

def returnVar : String := "__return_value"
def returnSetVar : String := "__return_value_set"

/-- `loop_return_` and the errors reported. -/
structure PassState where
  loopReturn : Option Bool
  errors : List String

/-- The check behind a loop, or the loop alone if no return in a loop was seen so far. -/
def checked (loopDepth : Nat) (loop : Stmt) : Option Bool → Stmt
  | none => loop
  | some hasValue =>
    let jump : Stmt :=
      if loopDepth > 0 then .breakJump else if hasValue then .returnValue (.var returnVar) else .returnJump
    .expr (.block
      (.cons loop (.cons (.expr (.ifExpr (.var returnSetVar) (.block (.cons jump .nil) .none) .none)) .nil)) .none)

/-- A `return` with the statements that keep its value, if the depth is that of a loop. -/
def visitReturn (loopDepth : Nat) (keep : Stmts → Stmts) (hasValue : Bool) (jump : Stmt) (st : PassState) :
    Stmt × PassState :=
  if loopDepth > 0 then
    if st.loopReturn.isSome ∧ st.loopReturn ≠ some hasValue then
      (jump, { st with errors := st.errors ++ ["Return value used in loop is inconsistent"] })
    else
      (.expr (.block (keep (.cons (.assignVar returnSetVar (.integer 1)) (.cons .breakJump .nil))) .none),
        { st with loopReturn := some hasValue })
  else (jump, st)

mutual

def visitExpr (loopDepth : Nat) : Expr → PassState → Expr × PassState
  | .none, st => (.none, st)
  | .integer n, st => (.integer n, st)
  | .boolean b, st => (.boolean b, st)
  | .leaf text, st => (.leaf text, st)
  | .var ident, st => (.var ident, st)
  | .unevaluated op e, st =>
    let (e, st) := visitExpr loopDepth e st
    (.unevaluated op e, st)
  | .compound op parts, st =>
    let (parts, st) := visitExprs loopDepth parts st
    (.compound op parts, st)
  | .call func vargs, st =>
    let (vargs, st) := visitExprs loopDepth vargs st
    (.call func vargs, st)
  | .arrayAccess e i, st =>
    let (i, st) := visitExpr loopDepth i st
    let (e, st) := visitExpr loopDepth e st
    (.arrayAccess e i, st)
  | .logical isAnd l r, st =>
    let (l, st) := visitExpr loopDepth l st
    let (r, st) := visitExpr loopDepth r st
    (.logical isAnd l r, st)
  | .ifExpr c l r, st =>
    let (c, st) := visitExpr loopDepth c st
    let (l, st) := visitExpr loopDepth l st
    let (r, st) := visitExpr loopDepth r st
    (.ifExpr c l r, st)
  | .block ss e, st =>
    let (ss, st) := visitStmts loopDepth ss st
    let (e, st) := visitExpr loopDepth e st
    (.block ss e, st)

def visitExprs (loopDepth : Nat) : Exprs → PassState → Exprs × PassState
  | .nil, st => (.nil, st)
  | .cons e es, st =>
    let (e, st) := visitExpr loopDepth e st
    let (es, st) := visitExprs loopDepth es st
    (.cons e es, st)

def visitStmt (loopDepth : Nat) : Stmt → PassState → Stmt × PassState
  | .expr e, st =>
    let (e, st) := visitExpr loopDepth e st
    (.expr e, st)
  | .varDecl ident, st => (.varDecl ident, st)
  | .assignVar ident e, st =>
    let (e, st) := visitExpr loopDepth e st
    (.assignVar ident e, st)
  | .assignMap map key e, st =>
    let (key, st) := visitExprs loopDepth key st
    let (e, st) := visitExpr loopDepth e st
    (.assignMap map key e, st)
  | .breakJump, st => (.breakJump, st)
  | .continueJump, st => (.continueJump, st)
  | .returnJump, st => visitReturn loopDepth id false .returnJump st
  | .returnValue e, st =>
    let (e, st) := visitExpr loopDepth e st
    visitReturn loopDepth (.cons (.assignVar returnVar e)) true (.returnValue e) st
  | .unroll e b, st =>
    let (e, st) := visitExpr loopDepth e st
    let (b, st) := visitExpr loopDepth b st
    (.unroll e b, st)
  | .whileLoop c b, st =>
    let (c, st) := visitExpr (loopDepth + 1) c st
    let (b, st) := visitExpr (loopDepth + 1) b st
    (checked loopDepth (.whileLoop c b) st.loopReturn, st)
  | .forRange decl start stop b, st =>
    let (start, st) := visitExpr (loopDepth + 1) start st
    let (stop, st) := visitExpr (loopDepth + 1) stop st
    let (b, st) := visitExpr (loopDepth + 1) b st
    (checked loopDepth (.forRange decl start stop b) st.loopReturn, st)
  | .forMap decl map b, st =>
    let (b, st) := visitExpr (loopDepth + 1) b st
    (checked loopDepth (.forMap decl map b) st.loopReturn, st)

def visitStmts (loopDepth : Nat) : Stmts → PassState → Stmts × PassState
  | .nil, st => (.nil, st)
  | .cons s ss, st =>
    let (s, st) := visitStmt loopDepth s st
    let (ss, st) := visitStmts loopDepth ss st
    (.cons s ss, st)

end

/-- The declarations at the top of a body with a return in a loop. -/
def declareReturn (loopReturn : Option Bool) (stmts : Stmts) : Stmts :=
  match loopReturn with
  | none => stmts
  | some hasValue =>
    .cons (.assignVar returnSetVar (.integer 0)) (if hasValue then .cons (.varDecl returnVar) stmts else stmts)

/-- The block of a probe or a function after the pass, and the errors. -/
def inject (stmts : Stmts) (expr : Expr) : (Stmts × Expr) × List String :=
  let (stmts, st) := visitStmts 0 stmts ⟨none, []⟩
  let (expr, st) := visitExpr 0 expr st
  ((declareReturn st.loopReturn stmts, expr), st.errors)

/-! ## The state of the pass -/

/-- What was seen stays seen, and errors stay. -/
structure Grows (st st' : PassState) : Prop where
  seen : ∀ b, st.loopReturn = some b → st'.loopReturn = some b
  errors : st'.errors = [] → st.errors = []

theorem Grows.refl (st : PassState) : Grows st st := ⟨fun _ h => h, fun h => h⟩

theorem Grows.trans {st st' st'' : PassState} (h : Grows st st') (h' : Grows st' st'') : Grows st st'' :=
  ⟨fun b hb => h'.seen b (h.seen b hb), fun he => h.errors (h'.errors he)⟩

theorem visitReturn_grows (d : Nat) (keep : Stmts → Stmts) (hasValue : Bool) (jump : Stmt) (st : PassState) :
    Grows st (visitReturn d keep hasValue jump st).2 := by
  unfold visitReturn
  split
  · split
    · exact ⟨fun b hb => hb, fun he => by simp at he⟩
    · next hok =>
      refine ⟨fun b hb => ?_, fun he => he⟩
      rw [hb] at hok
      simpa [eq_comm] using hok
  · exact .refl st

/-! ## Simulation -/

def UserName (ident : String) : Prop := ident.toList.head? = some '$'

theorem UserName.ne {ident : String} (h : UserName ident) : ident ≠ returnVar ∧ ident ≠ returnSetVar := by
  constructor
  · rintro rfl
    exact absurd h (by unfold UserName; decide)
  · rintro rfl
    exact absurd h (by unfold UserName; decide)

mutual

def UserExpr : Expr → Prop
  | .none | .integer _ | .boolean _ | .leaf _ => True
  | .var ident => UserName ident
  | .unevaluated _ e => UserExpr e
  | .compound _ es | .call _ es => UserExprs es
  | .arrayAccess l r | .logical _ l r => UserExpr l ∧ UserExpr r
  | .ifExpr c l r => UserExpr c ∧ UserExpr l ∧ UserExpr r
  | .block ss e => UserStmts ss ∧ UserExpr e

def UserExprs : Exprs → Prop
  | .nil => True
  | .cons e es => UserExpr e ∧ UserExprs es

def UserStmt : Stmt → Prop
  | .expr e | .returnValue e => UserExpr e
  | .varDecl ident => UserName ident
  | .assignVar ident e => UserName ident ∧ UserExpr e
  | .assignMap _ key e => UserExprs key ∧ UserExpr e
  | .breakJump | .continueJump | .returnJump => True
  | .unroll l r | .whileLoop l r => UserExpr l ∧ UserExpr r
  | .forRange decl a b body => UserName decl ∧ UserExpr a ∧ UserExpr b ∧ UserExpr body
  | .forMap decl _ body => UserName decl ∧ UserExpr body

def UserStmts : Stmts → Prop
  | .nil => True
  | .cons s ss => UserStmt s ∧ UserStmts ss

end

section Simulation

variable {V W C : Type} (m : Machine V W C) (fuel : Nat)

/-- The states differ in the two variables of the pass at most. The flag is not set, if
there is one (`flag`). -/
structure Agree (flag : Bool) (s s' : State V W) : Prop where
  world : s'.world = s.world
  vars : ∀ x, UserName x → s'.vars x = s.vars x
  unset : flag = true → s'.vars returnSetVar = m.integer 0

/-- What a return becomes. In a loop it is a break, with the flag and the value set.
Outside of all loops it is a return, unless it left an iterable. -/
def Exit (d : Nat) (seen : Option Bool) (x : Return V) (s : State V W) (o : Option (Return V))
    (s' : State V W) : Prop :=
  s'.world = s.world ∧
    if d = 0 then (x.fromIterable = false ∧ ∃ y, o = some y ∧ y.value = x.value) ∨ (x.fromIterable = true ∧ o = none)
    else o = none ∧ seen = some x.value.isSome ∧ s'.vars returnSetVar = m.integer 1 ∧
      ∀ v, x.value = some v → s'.vars returnVar = v

/-- The pass goes on from here without an error, and the flag is there if it was used. -/
structure Fits (flag : Bool) (st : PassState) : Prop where
  errors : st.errors = []
  flag : ∀ b, st.loopReturn = some b → flag = true

variable {st : PassState}

theorem Fits.before {flag : Bool} {st' : PassState} (h : Fits flag st') (hg : Grows st st') : Fits flag st :=
  ⟨hg.errors h.errors, fun b hb => h.flag b (hg.seen b hb)⟩

abbrev Simulates (flag : Bool) (d : Nat) (seen : Option Bool) {α : Type} (r r' : Result V W α) : Prop :=
  Sim (Agree m flag) (Exit m d seen) r r'

variable {m fuel} {flag : Bool} {d : Nat} {seen seen' : Option Bool} {s s' : State V W} {keep : Stmts → Stmts}
    {o : Option (Return V)}

theorem Exit.mono {x : Return V} (hs : ∀ b, seen = some b → seen' = some b) (h : Exit m d seen x s o s') :
    Exit m d seen' x s o s' := by
  refine ⟨h.1, ?_⟩
  have h2 := h.2
  split
  · next hd =>
    rw [if_pos hd] at h2
    exact h2
  · next hd =>
    rw [if_neg hd] at h2
    exact ⟨h2.1, hs _ h2.2.1, h2.2.2⟩

theorem Agree.set (h : Agree m flag s s') {ident : String} (hid : UserName ident) (v : V) :
    Agree m flag (s.set ident v) (s'.set ident v) where
  world := h.world
  vars := by
    intro x hx
    by_cases heq : x = ident
    · simp [State.set, heq]
    · simp [State.set, heq, h.vars x hx]
  unset := by
    intro hf
    have hne : returnSetVar ≠ ident := fun heq => hid.ne.2 heq.symm
    simp [State.set, hne, h.unset hf]

section Holds

variable {α β : Type} {run run' : State V W → Result V W α} {st' : PassState}

variable (m) in
/-- The second run simulates the first one, if the pass ends in the state `st` without an error. -/
def Holds (flag : Bool) (d : Nat) (st : PassState) {α : Type} (run run' : State V W → Result V W α) : Prop :=
  Fits flag st → ∀ s s', Agree m flag s s' → Simulates m flag d st.loopReturn (run s) (run' s')

theorem Holds.mono (h : Holds m flag d st run run') (hg : Grows st st') : Holds m flag d st' run run' :=
  fun hf s s' hs => Sim.mono (h (hf.before hg) s s' hs) fun _ _ _ _ => Exit.mono hg.seen

theorem Holds.andThen (h : Holds m flag d st run run') {k k' : α → State V W → Result V W β}
    (hk : ∀ a, Holds m flag d st (k a) (k' a)) :
    Holds m flag d st (fun s => andThen (run s) k) fun s => StructuredFlow.andThen (run' s) k' :=
  fun hf s s' hs => Sim.andThen (h hf s s' hs) fun a s s' hs => hk a hf s s' hs

theorem Holds.value (a : α) : Holds m flag d st (fun s => (.value a, s)) fun s => (.value a, s) :=
  fun _ _ _ hs => .value hs

theorem Holds.act (f : W → α × W) : Holds m flag d st (fun s => s.act f) fun s => s.act f := by
  intro _ s s' hs
  simp only [State.act, hs.world]
  exact .value ⟨rfl, hs.vars, hs.unset⟩

variable (m) in
/-- A visit that takes the pass from one state to another, with the runs before and after it. -/
structure Visits (flag : Bool) (d : Nat) (st st' : PassState) {α : Type} (run run' : State V W → Result V W α) :
    Prop where
  grows : Grows st st'
  holds : Holds m flag d st' run run'

theorem Holds.here (h : Holds m flag d st run run') : Visits m flag d st st run run' := ⟨.refl st, h⟩

end Holds

variable (m) in
/-- What the check behind a loop does. -/
def check (d : Nat) (seen : Option Bool) (s : State V W) : Result V W Unit :=
  match seen with
  | none => (.value (), s)
  | some hasValue =>
    if m.truthy (s.vars returnSetVar) then
      if d > 0 then (.brk, s) else (.ret ⟨if hasValue then some (s.vars returnVar) else none, false⟩, s)
    else (.value (), s)

theorem execStmt_checked (d : Nat) (loop : Stmt) (seen : Option Bool) (s : State V W) :
    execStmt m fuel (checked d loop seen) s = andThen (execStmt m fuel loop s) fun _ s => check m d seen s := by
  cases seen with
  | none =>
    rcases h : execStmt m fuel loop s with ⟨f, s₁⟩
    cases f <;> simp [checked, h, andThen, check]
  | some hasValue =>
    rcases h : execStmt m fuel loop s with ⟨f, s₁⟩
    cases f with
    | value =>
      by_cases hset : m.truthy (s₁.vars returnSetVar) = true
      · by_cases hd : d > 0
        · simp [checked, execStmt, evalExpr, execStmts, h, andThen, check, hset, hd]
        · cases hasValue <;> simp [checked, execStmt, evalExpr, execStmts, h, andThen, check, hset, hd]
      · simp [checked, execStmt, evalExpr, execStmts, h, andThen, check, hset]
    | brk => simp [checked, execStmt, evalExpr, execStmts, h, andThen]
    | cont => simp [checked, execStmt, evalExpr, execStmts, h, andThen]
    | ret x => simp [checked, execStmt, evalExpr, execStmts, h, andThen]
    | outOfFuel => simp [checked, execStmt, evalExpr, execStmts, h, andThen]

/-- Behind a loop that was left by a return the check goes on with it. -/
theorem check_sim (hflag : ∀ b, seen = some b → flag = true) {r r' : Result V W Unit}
    (h : Left (Agree m flag) (Exit m (d + 1) seen) r r') :
    Simulates m flag d seen (mapRet (leaving false) r)
      (andThen (mapRet (leaving false) r') fun _ s => check m d seen s) := by
  cases h with
  | @value s s' h =>
    have hcheck : check m d seen s' = (.value (), s') := by
      cases seen with
      | none => rfl
      | some b => simp [check, h.unset (hflag b rfl), m.truthy_zero]
    simpa [mapRet, andThen, hcheck] using Sim.value h
  | outOfFuel h => exact .outOfFuel h
  | @returned x s s' h =>
    obtain ⟨hworld, hexit⟩ := h
    obtain ⟨-, rfl, hset, hval⟩ := hexit
    simp only [mapRet, andThen, check, hset, m.truthy_one, if_true]
    by_cases hd : d = 0
    · have hvalue : (if x.value.isSome then some (s'.vars returnVar) else none) = x.value := by
        cases hx : x.value with
        | none => rfl
        | some v => simp [hval v hx]
      rw [if_neg (by omega), hvalue]
      refine .retRet ⟨hworld, ?_⟩
      rw [if_pos hd]
      exact .inl ⟨rfl, _, rfl, rfl⟩
    · rw [if_pos (by omega)]
      refine .retBrk ⟨hworld, ?_⟩
      rw [if_neg hd]
      exact ⟨rfl, rfl, hset, hval⟩

variable (m) in
/-- What a `return` has become, with its value evaluated. -/
def leave (d : Nat) (x : Option V) (s : State V W) : Result V W Unit :=
  if d > 0 then (.brk, (x.elim s (s.set returnVar)).set returnSetVar (m.integer 1)) else (.ret ⟨x, false⟩, s)

theorem leave_sim (h : Agree m flag s s') (x : Option V) (hseen : d > 0 → seen = some x.isSome) :
    Simulates m flag d seen (.ret ⟨x, false⟩, s) (leave m d x s') := by
  unfold leave
  split
  · next hd =>
    refine .retBrk ⟨?_, ?_⟩
    · cases x <;> exact h.world
    · rw [if_neg (by omega)]
      refine ⟨rfl, hseen hd, by simp [State.set], fun v hv => ?_⟩
      obtain rfl : x = some v := hv
      simp [State.set, returnVar, returnSetVar]
  · next hd =>
    refine .retRet ⟨h.world, ?_⟩
    rw [if_pos (by omega)]
    exact .inl ⟨rfl, _, rfl, rfl⟩

theorem visitReturn_eq {hasValue : Bool} {jump : Stmt} (hfits : Fits flag (visitReturn d keep hasValue jump st).2)
    (hd : d > 0) :
    visitReturn d keep hasValue jump st =
      (.expr (.block (keep (.cons (.assignVar returnSetVar (.integer 1)) (.cons .breakJump .nil))) .none),
        { st with loopReturn := some hasValue }) := by
  unfold visitReturn at hfits ⊢
  rw [if_pos hd] at hfits ⊢
  split
  · next hbad =>
    rw [if_pos hbad] at hfits
    simpa using hfits.errors
  · rfl

theorem visitReturn_of_not {hasValue : Bool} {jump : Stmt} (hd : ¬ d > 0) :
    visitReturn d keep hasValue jump st = (jump, st) := if_neg hd

theorem execStmt_visitReturn_jump (hfits : Fits flag (visitReturn d id false .returnJump st).2) :
    execStmt m fuel (visitReturn d id false .returnJump st).1 s = leave m d none s := by
  by_cases hd : d > 0
  · rw [visitReturn_eq hfits hd]
    simp [execStmt, evalExpr, execStmts, andThen, leave, hd]
  · rw [visitReturn_of_not hd]
    simp [execStmt, leave, hd]

theorem execStmt_visitReturn_value {e : Expr}
    (hfits : Fits flag (visitReturn d (.cons (.assignVar returnVar e)) true (.returnValue e) st).2) :
    execStmt m fuel (visitReturn d (.cons (.assignVar returnVar e)) true (.returnValue e) st).1 s =
      andThen (evalExpr m fuel e s) fun v s => leave m d (some v) s := by
  by_cases hd : d > 0
  · rw [visitReturn_eq hfits hd]
    rcases he : evalExpr m fuel e s with ⟨f, s₁⟩
    cases f <;> simp [execStmt, evalExpr, execStmts, andThen, leave, hd, he]
  · rw [visitReturn_of_not hd]
    rcases he : evalExpr m fuel e s with ⟨f, s₁⟩
    cases f <;> simp [execStmt, andThen, leave, hd, he]

theorem exit_none {x : Return V} (h : Exit m (d + 1) seen x s o s') : o = none := by
  have h2 := h.2
  exact h2.1

theorem forLoop_sim {decl : String} {body body' : State V W → Result V W V} (hdecl : UserName decl)
    (hbody : ∀ s s', Agree m flag s s' → Simulates m flag (d + 1) seen (body s) (body' s')) (c : C)
    (h : Agree m flag s s') :
    Left (Agree m flag) (Exit m (d + 1) seen) (iterate (forTurn m decl body) fuel c s)
      (iterate (forTurn m decl body') fuel c s') := by
  refine Left.iterate (fun x s o s' hx => exit_none hx) (fun c s s' hs => ?_) fuel h
  unfold forTurn
  rw [hs.world]
  cases m.next c s.world with
  | none => exact ⟨.brk hs, rfl⟩
  | some p => exact ⟨hbody _ _ (hs.set hdecl p.1), rfl⟩

theorem whileLoop_sim {cond cond' body body' : State V W → Result V W V}
    (hcond : ∀ s s', Agree m flag s s' → Simulates m flag (d + 1) seen (cond s) (cond' s'))
    (hbody : ∀ s s', Agree m flag s s' → Simulates m flag (d + 1) seen (body s) (body' s')) (h : Agree m flag s s') :
    Left (Agree m flag) (Exit m (d + 1) seen) (iterate (whileTurn m cond body) fuel () s)
      (iterate (whileTurn m cond' body') fuel () s') := by
  refine Left.iterate (fun x s o s' hx => exit_none hx) (fun c s s' hs => ?_) fuel h
  refine ⟨(hcond s s' hs).andThen fun v s s' hs => ?_, rfl⟩
  split
  · exact hbody s s' hs
  · exact .brk hs

theorem forRange_sim {range range' : Result V W (V × V)} {loop loop' : V × V → State V W → Result V W Unit}
    (hflag : ∀ b, seen = some b → flag = true) (hrange : Simulates m flag (d + 1) seen range range')
    (hloop : ∀ p s s', Agree m flag s s' → Left (Agree m flag) (Exit m (d + 1) seen) (loop p s) (loop' p s')) :
    Simulates m flag d seen
      (andThen (mapRet (leaving true) range) fun p s => mapRet (leaving false) (loop p s))
      (andThen (andThen (mapRet (leaving true) range') fun p s => mapRet (leaving false) (loop' p s))
        fun _ s => check m d seen s) := by
  cases hrange with
  | value h => exact check_sim hflag (hloop _ _ _ h)
  | brk h => exact .brk h
  | cont h => exact .cont h
  | outOfFuel h => exact .outOfFuel h
  | retRet h => cases exit_none h
  | @retBrk x s s' h =>
    refine .retBrk ⟨h.1, ?_⟩
    have h2 := h.2
    split
    · exact .inr ⟨rfl, rfl⟩
    · exact h2

mutual

theorem visitExpr_sim (d : Nat) : ∀ (e : Expr) (st : PassState), UserExpr e →
    Visits m flag d st (visitExpr d e st).2 (evalExpr m fuel e) (evalExpr m fuel (visitExpr d e st).1)
  | .none, _, _ | .integer _, _, _ | .boolean _, _, _ => (Holds.value _).here
  | .leaf _, _, _ => (Holds.act _).here
  | .var ident, _, hu => by
    refine Holds.here fun _ s s' hs => ?_
    change Simulates m flag d _ (.value (s.vars ident), s) (.value (s'.vars ident), s')
    rw [hs.vars ident hu]
    exact .value hs
  | .unevaluated _ e, st, hu => ⟨(visitExpr_sim d e st hu).grows, .act _⟩
  | .compound _ es, st, hu | .call _ es, st, hu =>
    have hes := visitExprs_sim d es st hu
    ⟨hes.grows, hes.holds.andThen fun _ => .act _⟩
  | .arrayAccess e i, st, hu =>
    have hi := visitExpr_sim d i st hu.2
    have he := visitExpr_sim d e _ hu.1
    ⟨hi.grows.trans he.grows, he.holds.andThen fun _ => (hi.holds.mono he.grows).andThen fun _ => .act _⟩
  | .logical isAnd l r, st, hu => by
    have hl := visitExpr_sim d l st hu.1
    have hr := visitExpr_sim d r (visitExpr d l st).2 hu.2
    refine ⟨hl.grows.trans hr.grows, (hl.holds.mono hr.grows).andThen fun u => ?_⟩
    split
    · exact hr.holds.andThen fun _ => .value _
    · exact .value _
  | .ifExpr c l r, st, hu => by
    have hc := visitExpr_sim d c st hu.1
    have hl := visitExpr_sim d l (visitExpr d c st).2 hu.2.1
    have hr := visitExpr_sim d r (visitExpr d l (visitExpr d c st).2).2 hu.2.2
    have hg := hl.grows.trans hr.grows
    refine ⟨hc.grows.trans hg, (hc.holds.mono hg).andThen fun v => ?_⟩
    split
    · exact hl.holds.mono hr.grows
    · exact hr.holds
  | .block ss e, st, hu =>
    have hss := visitStmts_sim d ss st hu.1
    have he := visitExpr_sim d e _ hu.2
    ⟨hss.grows.trans he.grows, (hss.holds.mono he.grows).andThen fun _ => he.holds⟩

theorem visitExprs_sim (d : Nat) : ∀ (es : Exprs) (st : PassState), UserExprs es →
    Visits m flag d st (visitExprs d es st).2 (evalExprs m fuel es) (evalExprs m fuel (visitExprs d es st).1)
  | .nil, _, _ => (Holds.value _).here
  | .cons e es, st, hu =>
    have he := visitExpr_sim d e st hu.1
    have hes := visitExprs_sim d es _ hu.2
    ⟨he.grows.trans hes.grows, (he.holds.mono hes.grows).andThen fun _ => hes.holds.andThen fun _ => .value _⟩

theorem visitStmt_sim (d : Nat) : ∀ (st : Stmt) (ps : PassState), UserStmt st →
    Visits m flag d ps (visitStmt d st ps).2 (execStmt m fuel st) (execStmt m fuel (visitStmt d st ps).1)
  | .expr e, ps, hu =>
    have he := visitExpr_sim d e ps hu
    ⟨he.grows, he.holds.andThen fun _ => .value _⟩
  | .varDecl ident, _, hu => by
    refine Holds.here fun _ s s' hs => ?_
    change Simulates m flag d _ (.value (), s.set ident (m.declare ident (s.vars ident)))
      (.value (), s'.set ident (m.declare ident (s'.vars ident)))
    rw [hs.vars ident hu]
    exact .value (hs.set hu _)
  | .assignVar ident e, ps, hu =>
    have he := visitExpr_sim d e ps hu.2
    ⟨he.grows, he.holds.andThen fun _ _ _ _ hs => .value (hs.set hu.1 _)⟩
  | .assignMap map key e, ps, hu =>
    have hkey := visitExprs_sim d key ps hu.1
    have he := visitExpr_sim d e _ hu.2
    ⟨hkey.grows.trans he.grows, he.holds.andThen fun _ => (hkey.holds.mono he.grows).andThen fun _ _ _ _ hs =>
      .value ⟨congrArg (m.store map _ _) hs.world, hs.vars, hs.unset⟩⟩
  | .breakJump, _, _ => Holds.here fun _ _ _ hs => .brk hs
  | .continueJump, _, _ => Holds.here fun _ _ _ hs => .cont hs
  | .returnJump, ps, _ => by
    refine ⟨visitReturn_grows d _ _ _ ps, fun hf s s' hs => ?_⟩
    change Simulates m flag d _ (.ret ⟨none, false⟩, s) (execStmt m fuel (visitReturn d id false .returnJump ps).1 s')
    rw [execStmt_visitReturn_jump hf]
    exact leave_sim hs none fun hd => congrArg (fun p => p.2.loopReturn) (visitReturn_eq hf hd)
  | .returnValue e, ps, hu => by
    have he := visitExpr_sim d e ps hu
    have hg := visitReturn_grows d (.cons (.assignVar returnVar (visitExpr d e ps).1)) true
      (.returnValue (visitExpr d e ps).1) (visitExpr d e ps).2
    refine ⟨he.grows.trans hg, fun hf s s' hs => ?_⟩
    change Simulates m flag d _ (andThen (evalExpr m fuel e s) fun v s => (.ret ⟨some v, false⟩, s))
      (execStmt m fuel (visitReturn d (.cons (.assignVar returnVar (visitExpr d e ps).1)) true
        (.returnValue (visitExpr d e ps).1) (visitExpr d e ps).2).1 s')
    rw [execStmt_visitReturn_value hf]
    refine (he.holds.mono hg hf s s' hs).andThen fun v s s' hs => ?_
    exact leave_sim hs (some v) fun hd => congrArg (fun p => p.2.loopReturn) (visitReturn_eq hf hd)
  | .unroll e b, ps, hu =>
    have he := visitExpr_sim d e ps hu.1
    have hb := visitExpr_sim d b _ hu.2
    ⟨he.grows.trans hb.grows, (he.holds.mono hb.grows).andThen fun _ hf _ _ hs => Sim.repeated (hb.holds hf) _ hs⟩
  | .whileLoop c b, ps, hu => by
    have hc := visitExpr_sim (d + 1) c ps hu.1
    have hb := visitExpr_sim (d + 1) b (visitExpr (d + 1) c ps).2 hu.2
    refine ⟨hc.grows.trans hb.grows, fun hf s s' hs => ?_⟩
    change Simulates m flag d _ _ (execStmt m fuel (checked d _ _) s')
    rw [execStmt_checked]
    exact check_sim hf.flag (whileLoop_sim (hc.holds.mono hb.grows hf) (hb.holds hf) hs)
  | .forRange decl a b body, ps, hu => by
    have ha := visitExpr_sim (d + 1) a ps hu.2.1
    have hb := visitExpr_sim (d + 1) b (visitExpr (d + 1) a ps).2 hu.2.2.1
    have hbody := visitExpr_sim (d + 1) body (visitExpr (d + 1) b (visitExpr (d + 1) a ps).2).2 hu.2.2.2
    have hg := hb.grows.trans hbody.grows
    refine ⟨ha.grows.trans hg, fun hf s s' hs => ?_⟩
    change Simulates m flag d _ _ (execStmt m fuel (checked d _ _) s')
    rw [execStmt_checked]
    have hrange := (ha.holds.mono hg).andThen fun u => (hb.holds.mono hbody.grows).andThen fun v => .value (u, v)
    exact forRange_sim hf.flag (hrange hf s s' hs) fun p s s' hs => forLoop_sim hu.1 (hbody.holds hf) _ hs
  | .forMap decl map body, ps, hu => by
    have hbody := visitExpr_sim (d + 1) body ps hu.2
    refine ⟨hbody.grows, fun hf s s' hs => ?_⟩
    change Simulates m flag d _ _ (execStmt m fuel (checked d _ _) s')
    rw [execStmt_checked]
    change Simulates m flag d _ _ (andThen (mapRet (leaving false) (iterate _ fuel (m.mapStart map s'.world) s')) _)
    rw [hs.world]
    exact check_sim hf.flag (forLoop_sim hu.1 (hbody.holds hf) _ hs)

theorem visitStmts_sim (d : Nat) : ∀ (ss : Stmts) (ps : PassState), UserStmts ss →
    Visits m flag d ps (visitStmts d ss ps).2 (execStmts m fuel ss) (execStmts m fuel (visitStmts d ss ps).1)
  | .nil, _, _ => (Holds.value _).here
  | .cons st ss, ps, hu =>
    have hst := visitStmt_sim d st ps hu.1
    have hss := visitStmts_sim d ss _ hu.2
    ⟨hst.grows.trans hss.grows, (hst.holds.mono hss.grows).andThen fun _ => hss.holds⟩

end

end Simulation

/-! ## Whole bodies -/

/-- The block of a probe or a function as the parser gives it: names of variables begin
with a dollar sign. -/
structure Body where
  stmts : Stmts
  expr : Expr
  userStmts : UserStmts stmts
  userExpr : UserExpr expr

section Bodies

variable {V W C : Type} (m : Machine V W C) (fuel : Nat)

def run (block : Stmts × Expr) (s : State V W) : Result V W V := evalExpr m fuel (.block block.1 block.2) s

/-- What can be seen of a run: how it ends, with which value, and the world it leaves. -/
def outcome (r : Result V W V) : Flow (Option V) V × W :=
  match r with
  | (.value v, s) => (.value v, s.world)
  | (.brk, s) => (.brk, s.world)
  | (.cont, s) => (.cont, s.world)
  | (.ret x, s) => (.ret x.value, s.world)
  | (.outOfFuel, s) => (.outOfFuel, s.world)

variable {m fuel}

theorem run_declareReturn (loopReturn : Option Bool) (ss : Stmts) (e : Expr) (s : State V W) :
    ∃ s', Agree m loopReturn.isSome s s' ∧ run m fuel (declareReturn loopReturn ss, e) s = run m fuel (ss, e) s' := by
  cases loopReturn with
  | none => exact ⟨s, ⟨rfl, fun _ _ => rfl, fun hf => by cases hf⟩, rfl⟩
  | some hasValue =>
    cases hasValue with
    | false =>
      refine ⟨s.set returnSetVar (m.integer 0), ⟨rfl, fun x hx => ?_, fun _ => by simp [State.set]⟩, rfl⟩
      simp [State.set, hx.ne.2]
    | true =>
      refine ⟨(s.set returnSetVar (m.integer 0)).set returnVar _,
        ⟨rfl, fun x hx => ?_, fun _ => by simp [State.set, returnVar, returnSetVar]⟩, rfl⟩
      simp [State.set, hx.ne.1, hx.ne.2]

theorem run_inject (b : Body) (s : State V W) (herr : (inject b.stmts b.expr).2 = []) :
    ∃ seen flag, Simulates m flag 0 seen (run m fuel (b.stmts, b.expr) s) (run m fuel (inject b.stmts b.expr).1 s) := by
  let ss := visitStmts 0 b.stmts ⟨none, []⟩
  let e := visitExpr 0 b.expr ss.2
  have hfits : Fits e.2.loopReturn.isSome e.2 := ⟨herr, fun c hc => by simp [hc]⟩
  obtain ⟨s', hagree, hrun⟩ := run_declareReturn (m := m) e.2.loopReturn ss.1 e.1 s
  refine ⟨e.2.loopReturn, e.2.loopReturn.isSome, ?_⟩
  change Simulates m _ 0 _ _ (run m fuel (declareReturn e.2.loopReturn ss.1, e.1) s)
  rw [hrun]
  exact (visitExpr_sim 0 (.block b.stmts b.expr) ⟨none, []⟩ ⟨b.userStmts, b.userExpr⟩).holds hfits s s' hagree

theorem outcome_eq_iff {seen : Option Bool} {flag : Bool} {r r' : Result V W V} (h : Simulates m flag 0 seen r r') :
    outcome r' = outcome r ↔ ∀ x s, r = (.ret x, s) → x.fromIterable = false := by
  cases h with
  | value h | brk h | cont h | outOfFuel h => simp [outcome, h.world]
  | @retRet x y s s' h =>
    obtain ⟨hworld, hexit⟩ := h
    obtain ⟨hmark, z, ⟨⟩, hvalue⟩ | ⟨-, hno⟩ := hexit
    · simp [outcome, hworld, hvalue, hmark]
    · cases hno
  | @retBrk x s s' h =>
    obtain ⟨hworld, hexit⟩ := h
    obtain ⟨-, z, hno, -⟩ | ⟨hmark, -⟩ := hexit
    · cases hno
    · simp [outcome, hmark]

/-- The rewritten body ends as the original one in exactly the runs that do not return out
of the range of an outermost `for` loop. -/
theorem loop_return_same_iff (m : Machine V W C) (fuel : Nat) (b : Body) (herr : (inject b.stmts b.expr).2 = [])
    (s : State V W) :
    outcome (run m fuel (inject b.stmts b.expr).1 s) = outcome (run m fuel (b.stmts, b.expr) s) ↔
      ∀ x s', run m fuel (b.stmts, b.expr) s = (.ret x, s') → x.fromIterable = false := by
  obtain ⟨seen, flag, hsim⟩ := run_inject b s herr
  exact outcome_eq_iff hsim

end Bodies

/-- Integers and ranges of them; nothing else has an effect. -/
def integers : Machine Int Unit (Int × Int) where
  truthy v := v ≠ 0
  integer := id
  boolean b := if b then 1 else 0
  noValue := 0
  leaf _ w := (0, w)
  unevaluated _ w := (0, w)
  compound _ vs w := (vs.sum, w)
  call _ vs w := (vs.sum, w)
  element u _ w := (u, w)
  declare _ v := v
  store _ _ _ w := w
  times := Int.toNat
  rangeStart a b := (a, b)
  mapStart _ _ := (0, 0)
  next c _ := if c.1 < c.2 then some (c.1, (c.1 + 1, c.2)) else none
  truthy_zero := decide_ne_zero false
  truthy_one := decide_ne_zero true
  truthy_boolean := decide_ne_zero

/-- `while (1) { return 7; }` -/
def returnInLoop : Body where
  stmts := .cons (.whileLoop (.integer 1) (.block (.cons (.returnValue (.integer 7)) .nil) .none)) .nil
  expr := .none
  userStmts := ⟨⟨trivial, ⟨trivial, trivial⟩, trivial⟩, trivial⟩
  userExpr := trivial

theorem loop_return_same_iff_while :
    (inject returnInLoop.stmts returnInLoop.expr).2 = [] ∧
      outcome (run integers 1 (inject returnInLoop.stmts returnInLoop.expr).1 ⟨fun _ => 0, ()⟩) =
        outcome (run integers 1 (returnInLoop.stmts, returnInLoop.expr) ⟨fun _ => 0, ()⟩) := by
  refine ⟨rfl, (loop_return_same_iff integers 1 returnInLoop rfl ⟨fun _ => 0, ()⟩).mpr ?_⟩
  intro x s' h
  cases h
  rfl

/-- `for $i : { return; 5 }..10 { }` -/
def returnInRange : Body where
  stmts := .cons (.forRange "$i" (.block (.cons .returnJump .nil) (.integer 5)) (.integer 10) (.block .nil .none)) .nil
  expr := .none
  userStmts := ⟨⟨by unfold UserName; decide, ⟨⟨trivial, trivial⟩, trivial⟩, trivial, trivial, trivial⟩, trivial⟩
  userExpr := trivial

/-- The return has become a break outside of any loop. -/
theorem range_return_becomes_break :
    (inject returnInRange.stmts returnInRange.expr).2 = [] ∧
      outcome (run integers 1 (returnInRange.stmts, returnInRange.expr) ⟨fun _ => 0, ()⟩) = (.ret none, ()) ∧
      outcome (run integers 1 (inject returnInRange.stmts returnInRange.expr).1 ⟨fun _ => 0, ()⟩) = (.brk, ()) :=
  ⟨rfl, rfl, rfl⟩

end LoopReturn
