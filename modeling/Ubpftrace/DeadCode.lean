import Mathlib.Algebra.Ring.Int.Defs
import Ubpftrace.ControlFlow

/-!
# Dead code is not executed

A node that the analyser of the control flow pass says jumps does not end with a value,
unless it is a `while` loop with a body that always returns, or one of a few operands that
are not evaluated. Without those, what the pass moves from behind a node is not executed,
and the script does what it did.
-/

namespace ControlFlow

open StructuredFlow Scripts

/-! ## Which analyser says it -/

section Mono

-- most of these theorems use the assumptions through the others only
set_option linter.unusedSectionVars false

variable {T T' : Jumps} (hret : T.ret = true → T'.ret = true) (hbrk : T.brk = true → T'.brk = true)
  (hcont : T.cont = true → T'.cont = true)
include hret hbrk hcont

mutual

/-- What jumps for an analyser jumps for one that looks for more. -/
theorem jumpsExpr_mono : ∀ e, jumpsExpr T e = true → jumpsExpr T' e = true
  | .none, h | .integer _, h | .boolean _, h | .leaf _, h | .var _, h | .call _ _, h => by simp [jumpsExpr] at h
  | .unevaluated _ e, h => jumpsExpr_mono e h
  | .compound _ parts, h => jumpsParts_mono parts h
  | .arrayAccess l r, h | .logical _ l r, h => by
    simp only [jumpsExpr, Bool.or_eq_true] at h ⊢
    exact h.imp (jumpsExpr_mono l) (jumpsExpr_mono r)
  | .ifExpr c l r, h => by
    simp only [jumpsExpr, Bool.or_eq_true, Bool.and_eq_true] at h ⊢
    exact h.imp (jumpsExpr_mono c) (And.imp (jumpsExpr_mono l) (jumpsExpr_mono r))
  | .block ss e, h => jumpsBlock_mono (jumpsExpr_mono e) ss h

theorem jumpsParts_mono : ∀ es, jumpsParts T es = true → jumpsParts T' es = true
  | .nil, h => by simp [jumpsParts] at h
  | .cons e es, h => by
    simp only [jumpsParts, Bool.or_eq_true] at h ⊢
    exact h.imp (jumpsExpr_mono e) (jumpsParts_mono es)

theorem jumpsStmt_mono : ∀ s, jumpsStmt T s = true → jumpsStmt T' s = true
  | .expr e, h | .assignVar _ e, h => jumpsExpr_mono e h
  | .varDecl _, h | .forRange _ _ _ _, h | .forMap _ _ _, h => by simp [jumpsStmt] at h
  | .breakJump, h => hbrk h
  | .continueJump, h => hcont h
  | .returnJump, h | .returnValue _, h => hret h
  | .assignMap _ key e, h => by
    simp only [jumpsStmt, Bool.or_eq_true] at h ⊢
    exact h.imp (jumpsParts_mono key) (jumpsExpr_mono e)
  | .unroll e b, h => by
    simp only [jumpsStmt, Bool.or_eq_true] at h ⊢
    exact h.imp (jumpsExpr_mono e) (jumpsExpr_mono b)
  | .whileLoop c b, h => by
    simp only [jumpsStmt, Bool.or_eq_true, Bool.and_eq_true] at h ⊢
    exact h.imp (jumpsExpr_mono c) (And.imp_left hret)

theorem jumpsBlock_mono {e : Expr} {value value' : Bool} (hvalue : value = true → value' = true) :
    ∀ ss, jumpsBlock T e value ss = true → jumpsBlock T' e value' ss = true
  | .nil, h => hvalue h
  | .cons s ss, h => by
    rw [jumpsBlock] at h ⊢
    by_cases hno : nothing ss e = true
    · rw [if_pos hno] at h ⊢
      exact jumpsStmt_mono s h
    · rw [if_neg hno] at h ⊢
      exact jumpsBlock_mono hvalue ss h

end

end Mono

/-- The analyser of `while` loops looks for all jumps. -/
theorem jumpsStmt_ofWhile {T : Jumps} {s : Stmt} (h : jumpsStmt T s = true) : jumpsStmt .ofWhile s = true :=
  jumpsStmt_mono (fun _ => rfl) (fun _ => rfl) (fun _ => rfl) s h

theorem jumpsBlock_deadCode (T : Jumps) (e : Expr) (ss : Stmts) :
    jumpsBlock T .none false (deadCode ss e) = jumpsBlock T e (jumpsExpr T e) ss := by
  cases ss with
  | nil =>
    cases he : isNone e with
    | true =>
      rw [isNone_iff.mp he]
      rfl
    | false =>
      rw [deadCode_value he]
      rfl
  | cons s ss =>
    simp only [deadCode_cons, jumpsBlock, nothing_deadCode, jumpsBlock_deadCode T e ss]

theorem jumpsStmt_ifStmt (T : Jumps) (s : Stmt) (ss : Stmts) (e : Expr) :
    jumpsStmt T (ifStmt s (deadCode ss e)) = (jumpsStmt T s && jumpsBlock T e (jumpsExpr T e) ss) := by
  rw [← jumpsBlock_deadCode]
  rfl

/-! ## Scripts that the analyser is right about -/

section Sound

variable {V W C : Type} (m : Machine V W C) (fuel : Nat)

mutual

/-- Nothing jumps for certain inside of an operand that may not be evaluated or in the
condition of a `while` loop, and loops with a body that returns for certain do not end. -/
def SoundExpr : Expr → Prop
  | .none | .integer _ | .boolean _ | .leaf _ | .var _ => True
  | .unevaluated _ e => SoundExpr e ∧ jumpsExpr .ofWhile e = false
  | .compound _ es | .call _ es => SoundExprs es
  | .arrayAccess l r => SoundExpr l ∧ SoundExpr r
  | .logical _ l r => SoundExpr l ∧ SoundExpr r ∧ jumpsExpr .ofWhile r = false
  | .ifExpr c l r => SoundExpr c ∧ SoundExpr l ∧ SoundExpr r
  | .block ss e => SoundStmts ss ∧ SoundExpr e

def SoundExprs : Exprs → Prop
  | .nil => True
  | .cons e es => SoundExpr e ∧ SoundExprs es

def SoundStmt : Stmt → Prop
  | .expr e | .assignVar _ e | .returnValue e => SoundExpr e
  | .varDecl _ | .breakJump | .continueJump | .returnJump => True
  | .assignMap _ key e => SoundExprs key ∧ SoundExpr e
  | .unroll e b => SoundExpr e ∧ SoundExpr b
  | .whileLoop c b =>
    (SoundExpr c ∧ jumpsExpr .ofWhile c = false) ∧ SoundExpr b ∧
      (jumpsExpr .ofProbe b = true → ∀ s, Leaves (execStmt m fuel (.whileLoop c b) s))
  | .forRange _ a b body => SoundExpr a ∧ SoundExpr b ∧ SoundExpr body
  | .forMap _ _ body => SoundExpr body

def SoundStmts : Stmts → Prop
  | .nil => True
  | .cons s ss => SoundStmt s ∧ SoundStmts ss

end

end Sound

/-! ## What can stand for a node -/

/-- A node that can stand for another: analyses are right about it, it runs as the other does, and
it jumps for certain only if that does. -/
structure Kept {α β : Type} (sound : α → Prop) (run : α → β) (jumps : Jumps → α → Bool) (a a' : α) : Prop where
  sound : sound a'
  run : run a' = run a
  jumps : ∀ T, jumps T a' = true → jumps T a = true

namespace Kept

variable {α₁ α₂ α β₁ β₂ β : Type} {sound₁ : α₁ → Prop} {sound₂ : α₂ → Prop} {sound : α → Prop} {run₁ : α₁ → β₁}
  {run₂ : α₂ → β₂} {run : α → β} {jumps₁ : Jumps → α₁ → Bool} {jumps₂ : Jumps → α₂ → Bool} {jumps : Jumps → α → Bool}
  {a b c : α} {a₁ b₁ : α₁} {a₂ b₂ : α₂}

theorem refl (h : sound a) : Kept sound run jumps a a := ⟨h, rfl, fun _ h => h⟩

theorem trans (h : Kept sound run jumps a b) (h' : Kept sound run jumps b c) : Kept sound run jumps a c :=
  ⟨h'.sound, h'.run.trans h.run, fun T hc => h.jumps T (h'.jumps T hc)⟩

theorem not_jumps (h : Kept sound run jumps a b) {T : Jumps} (ha : jumps T a = false) : jumps T b = false := by
  rw [← Bool.not_eq_true] at ha ⊢
  exact fun hb => ha (h.jumps T hb)

/-- Two parts, of which the second stays as it is if the first one jumps. -/
theorem pair (mk : α₁ → α₂ → α) (h₁ : Kept sound₁ run₁ jumps₁ a₁ b₁) (h₂ : Kept sound₂ run₂ jumps₂ a₂ b₂)
    (ha₂ : sound₂ a₂) (hsound : ∀ x y, sound₁ x → sound₂ y → sound (mk x y))
    (hrun : ∀ y, run₂ y = run₂ a₂ → run (mk b₁ y) = run (mk a₁ a₂))
    (hjumps : ∀ T x y, jumps T (mk x y) = (jumps₁ T x || jumps₂ T y)) (stops j j' : Bool) :
    Kept sound run jumps (mk a₁ a₂) (if stops then (mk b₁ a₂, j) else (mk b₁ b₂, j')).1 := by
  have hboth : ∀ y, Kept sound₂ run₂ jumps₂ a₂ y → Kept sound run jumps (mk a₁ a₂) (mk b₁ y) := by
    intro y hy
    refine ⟨hsound b₁ y h₁.sound hy.sound, hrun y hy.run, fun T h => ?_⟩
    rw [hjumps, Bool.or_eq_true] at h ⊢
    exact h.imp (h₁.jumps T) (hy.jumps T)
  cases stops with
  | true => exact hboth a₂ (.refl ha₂)
  | false => exact hboth b₂ h₂

end Kept

/-! ## Runs -/

section Runs

variable {V W C : Type} {m : Machine V W C} {fuel : Nat}

variable (m fuel) in
abbrev KeptExpr : Expr → Expr → Prop := Kept (SoundExpr m fuel) (evalExpr m fuel) jumpsExpr

variable (m fuel) in
abbrev KeptExprs : Exprs → Exprs → Prop := Kept (SoundExprs m fuel) (evalExprs m fuel) jumpsParts

variable (m fuel) in
abbrev KeptStmt : Stmt → Stmt → Prop := Kept (SoundStmt m fuel) (execStmt m fuel) jumpsStmt

section Parts

variable {c l r c' l' r' : Expr}

theorem Kept.ifExpr (hc : KeptExpr m fuel c c') (hl : KeptExpr m fuel l l') (hr : KeptExpr m fuel r r') :
    KeptExpr m fuel (.ifExpr c l r) (.ifExpr c' l' r') := by
  refine ⟨⟨hc.sound, hl.sound, hr.sound⟩, ?_, fun T h => ?_⟩
  · funext s
    simp only [evalExpr, hc.run, hl.run, hr.run]
  · simp only [jumpsExpr, Bool.or_eq_true, Bool.and_eq_true] at h ⊢
    exact h.imp (hc.jumps T) (And.imp (hl.jumps T) (hr.jumps T))

theorem Kept.block {ss : Stmts} (hr : KeptExpr m fuel r r') (hss : SoundStmts m fuel ss)
    (hnone : isNone r' = isNone r) : KeptExpr m fuel (.block ss r) (.block ss r') := by
  refine ⟨⟨hss, hr.sound⟩, ?_, fun T h => ?_⟩
  · funext s
    simp only [evalExpr, hr.run]
  · rw [jumpsExpr, jumpsBlock_congr T hnone] at h
    exact jumpsBlock_mono id id id (hr.jumps T) ss h

/-- The loop runs as before, and its body is said to return only if it was. -/
theorem Kept.whileLoop (hc : KeptExpr m fuel c c') (hl : KeptExpr m fuel l l') (h : SoundStmt m fuel (.whileLoop c l)) :
    KeptStmt m fuel (.whileLoop c l) (.whileLoop c' l') := by
  have hrun : execStmt m fuel (.whileLoop c' l') = execStmt m fuel (.whileLoop c l) := by
    funext s
    simp only [execStmt, hc.run, hl.run]
  refine ⟨⟨⟨hc.sound, hc.not_jumps h.1.2⟩, hl.sound, fun hj => ?_⟩, hrun, fun T hj => ?_⟩
  · rw [hrun]
    exact h.2.2 (hl.jumps .ofProbe hj)
  · simp only [jumpsStmt, Bool.or_eq_true, Bool.and_eq_true] at hj ⊢
    exact hj.imp (hc.jumps T) (And.imp_right (hl.jumps .ofProbe))

end Parts

theorem execStmt_ifStmt (st : Stmt) (dead : Stmts) (s : State V W) :
    execStmt m fuel (ifStmt st dead) s = execStmt m fuel st s := by
  simp only [ifStmt, execStmt, evalExpr, execStmts, andThen, m.truthy_boolean, if_true]
  rcases h : execStmt m fuel st s with ⟨f, s'⟩
  cases f <;> rfl

theorem soundStmts_snoc {t : Stmt} (ht : SoundStmt m fuel t) :
    ∀ ss, SoundStmts m fuel ss → SoundStmts m fuel (snoc ss t)
  | .nil, _ => ⟨ht, trivial⟩
  | .cons _ ss, h => ⟨h.1, soundStmts_snoc ht ss h.2⟩

theorem soundStmts_deadCode {ss : Stmts} {e : Expr} (hss : SoundStmts m fuel ss) (he : SoundExpr m fuel e) :
    SoundStmts m fuel (deadCode ss e) := by
  cases hnone : isNone e with
  | true =>
    rw [isNone_iff.mp hnone]
    exact hss
  | false =>
    rw [deadCode_value hnone]
    exact soundStmts_snoc (t := .expr e) he ss hss

section Analysis

-- most of these theorems use the assumption through the others only
set_option linter.unusedSectionVars false

variable (hm : ∀ v, 0 < m.times v)
include hm

mutual

theorem leavesExpr :
    ∀ e, SoundExpr m fuel e → jumpsExpr .ofWhile e = true → ∀ s, Leaves (evalExpr m fuel e s)
  | .none, _, h, _ | .integer _, _, h, _ | .boolean _, _, h, _ | .leaf _, _, h, _ | .var _, _, h, _
  | .call _ _, _, h, _ => by simp [jumpsExpr] at h
  | .unevaluated _ e, hr, h, _ => (Bool.false_ne_true (hr.2.symm.trans h)).elim
  | .compound _ parts, hr, h, s => (leavesParts parts hr h s).andThen _
  | .arrayAccess l r, hr, h, s => by
    obtain h | h := (Bool.or_eq_true _ _).mp h
    · exact (leavesExpr l hr.1 h s).andThen _
    · exact leaves_andThen _ fun _ s => (leavesExpr r hr.2 h s).andThen _
  | .logical _ l r, hr, h, s => by
    obtain h | h := (Bool.or_eq_true _ _).mp h
    · exact (leavesExpr l hr.1 h s).andThen _
    · exact (Bool.false_ne_true (hr.2.2.symm.trans h)).elim
  | .ifExpr c l r, hr, h, s => by
    simp only [jumpsExpr, Bool.or_eq_true, Bool.and_eq_true] at h
    obtain h | ⟨hl, hr'⟩ := h
    · exact (leavesExpr c hr.1 h s).andThen _
    · refine leaves_andThen _ fun v s => ?_
      split
      · exact leavesExpr l hr.2.1 hl s
      · exact leavesExpr r hr.2.2 hr' s
  | .block ss e, hr, h, s => leavesBlock (leavesExpr e hr.2) ss hr.1 h s

theorem leavesParts :
    ∀ es, SoundExprs m fuel es → jumpsParts .ofWhile es = true → ∀ s, Leaves (evalExprs m fuel es s)
  | .nil, _, h, _ => by simp [jumpsParts] at h
  | .cons e es, hr, h, s => by
    obtain h | h := (Bool.or_eq_true _ _).mp h
    · exact (leavesExpr e hr.1 h s).andThen _
    · exact leaves_andThen _ fun _ s => (leavesParts es hr.2 h s).andThen _

theorem leavesStmt :
    ∀ st, SoundStmt m fuel st → jumpsStmt .ofWhile st = true → ∀ s, Leaves (execStmt m fuel st s)
  | .expr e, hr, h, s | .assignVar _ e, hr, h, s => (leavesExpr e hr h s).andThen _
  | .varDecl _, _, h, _ | .forRange _ _ _ _, _, h, _ | .forMap _ _ _, _, h, _ => by simp [jumpsStmt] at h
  | .assignMap _ key e, hr, h, s => by
    obtain h | h := (Bool.or_eq_true _ _).mp h
    · exact leaves_andThen _ fun _ s => (leavesParts key hr.1 h s).andThen _
    · exact (leavesExpr e hr.2 h s).andThen _
  | .breakJump, _, _, _ | .continueJump, _, _, _ | .returnJump, _, _, _ => fun _ _ h => by cases h
  | .returnValue _, _, _, _ => leaves_andThen _ fun _ _ _ _ h => by cases h
  | .unroll e b, hr, h, s => by
    obtain h | h := (Bool.or_eq_true _ _).mp h
    · exact (leavesExpr e hr.1 h s).andThen _
    · exact leaves_andThen _ fun v s => leaves_repeated (leavesExpr b hr.2 h) (hm v) s
  | .whileLoop c b, hr, h, s => by
    obtain h | h := (Bool.or_eq_true _ _).mp h
    · exact (Bool.false_ne_true (hr.1.2.symm.trans h)).elim
    · exact hr.2.2 h s

theorem leavesBlock {e : Expr} {value : Bool}
    (hvalue : value = true → ∀ s, Leaves (evalExpr m fuel e s)) :
    ∀ ss, SoundStmts m fuel ss → jumpsBlock .ofWhile e value ss = true →
      ∀ s, Leaves (andThen (execStmts m fuel ss s) fun _ s => evalExpr m fuel e s)
  | .nil, _, h, s => hvalue h s
  | .cons st ss, hr, h, s => by
    rw [execStmts, andThen_assoc]
    rw [jumpsBlock] at h
    split at h
    · exact (leavesStmt st hr.1 h s).andThen _
    · exact leaves_andThen _ fun _ s => leavesBlock hvalue ss hr.2 h s

end

mutual

/-- An analysis keeps the runs of a script, and leaves one that later analyses are right about. -/
theorem keptExpr_analyse (T : Jumps) :
    ∀ e, SoundExpr m fuel e → KeptExpr m fuel e (analyseExpr T e).1
  | .none, h | .integer _, h | .boolean _, h | .leaf _, h | .var _, h => .refl h
  | .unevaluated _ e, h =>
    have he := keptExpr_analyse T e h.1
    ⟨⟨he.sound, he.not_jumps h.2⟩, by funext s; rfl, he.jumps⟩
  | .compound _ parts, h =>
    have hp := keptParts_analyse T parts h
    ⟨hp.sound, by funext s; simp only [analyseExpr, evalExpr, hp.run], hp.jumps⟩
  | .call _ vargs, h =>
    have ha := keptArgs_analyse T vargs h
    ⟨ha.1, by funext s; simp only [analyseExpr, evalExpr, ha.2], fun _ h => h⟩
  | .arrayAccess l r, h => by
    have hl := keptExpr_analyse T l h.1
    refine hl.pair Expr.arrayAccess (keptExpr_analyse T r h.2) h.2 (fun _ _ => And.intro) (fun r' hr => ?_)
      (fun _ _ _ => rfl) _ _ _
    funext s
    simp only [evalExpr, hl.run, hr]
  | .logical isAnd l r, h => by
    have hl := keptExpr_analyse T l h.1
    have hr := keptExpr_analyse T r h.2.1
    have hr' : Kept (fun r => SoundExpr m fuel r ∧ jumpsExpr .ofWhile r = false) (evalExpr m fuel) jumpsExpr r
      (analyseExpr T r).1 := ⟨⟨hr.sound, hr.not_jumps h.2.2⟩, hr.run, hr.jumps⟩
    refine hl.pair (Expr.logical isAnd) hr' h.2 (fun _ _ => And.intro) (fun r' hr => ?_) (fun _ _ _ => rfl) _ _ _
    funext s
    simp only [evalExpr, hl.run, hr]
  | .ifExpr c l r, h => by
    have hc := keptExpr_analyse T c h.1
    have hl := keptExpr_analyse T l h.2.1
    have hr := keptExpr_analyse T r h.2.2
    simp only [analyseExpr]
    split
    · exact hc.ifExpr (.refl h.2.1) (.refl h.2.2)
    · split
      · exact hc.ifExpr hl hr
      · exact hc.ifExpr hl (.refl h.2.2)
  | .block ss e, h => by
    have he := keptExpr_analyse T e h.2
    exact (he.block h.1 (isNone_analyse T e)).trans (keptBlock_analyse T (analyseExpr T e) ss ⟨h.1, he.sound⟩)

theorem keptParts_analyse (T : Jumps) :
    ∀ es, SoundExprs m fuel es → KeptExprs m fuel es (analyseParts T es).1
  | .nil, h => .refl h
  | .cons e es, h => by
    have he := keptExpr_analyse T e h.1
    refine he.pair Exprs.cons (keptParts_analyse T es h.2) h.2 (fun _ _ => And.intro) (fun es' hes => ?_)
      (fun _ _ _ => rfl) _ _ _
    funext s
    simp only [evalExprs, he.run, hes]

theorem keptArgs_analyse (T : Jumps) : ∀ es, SoundExprs m fuel es →
    SoundExprs m fuel (analyseArgs T es) ∧ evalExprs m fuel (analyseArgs T es) = evalExprs m fuel es
  | .nil, h => ⟨h, rfl⟩
  | .cons e es, h => by
    have he := keptExpr_analyse T e h.1
    have hes := keptArgs_analyse T es h.2
    refine ⟨⟨he.sound, hes.1⟩, ?_⟩
    funext s
    simp only [analyseArgs, evalExprs, he.run, hes.2]

theorem keptStmt_analyse (T : Jumps) :
    ∀ st, SoundStmt m fuel st → KeptStmt m fuel st (analyseStmt T st).1
  | .expr e, h | .assignVar _ e, h =>
    have he := keptExpr_analyse T e h
    ⟨he.sound, by funext s; simp only [analyseStmt, execStmt, he.run], he.jumps⟩
  | .varDecl _, h | .forMap _ _ _, h | .breakJump, h | .continueJump, h | .returnJump, h | .returnValue _, h => .refl h
  | .assignMap map key e, h => by
    have hkey := keptParts_analyse T key h.1
    refine hkey.pair (Stmt.assignMap map) (keptExpr_analyse T e h.2) h.2 (fun _ _ => And.intro) (fun e' he => ?_)
      (fun _ _ _ => rfl) _ _ _
    funext s
    simp only [execStmt, hkey.run, he]
  | .unroll e b, h => by
    have he := keptExpr_analyse T e h.1
    refine he.pair Stmt.unroll (keptExpr_analyse T b h.2) h.2 (fun _ _ => And.intro) (fun b' hb => ?_)
      (fun _ _ _ => rfl) _ _ _
    funext s
    simp only [execStmt, he.run, hb]
  | .whileLoop c b, h => by
    have hc := keptExpr_analyse T c h.1.1
    simp only [analyseStmt]
    split
    · exact hc.whileLoop (.refl h.2.1) h
    · split
      · exact hc.whileLoop (keptExpr_analyse .ofProbe b h.2.1) h
      · exact hc.whileLoop (.refl h.2.1) h
  | .forRange _ a b _, h =>
    have ha := keptExpr_analyse T a h.1
    have hb := keptExpr_analyse T b h.2.1
    ⟨⟨ha.sound, hb.sound, h.2.2⟩, by funext s; simp only [analyseStmt, execStmt, ha.run, hb.run], fun _ h => h⟩

theorem keptBlock_analyse (T : Jumps) (value : Expr × Bool) : ∀ ss, SoundExpr m fuel (.block ss value.1) →
    let block := (analyseBlock T value ss).1
    KeptExpr m fuel (.block ss value.1) (.block block.1 block.2)
  | .nil, h => .refl h
  | .cons st ss, h => by
    have hst := keptStmt_analyse T st h.1.1
    have hss := keptBlock_analyse T value ss ⟨h.1.2, h.2⟩
    have hrest := fun s => congrFun hss.run s
    simp only [evalExpr] at hrest
    simp only [analyseBlock]
    split
    · next hjumps =>
      rw [analyseStmt_snd] at hjumps
      -- what stands behind is not executed
      have hleaves (s : State V W) : Leaves (execStmt m fuel st s) :=
        leavesStmt hm st h.1.1 (jumpsStmt_ofWhile hjumps) s
      split
      · next hno =>
        refine ⟨⟨⟨hst.sound, trivial⟩, trivial⟩, ?_, fun T' hj => ?_⟩
        · funext s
          simp only [evalExpr, execStmts, andThen_assoc, hst.run]
          exact (hleaves s).andThen_eq _ _
        · rw [jumpsExpr, jumpsBlock, if_pos hno]
          exact hst.jumps T' hj
      · next hno =>
        refine ⟨⟨⟨⟨trivial, ⟨⟨hst.sound, trivial⟩, trivial⟩, soundStmts_deadCode hss.sound.1 hss.sound.2, trivial⟩,
          trivial⟩, trivial⟩, ?_, fun T' hj => ?_⟩
        · funext s
          simp only [evalExpr, execStmts, andThen_assoc, execStmt_ifStmt, hst.run]
          exact (hleaves s).andThen_eq _ _
        · rw [jumpsExpr, jumpsBlock, if_neg hno]
          rw [jumpsExpr, jumpsBlock, if_pos nothing_nil_none, jumpsStmt_ifStmt, Bool.and_eq_true] at hj
          exact hss.jumps T' hj.2
    · refine ⟨⟨⟨hst.sound, hss.sound.1⟩, hss.sound.2⟩, ?_, fun T' hj => ?_⟩
      · funext s
        simp only [evalExpr, execStmts, andThen_assoc, hst.run, hrest]
      · rw [jumpsExpr, jumpsBlock, nothing_analyseBlock] at hj
        rw [jumpsExpr, jumpsBlock]
        by_cases hno : nothing ss value.1 = true
        · rw [if_pos hno] at hj ⊢
          exact hst.jumps T' hj
        · rw [if_neg hno] at hj ⊢
          exact hss.jumps T' hj

end

end Analysis

/-! ## Jumps at the end of blocks -/

def Closing.flow : Closing → Flow (Return V) Unit
  | .ret => .ret ⟨none, false⟩
  | .cont => .cont

/-- A run that jumps if it comes to an end. -/
def closed {α : Type} (jump : Closing) (r : Result V W α) : Result V W Unit := andThen r fun _ s => (jump.flow, s)

theorem execStmt_closing (jump : Closing) (s : State V W) : execStmt m fuel jump.stmt s = (jump.flow, s) := by
  cases jump <;> rfl

theorem closed_andThen {α β : Type} (jump : Closing) (r : Result V W α) (k : α → State V W → Result V W β) :
    closed jump (andThen r k) = andThen r fun a s => closed jump (k a s) := andThen_assoc _ _ _

theorem soundStmt_closing (jump : Closing) : SoundStmt m fuel jump.stmt := by
  cases jump <;> trivial

theorem soundExpr_followedBy {e : Expr} (he : SoundExpr m fuel e) (jump : Closing) :
    SoundExpr m fuel (followedBy e jump) := ⟨⟨he, soundStmt_closing jump, trivial⟩, trivial⟩

theorem soundStmts_injectLast {f : Expr → Expr} (hf : ∀ e, SoundExpr m fuel e → SoundExpr m fuel (f e))
    (jump : Closing) : ∀ ss, SoundStmts m fuel ss → SoundStmts m fuel (injectLast f jump ss)
  | .nil, _ => ⟨soundStmt_closing jump, trivial⟩
  | .cons st .nil, hr => by
    obtain ⟨e, rfl⟩ | hlast := injectLast_single f jump st
    · exact ⟨hf e hr.1, trivial⟩
    · rw [hlast]
      exact ⟨hr.1, soundStmt_closing jump, trivial⟩
  | .cons st (.cons t ss), hr => by
    rw [injectLast]
    exact ⟨hr.1, soundStmts_injectLast hf jump (.cons t ss) hr.2⟩

theorem soundExpr_injectJump (hm : ∀ v, 0 < m.times v) (T : Jumps) (jump : Closing) (n : Nat) {e : Expr}
    (hr : SoundExpr m fuel e) : SoundExpr m fuel (injectJump T jump n e) := by
  induction n generalizing e with
  | zero => exact hr
  | succ n ih =>
    have hbranch {e : Expr} (hr : SoundExpr m fuel e) :
      SoundExpr m fuel (if (analyseExpr T e).2 then (analyseExpr T e).1
        else injectJump T jump n (analyseExpr T e).1) := by
      have he := (keptExpr_analyse hm T e hr).sound
      split
      · exact he
      · exact ih he
    cases e with
    | block ss e =>
      simp only [injectJump]
      split
      · exact ⟨soundStmts_injectLast (fun e => ih) jump ss hr.1, trivial⟩
      · exact ⟨hr.1, ih hr.2⟩
    | ifExpr c l r => exact ⟨hr.1, hbranch hr.2.1, hbranch hr.2.2⟩
    | _ => exact soundExpr_followedBy hr jump

theorem closed_expr (jump : Closing) (e : Expr) (s : State V W) :
    closed jump (execStmts m fuel (.cons (.expr e) .nil) s) = closed jump (evalExpr m fuel e s) := by
  simp only [execStmts, execStmt, closed, andThen_assoc]
  rfl

theorem closed_followedBy (jump : Closing) (e : Expr) (s : State V W) :
    closed jump (evalExpr m fuel (followedBy e jump) s) = closed jump (evalExpr m fuel e s) := by
  simp only [followedBy, evalExpr, execStmts, execStmt, execStmt_closing, closed, andThen_assoc]
  cases jump <;> rfl

theorem closed_injectLast {f : Expr → Expr} (jump : Closing)
    (hf : ∀ e, SoundExpr m fuel e → ∀ s, closed jump (evalExpr m fuel (f e) s) = closed jump (evalExpr m fuel e s)) :
    ∀ ss, SoundStmts m fuel ss → ∀ s,
      closed jump (execStmts m fuel (injectLast f jump ss) s) = closed jump (execStmts m fuel ss s)
  | .nil, _, s => by
    cases jump <;> rfl
  | .cons st .nil, hr, s => by
    obtain ⟨e, rfl⟩ | hlast := injectLast_single f jump st
    · rw [injectLast, closed_expr, closed_expr]
      exact hf e hr.1 s
    · simp only [hlast, execStmts, execStmt_closing, closed_andThen]
      cases jump <;> rfl
  | .cons st (.cons t ss), hr, s => by
    rw [injectLast, execStmts, execStmts, closed_andThen, closed_andThen]
    congr 1
    funext _ s
    exact closed_injectLast jump hf (.cons t ss) hr.2 s

section

variable (hm : ∀ v, 0 < m.times v) (T : Jumps) (jump : Closing) (depth : Nat)
include hm

/-- An injected jump is one where the run would have come to the end of the block. -/
theorem closed_injectJump (n : Nat) {e : Expr} (hr : SoundExpr m fuel e) (s : State V W) :
    closed jump (evalExpr m fuel (injectJump T jump n e) s) = closed jump (evalExpr m fuel e s) := by
  induction n generalizing e s with
  | zero => rfl
  | succ n ih =>
    have hbranch {e : Expr} (hr : SoundExpr m fuel e) (s : State V W) :
        closed jump (evalExpr m fuel (if (analyseExpr T e).2 then (analyseExpr T e).1
          else injectJump T jump n (analyseExpr T e).1) s) = closed jump (evalExpr m fuel e s) := by
      have he := keptExpr_analyse hm T e hr
      split
      · rw [he.run]
      · rw [ih he.sound, he.run]
    cases e with
    | block ss e =>
      simp only [injectJump]
      split
      · next hnone =>
        obtain rfl := isNone_iff.mp hnone
        have hlast := closed_injectLast jump (fun e he s => ih he s) ss hr.1 s
        simp only [evalExpr, closed_andThen]
        exact hlast
      · simp only [evalExpr, closed_andThen, ih hr.2]
    | ifExpr c l r =>
      simp only [injectJump, evalExpr, closed_andThen]
      congr 1
      funext v s
      split
      · exact hbranch hr.2.1 s
      · exact hbranch hr.2.2 s
    | _ => exact closed_followedBy jump _ s

theorem closed_closeBlock {e : Expr} (hr : SoundExpr m fuel e) (s : State V W) :
    closed jump (evalExpr m fuel (closeBlock depth T jump e) s) = closed jump (evalExpr m fuel e s) := by
  have he := keptExpr_analyse hm T e hr
  simp only [closeBlock]
  split
  · rw [he.run]
  · rw [closed_injectJump hm T jump _ he.sound, he.run]

theorem soundExpr_closeBlock {e : Expr} (hr : SoundExpr m fuel e) :
    SoundExpr m fuel (closeBlock depth T jump e) := by
  have he := (keptExpr_analyse hm T e hr).sound
  simp only [closeBlock]
  split
  · exact he
  · exact soundExpr_injectJump hm T jump _ he

end

/-! ## Loops -/

theorem whileLoop_congr (cond : State V W → Result V W V) {body body' : State V W → Result V W V}
    (h : ∀ s, closed .cont (body s) = closed .cont (body' s)) (n : Nat) (s : State V W) :
    iterate (whileTurn m cond body) n () s = iterate (whileTurn m cond body') n () s := by
  refine iterate_congr ?_ ?_ n () s
  · exact fun _ _ => rfl
  intro _ s
  change closed .cont (andThen (cond s) _) = closed .cont (andThen (cond s) _)
  rw [closed_andThen, closed_andThen]
  congr 1
  funext v s
  split
  · exact h s
  · rfl

theorem forLoop_congr (decl : String) {body body' : State V W → Result V W V}
    (h : ∀ s, closed .cont (body s) = closed .cont (body' s)) (n : Nat) (c : C) (s : State V W) :
    iterate (forTurn m decl body) n c s = iterate (forTurn m decl body') n c s := by
  refine iterate_congr (fun c s => ?_) (fun c s => ?_) n c s
  · unfold forTurn
    cases m.next c s.world <;> rfl
  · unfold forTurn
    cases m.next c s.world with
    | none => rfl
    | some p => exact h _

section Visit

variable {f g : Expr → Expr}

/-- What is done to the blocks of loops does not change their turns. -/
def KeepsTurns (m : Machine V W C) (fuel : Nat) (f : Expr → Expr) : Prop :=
  ∀ b, SoundExpr m fuel b → ∀ s, closed .cont (evalExpr m fuel (f b) s) = closed .cont (evalExpr m fuel b s)

set_option linter.unusedSectionVars false

variable (hf : KeepsTurns m fuel f) (hg : KeepsTurns m fuel g)
include hf hg

mutual

theorem evalExpr_visit :
    ∀ e, SoundExpr m fuel e → evalExpr m fuel (visitExpr f g e) = evalExpr m fuel e
  | .none, _ | .integer _, _ | .boolean _, _ | .leaf _, _ | .var _, _ => rfl
  | .unevaluated _ e, _ => by
    funext s
    rfl
  | .compound _ es, hr | .call _ es, hr => by
    funext s
    simp only [visitExpr, evalExpr, evalExprs_visit es hr]
  | .arrayAccess l r, hr => by
    funext s
    simp only [visitExpr, evalExpr, evalExpr_visit l hr.1, evalExpr_visit r hr.2]
  | .logical _ l r, hr => by
    funext s
    simp only [visitExpr, evalExpr, evalExpr_visit l hr.1, evalExpr_visit r hr.2.1]
  | .ifExpr c l r, hr => by
    funext s
    simp only [visitExpr, evalExpr, evalExpr_visit c hr.1, evalExpr_visit l hr.2.1,
      evalExpr_visit r hr.2.2]
  | .block ss e, hr => by
    funext s
    simp only [visitExpr, evalExpr, execStmts_visit ss hr.1, evalExpr_visit e hr.2]

theorem evalExprs_visit :
    ∀ es, SoundExprs m fuel es → evalExprs m fuel (visitExprs f g es) = evalExprs m fuel es
  | .nil, _ => rfl
  | .cons e es, hr => by
    funext s
    simp only [visitExprs, evalExprs, evalExpr_visit e hr.1, evalExprs_visit es hr.2]

theorem execStmt_visit :
    ∀ st, SoundStmt m fuel st → execStmt m fuel (visitStmt f g st) = execStmt m fuel st
  | .varDecl _, _ | .breakJump, _ | .continueJump, _ | .returnJump, _ => rfl
  | .expr e, hr | .assignVar _ e, hr | .returnValue e, hr => by
    funext s
    simp only [visitStmt, execStmt, evalExpr_visit e hr]
  | .assignMap _ key e, hr => by
    funext s
    simp only [visitStmt, execStmt, evalExprs_visit key hr.1, evalExpr_visit e hr.2]
  | .unroll e b, hr => by
    funext s
    simp only [visitStmt, execStmt, evalExpr_visit e hr.1, evalExpr_visit b hr.2]
  | .whileLoop c b, hr => by
    funext s
    simp only [visitStmt, execStmt, whileLoop_congr (evalExpr m fuel c) (hg b hr.2.1)]
  | .forRange decl _ _ b, hr => by
    funext s
    simp only [visitStmt, execStmt, forLoop_congr decl (hf b hr.2.2)]
  | .forMap decl _ b, hr => by
    funext s
    simp only [visitStmt, execStmt, forLoop_congr decl (hf b hr)]

theorem execStmts_visit :
    ∀ ss, SoundStmts m fuel ss → execStmts m fuel (visitStmts f g ss) = execStmts m fuel ss
  | .nil, _ => rfl
  | .cons st ss, hr => by
    funext s
    simp only [visitStmts, execStmts, execStmt_visit st hr.1, execStmts_visit ss hr.2]

end

end Visit

theorem evalExpr_injectLoops (hm : ∀ v, 0 < m.times v) (depth n : Nat) {e : Expr} (hr : SoundExpr m fuel e) :
    evalExpr m fuel (injectLoops depth n e) = evalExpr m fuel e := by
  induction n generalizing e with
  | zero => exact evalExpr_visit (fun _ _ _ => rfl) (fun _ _ _ => rfl) e hr
  | succ n ih =>
    have hkeeps (T : Jumps) : KeepsTurns m fuel fun b => injectLoops depth n (closeBlock depth T .cont b) := by
      intro b hb s
      rw [ih (soundExpr_closeBlock hm T .cont depth hb)]
      exact closed_closeBlock hm T .cont depth hb s
    exact evalExpr_visit (hkeeps .ofFor) (hkeeps .ofWhile) e hr

end Runs

/-! ## Whole scripts -/

mutual

/-- All statements inside of an expression. -/
def stmtsExpr : Expr → List Stmt
  | .none | .integer _ | .boolean _ | .leaf _ | .var _ => []
  | .unevaluated _ e => stmtsExpr e
  | .compound _ es | .call _ es => stmtsExprs es
  | .arrayAccess l r | .logical _ l r => stmtsExpr l ++ stmtsExpr r
  | .ifExpr c l r => stmtsExpr c ++ (stmtsExpr l ++ stmtsExpr r)
  | .block ss e => stmtsStmts ss ++ stmtsExpr e

def stmtsExprs : Exprs → List Stmt
  | .nil => []
  | .cons e es => stmtsExpr e ++ stmtsExprs es

def stmtsStmt : Stmt → List Stmt
  | .expr e | .assignVar _ e | .returnValue e => stmtsExpr e
  | .varDecl _ | .breakJump | .continueJump | .returnJump => []
  | .assignMap _ key e => stmtsExprs key ++ stmtsExpr e
  | .unroll l r | .whileLoop l r => stmtsExpr l ++ stmtsExpr r
  | .forRange _ a b body => stmtsExpr a ++ (stmtsExpr b ++ stmtsExpr body)
  | .forMap _ _ body => stmtsExpr body

def stmtsStmts : Stmts → List Stmt
  | .nil => []
  | .cons s ss => s :: (stmtsStmt s ++ stmtsStmts ss)

end

mutual

/-- Nothing jumps for certain inside of an operand that may not be evaluated or in the
condition of a `while` loop. -/
def plainExpr : Expr → Bool
  | .none | .integer _ | .boolean _ | .leaf _ | .var _ => true
  | .unevaluated _ e => plainExpr e && !jumpsExpr .ofWhile e
  | .compound _ es | .call _ es => plainExprs es
  | .arrayAccess l r => plainExpr l && plainExpr r
  | .logical _ l r => plainExpr l && (plainExpr r && !jumpsExpr .ofWhile r)
  | .ifExpr c l r => plainExpr c && (plainExpr l && plainExpr r)
  | .block ss e => plainStmts ss && plainExpr e

def plainExprs : Exprs → Bool
  | .nil => true
  | .cons e es => plainExpr e && plainExprs es

def plainStmt : Stmt → Bool
  | .expr e | .assignVar _ e | .returnValue e => plainExpr e
  | .varDecl _ | .breakJump | .continueJump | .returnJump => true
  | .assignMap _ key e => plainExprs key && plainExpr e
  | .unroll e b => plainExpr e && plainExpr b
  | .whileLoop c b => (plainExpr c && !jumpsExpr .ofWhile c) && plainExpr b
  | .forRange _ a b body => plainExpr a && (plainExpr b && plainExpr body)
  | .forMap _ _ body => plainExpr body

def plainStmts : Stmts → Bool
  | .nil => true
  | .cons s ss => plainStmt s && plainStmts ss

end

section Scripts

variable {V W C : Type} {m : Machine V W C} {fuel : Nat}

variable (m fuel) in
/-- Of some statements, the `while` loops with a body that returns for certain do not end. -/
def LoopsLeave (l : List Stmt) : Prop :=
  ∀ c b, .whileLoop c b ∈ l → jumpsExpr .ofProbe b = true → ∀ s, Leaves (execStmt m fuel (.whileLoop c b) s)

theorem loopsLeave_append {l l' : List Stmt} :
    LoopsLeave m fuel (l ++ l') ↔ LoopsLeave m fuel l ∧ LoopsLeave m fuel l' := by
  simp only [LoopsLeave, List.mem_append, or_imp, forall_and]

variable (m fuel) in
/-- If the loops among some statements leave, `P` holds and the analyses are right about all of them. -/
def Grounded (P : Prop) (l : List Stmt) : Prop := LoopsLeave m fuel l → P ∧ ∀ st ∈ l, SoundStmt m fuel st

section Grounded

variable {P Q : Prop} {l l' : List Stmt}

theorem Grounded.nil (h : P) : Grounded m fuel P [] := fun _ => ⟨h, fun _ hst => by cases hst⟩

theorem Grounded.imp (h : Grounded m fuel P l) (hPQ : P → Q) : Grounded m fuel Q l := fun hl => (h hl).imp_left hPQ

theorem Grounded.append (h : Grounded m fuel P l) (h' : Grounded m fuel Q l') : Grounded m fuel (P ∧ Q) (l ++ l') := by
  intro hl
  obtain ⟨hleft, hright⟩ := loopsLeave_append.mp hl
  obtain ⟨hP, hst⟩ := h hleft
  obtain ⟨hQ, hst'⟩ := h' hright
  exact ⟨⟨hP, hQ⟩, List.forall_mem_append.mpr ⟨hst, hst'⟩⟩

end Grounded

mutual

theorem soundExpr_of_plain : ∀ e, plainExpr e = true → Grounded m fuel (SoundExpr m fuel e) (stmtsExpr e)
  | .none, _ | .integer _, _ | .boolean _, _ | .leaf _, _ | .var _, _ => .nil trivial
  | .unevaluated _ e, hp => by
    simp only [plainExpr, Bool.and_eq_true, Bool.not_eq_true'] at hp
    exact (soundExpr_of_plain e hp.1).imp fun he => ⟨he, hp.2⟩
  | .compound _ es, hp | .call _ es, hp => soundExprs_of_plain es hp
  | .arrayAccess l r, hp => by
    simp only [plainExpr, Bool.and_eq_true] at hp
    exact (soundExpr_of_plain l hp.1).append (soundExpr_of_plain r hp.2)
  | .logical _ l r, hp => by
    simp only [plainExpr, Bool.and_eq_true, Bool.not_eq_true'] at hp
    exact (soundExpr_of_plain l hp.1).append ((soundExpr_of_plain r hp.2.1).imp fun hr => ⟨hr, hp.2.2⟩)
  | .ifExpr c l r, hp => by
    simp only [plainExpr, Bool.and_eq_true] at hp
    exact (soundExpr_of_plain c hp.1).append ((soundExpr_of_plain l hp.2.1).append (soundExpr_of_plain r hp.2.2))
  | .block ss e, hp => by
    simp only [plainExpr, Bool.and_eq_true] at hp
    exact (soundStmts_of_plain ss hp.1).append (soundExpr_of_plain e hp.2)

theorem soundExprs_of_plain : ∀ es, plainExprs es = true → Grounded m fuel (SoundExprs m fuel es) (stmtsExprs es)
  | .nil, _ => .nil trivial
  | .cons e es, hp => by
    simp only [plainExprs, Bool.and_eq_true] at hp
    exact (soundExpr_of_plain e hp.1).append (soundExprs_of_plain es hp.2)

theorem soundStmt_of_plain : ∀ s, plainStmt s = true → LoopsLeave m fuel [s] →
    Grounded m fuel (SoundStmt m fuel s) (stmtsStmt s)
  | .varDecl _, _, _ | .breakJump, _, _ | .continueJump, _, _ | .returnJump, _, _ => .nil trivial
  | .expr e, hp, _ | .assignVar _ e, hp, _ | .returnValue e, hp, _ => soundExpr_of_plain e hp
  | .assignMap _ key e, hp, _ => by
    simp only [plainStmt, Bool.and_eq_true] at hp
    exact (soundExprs_of_plain key hp.1).append (soundExpr_of_plain e hp.2)
  | .unroll e b, hp, _ => by
    simp only [plainStmt, Bool.and_eq_true] at hp
    exact (soundExpr_of_plain e hp.1).append (soundExpr_of_plain b hp.2)
  | .whileLoop c b, hp, hself => by
    simp only [plainStmt, Bool.and_eq_true, Bool.not_eq_true'] at hp
    refine ((soundExpr_of_plain c hp.1.1).append (soundExpr_of_plain b hp.2)).imp fun h => ?_
    exact ⟨⟨h.1, hp.1.2⟩, h.2, hself c b List.mem_cons_self⟩
  | .forRange _ a b body, hp, _ => by
    simp only [plainStmt, Bool.and_eq_true] at hp
    exact (soundExpr_of_plain a hp.1).append ((soundExpr_of_plain b hp.2.1).append (soundExpr_of_plain body hp.2.2))
  | .forMap _ _ body, hp, _ => soundExpr_of_plain body hp

theorem soundStmts_of_plain : ∀ ss, plainStmts ss = true → Grounded m fuel (SoundStmts m fuel ss) (stmtsStmts ss)
  | .nil, _ => .nil trivial
  | .cons s ss, hp => by
    simp only [plainStmts, Bool.and_eq_true] at hp
    intro hl
    obtain ⟨hself, hl⟩ := loopsLeave_append (l := [s]).mp hl
    obtain ⟨hsound, hst⟩ := (soundStmt_of_plain s hp.1 hself).append (soundStmts_of_plain ss hp.2) hl
    exact ⟨hsound, List.forall_mem_cons.mpr ⟨hsound.1, hst⟩⟩

end

variable (m fuel) in
/-- The run of a probe or a function, which returns at the end of its block. -/
def runProbe (block : Expr) (s : State V W) : Result V W Unit := closed .ret (evalExpr m fuel block s)

/-- For scripts without a certain jump in an operand that may not be evaluated or in the
condition of a loop (and with positive `unroll` counts, as `pre_type_check.cpp` asks for):
the statements that an analyser says jump, from behind which code is moved, never end with
a value, and the pass changes no run, exactly if no `while` loop with a body that returns
for certain ends with a value. `exit` is followed by a return in the runs before the pass. -/
theorem dead_code_iff (m : Machine V W C) (hm : ∀ v, 0 < m.times v) (fuel depth loops : Nat) (block : Expr)
    (hp : plainExpr (exitReturn block) = true) :
    ((∀ st ∈ stmtsExpr (exitReturn block), ∀ T, jumpsStmt T st = true → ∀ s, Leaves (execStmt m fuel st s)) ∧
        ∀ s, runProbe m fuel (controlFlow depth loops block) s = runProbe m fuel (exitReturn block) s) ↔
      ∀ c b, .whileLoop c b ∈ stmtsExpr (exitReturn block) → jumpsExpr .ofProbe b = true →
        ∀ s, Leaves (execStmt m fuel (.whileLoop c b) s) := by
  constructor
  · rintro ⟨hjumps, -⟩ c b hmem hb s
    exact hjumps _ hmem .ofProbe ((Bool.or_eq_true _ _).mpr (.inr hb)) s
  · intro hloops
    obtain ⟨hsound, hinside⟩ := soundExpr_of_plain _ hp hloops
    constructor
    · intro st hst T hjumps s
      exact leavesStmt hm st (hinside st hst) (jumpsStmt_ofWhile hjumps) s
    · intro s
      have hclose := soundExpr_closeBlock hm .ofProbe .ret depth hsound
      simp only [runProbe, controlFlow, evalExpr_injectLoops hm depth loops hclose]
      exact closed_closeBlock hm .ofProbe .ret depth hsound s

end Scripts

/-- Integers, with the calls in the order in which they are made. -/
def calls : Machine Int (List String) Unit where
  truthy v := v ≠ 0
  integer := id
  boolean b := if b then 1 else 0
  noValue := 0
  leaf _ w := (0, w)
  unevaluated _ w := (8, w)
  compound _ vs w := (vs.sum, w)
  call func _ w := (0, w ++ [func])
  element u _ w := (u, w)
  declare _ v := v
  store _ _ _ w := w
  times _ := 1
  rangeStart _ _ := ()
  mapStart _ _ := ()
  next _ _ := none
  truthy_zero := decide_ne_zero false
  truthy_one := decide_ne_zero true
  truthy_boolean := decide_ne_zero

/-- The calls of a script that starts with zeros in its variables. -/
def callsOf (block : Expr) : List String := (runProbe calls 9 block ⟨fun _ => 0, []⟩).2.world

/-- `s; printf();` -/
def beforePrintf (s : Stmt) : Expr := .block (.cons s (.cons (.expr (.call "printf" .nil)) .nil)) .none

/-- `exit(); printf();` -/
theorem dead_code_iff_exit :
    let block := beforePrintf (.expr (.call "exit" .nil))
    plainExpr (exitReturn block) = true ∧ callsOf (exitReturn block) = ["exit"] ∧
      runProbe calls 9 (controlFlow 9 9 block) ⟨fun _ => 0, []⟩ =
        runProbe calls 9 (exitReturn block) ⟨fun _ => 0, []⟩ := by
  refine ⟨by decide +kernel, by decide +kernel, ?_⟩
  have hnone : ∀ c b, .whileLoop c b ∉ stmtsExpr (exitReturn (beforePrintf (.expr (.call "exit" .nil)))) := by
    intro c b hmem
    simp [beforePrintf, exitReturn, exitReturnStmts, exitReturnStmt, exitReturnExprs, count, followedBy, stmtsExpr,
      stmtsStmts, stmtsStmt, stmtsExprs, Closing.stmt] at hmem
  exact ((dead_code_iff calls (fun _ => Nat.one_pos) 9 9 9 _ (by decide +kernel)).mpr
    fun c b hmem => absurd hmem (hnone c b)).2 _

/-- `while ($x) { exit(); } printf();` with a zero in `$x`. -/
theorem call_behind_loop_is_dropped :
    let block := beforePrintf (.whileLoop (.var "$x") (.block (.cons (.expr (.call "exit" .nil)) .nil) .none))
    callsOf (exitReturn block) = ["printf"] ∧ callsOf (controlFlow 9 9 block) = [] := by
  decide +kernel

-- `while (1) { if (!$x) { break; } exit(); } printf();`
example :
    let body := .block (.cons (.expr (.ifExpr (.var "$x") .none (.block (.cons .breakJump .nil) .none)))
      (.cons (.expr (.call "exit" .nil)) .nil)) .none
    let block := beforePrintf (.whileLoop (.integer 1) body)
    callsOf (exitReturn block) = ["printf"] ∧ callsOf (controlFlow 9 9 block) = [] := by
  decide +kernel

end ControlFlow
