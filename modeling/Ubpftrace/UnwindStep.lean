import Mathlib.Data.List.Perm.Basic
import Ubpftrace.DwarfExpr

/-!
# One step of the stack walk

`unwind_step` computes the registers of the caller from a row of the unwind table. The
old and the new registers are two halves of one array that change places with each step.
Before the rules of the registers are applied, the CFA is written over the stack pointer
of the old set as well, and the rules that read it see the CFA.
-/

namespace UnwindStep

open DwarfExpr Function

def RSP : Nat := 7

def RIP : Nat := 16

inductive CfaRule where
  | uninitialized
  | expression (id : Nat)
  | regOffset (reg : Nat) (offset : Word)
  | unknown

inductive Rule where
  | uninitialized
  | sameValue
  | undefined
  | offset (o : Word)
  | valOffset (o : Word)
  | register (r : Nat)
  | expression (id : Nat)
  | valExpression (id : Nat)
  | constant (c : Word)
  | unknown

/-- `struct cft`. -/
structure Cft where
  cfa : CfaRule
  rules : Nat → Rule

/-- A register set, with the valid bit of each register. -/
abbrev RegSet := Nat → Word × Bool

/-- `regs_map` and `regs_valid`, and which of the two sets is the old one. -/
structure State where
  regs : Bool → RegSet
  currentRegSet : Bool

def State.current (s : State) : RegSet := s.regs s.currentRegSet

/-- What does not change in a step: the expressions, the user memory, and the return
address that is recovered for an address in the xol page and a stack pointer. -/
structure World where
  exprs : Nat → Option (Nat × (Nat → UInt8))
  mem : Word → Option Word
  recover : Word → Word → Word

def World.env (w : World) (regs : RegSet) : Env := ⟨fun r => (regs r).1, fun r => (regs r).2, w.mem⟩

def World.eval (w : World) (env : Env) (id : Nat) : Option Word := (w.exprs id).bind fun e => evalExpr env e.1 e.2

def readReg (env : Env) (r : Nat) : Option Word :=
  if r < NUM_REGISTERS ∧ env.valid r then some (env.regs r) else none

/-- What a rule does to its register. -/
inductive Effect where
  | keep
  | drop
  | set (v : Word)

/-- A rule with the registers it reads; none where the step fails. -/
def Rule.effect (w : World) (env : Env) (cfa : Word) : Rule → Option Effect
  | .uninitialized | .sameValue => some .keep
  | .undefined => some .drop
  | .offset o => (w.mem (cfa + o)).map .set
  | .valOffset o => some (.set (cfa + o))
  | .register r => (readReg env r).map .set
  | .expression id => ((w.eval env id).bind w.mem).map .set
  | .valExpression id => (w.eval env id).map .set
  | .constant c => some (.set c)
  | .unknown => none

def Effect.apply (old : Word) (new : Word × Bool) : Effect → Word × Bool
  | .keep => (old, new.2)
  | .drop => (new.1, false)
  | .set v => (v, true)

/-- The loop over the registers, in some order, on the new set. -/
def applyRules (w : World) (cf : Cft) (env : Env) (cfa : Word) : List Nat → RegSet → Option RegSet
  | [], new => some new
  | reg :: regs, new =>
    ((cf.rules reg).effect w env cfa).bind fun effect =>
      applyRules w cf env cfa regs (update new reg (effect.apply (env.regs reg) (new reg)))

def CfaRule.value (w : World) (env : Env) : CfaRule → Option Word
  | .expression id => w.eval env id
  | .regOffset reg offset => (readReg env reg).map (· + offset)
  | .uninitialized | .unknown => none

section Step

variable (w : World) (cf : Cft) (s : State)

/-- The old set after the CFA has been written over its stack pointer. -/
def withCfa (cfa : Word) (regs : RegSet) : RegSet := update regs RSP (cfa, (regs RSP).2)

/-- `unwind_step` from the row on, where it gets to the end: the state and what it returns.
The source takes the registers in the order `0, .., 16`. -/
def unwindStep (order : List Nat) : Option (State × Int) :=
  (cf.cfa.value w (w.env s.current)).bind fun cfa =>
    let old := withCfa cfa s.current
    -- the values that the other set still has, with the valid bits of the old one
    let new := withCfa cfa fun reg => ((s.regs (!s.currentRegSet) reg).1, (s.current reg).2)
    (applyRules w cf (w.env old) cfa order new).map fun new =>
      let ip := w.recover (new RIP).1 (new RSP).1 - 1
      let new := update new RIP (ip, (new RIP).2)
      (⟨fun set => if set = s.currentRegSet then old else new, !s.currentRegSet⟩,
        if (new RIP).2 = false ∨ ip = 0 then 1 else 0)

/-- The new register is what the effect makes of the old one; an undefined one is not valid. -/
def Matches (s s' : State) (reg : Nat) : Option Effect → Prop
  | none => False
  | some .keep => s'.current reg = s.current reg
  | some .drop => (s'.current reg).2 = false
  | some (.set v) => s'.current reg = (v, true)

/-- Registers other than the stack and the instruction pointer. -/
def General (reg : Nat) : Prop := reg < NUM_REGISTERS ∧ reg ≠ RSP ∧ reg ≠ RIP

/-- Whatever the order, the registers of a step are those that their rules give from the
old registers and the CFA. -/
def StepRight : Prop :=
  ∀ order, order.Perm (List.range NUM_REGISTERS) → ∀ s' r, unwindStep w cf s order = some (s', r) →
    ∀ cfa, cf.cfa.value w (w.env s.current) = some cfa → ∀ reg, General reg →
      Matches s s' reg ((cf.rules reg).effect w (w.env s.current) cfa)

/-- In a step that succeeds, no rule sees that the stack pointer has been replaced. -/
def Unseen : Prop :=
  (unwindStep w cf s (List.range NUM_REGISTERS)).isSome → ∀ cfa, cf.cfa.value w (w.env s.current) = some cfa →
    ∀ reg, General reg →
      (cf.rules reg).effect w (w.env (withCfa cfa s.current)) cfa = (cf.rules reg).effect w (w.env s.current) cfa

end Step

section Rules

variable {w : World} {cf : Cft} {s s' : State} {env : Env} {cfa : Word} {order : List Nat}
  {new new' : RegSet} {reg : Nat}

theorem applyRules_spec (hloop : applyRules w cf env cfa order new = some new') (hnodup : order.Nodup) :
    (reg ∈ order → ∃ effect, (cf.rules reg).effect w env cfa = some effect ∧
      new' reg = effect.apply (env.regs reg) (new reg)) ∧ (reg ∉ order → new' reg = new reg) := by
  induction order generalizing new with
  | nil =>
    cases hloop
    exact ⟨nofun, fun _ => rfl⟩
  | cons first rest ih =>
    obtain ⟨effect, heffect, hloop⟩ := Option.bind_eq_some_iff.mp hloop
    obtain ⟨hfirst, hnodup⟩ := List.nodup_cons.mp hnodup
    obtain ⟨hin, hout⟩ := ih hloop hnodup
    by_cases heq : reg = first
    · subst heq
      rw [update_self] at hout
      exact ⟨fun _ => ⟨effect, heffect, hout hfirst⟩, fun hnot => absurd List.mem_cons_self hnot⟩
    · rw [update_of_ne heq] at hin hout
      exact ⟨fun hmem => hin (List.mem_of_ne_of_mem heq hmem), fun hnot => hout (List.not_mem_of_not_mem_cons hnot)⟩

theorem applyRules_isSome : (applyRules w cf env cfa order new).isSome ↔
    ∀ reg ∈ order, ((cf.rules reg).effect w env cfa).isSome := by
  induction order generalizing new with
  | nil => simp [applyRules]
  | cons first rest ih =>
    rw [applyRules, List.forall_mem_cons]
    cases (cf.rules first).effect w env cfa with
    | none => simp
    | some effect => simp [ih]

/-- A step in some order gives the registers what their rules give with the CFA as the old stack pointer. -/
theorem unwindStep_matches (horder : order.Perm (List.range NUM_REGISTERS)) {r : Int}
    (hstep : unwindStep w cf s order = some (s', r)) (hcfa : cf.cfa.value w (w.env s.current) = some cfa)
    (hreg : General reg) : Matches s s' reg ((cf.rules reg).effect w (w.env (withCfa cfa s.current)) cfa) := by
  obtain ⟨hlt, hsp, hip⟩ := hreg
  rw [unwindStep, hcfa, Option.bind_some] at hstep
  obtain ⟨new, hloop, hstep⟩ := Option.map_eq_some_iff.mp hstep
  obtain ⟨rfl, -⟩ := Prod.mk.inj hstep
  have hmem : reg ∈ order := horder.mem_iff.mpr (List.mem_range.mpr hlt)
  obtain ⟨effect, heffect, hnew⟩ := (applyRules_spec hloop (horder.nodup_iff.mpr List.nodup_range)).1 hmem
  rw [heffect]
  cases effect with
  | keep => simpa [Matches, State.current, hip, hsp, Effect.apply, withCfa, World.env] using hnew
  | drop => simp [Matches, State.current, hip, hnew, Effect.apply]
  | set v => simpa [Matches, State.current, hip, Effect.apply] using hnew

/-- A register has one effect of its rule, whichever registers the rule reads. -/
theorem effect_unique {rule : Rule} {env' : Env} (h : Matches s s' reg (rule.effect w env cfa))
    (h' : Matches s s' reg (rule.effect w env' cfa)) : rule.effect w env cfa = rule.effect w env' cfa := by
  have hset : ∀ x y : Option Word, Matches s s' reg (x.map .set) → Matches s s' reg (y.map .set) → x = y := by
    intro x y hx hy
    cases x with
    | none => exact absurd hx not_false
    | some v =>
      cases y with
      | none => exact absurd hy not_false
      | some v' => exact congrArg some (Prod.mk.inj ((Eq.symm hx).trans hy)).1
  cases rule with
  | register r | expression id | valExpression id => exact congrArg (Option.map Effect.set) (hset _ _ h h')
  | _ => rfl

theorem isSome_unwindStep (horder : order.Perm (List.range NUM_REGISTERS)) :
    (unwindStep w cf s order).isSome ↔ (unwindStep w cf s (List.range NUM_REGISTERS)).isSome := by
  unfold unwindStep
  cases cf.cfa.value w (w.env s.current) with
  | none => rfl
  | some cfa =>
    simp only [Option.bind_some, Option.isSome_map, applyRules_isSome]
    exact forall_congr' fun reg => imp_congr_left horder.mem_iff

/-- The registers of the caller are right just where no rule sees the stack pointer replaced. -/
theorem stepRight_iff (w : World) (cf : Cft) (s : State) : StepRight w cf s ↔ Unseen w cf s := by
  constructor
  · intro h hsome cfa hcfa reg hreg
    obtain ⟨⟨s', r⟩, hstep⟩ := Option.isSome_iff_exists.mp hsome
    exact effect_unique (unwindStep_matches (List.Perm.refl _) hstep hcfa hreg)
      (h _ (List.Perm.refl _) s' r hstep cfa hcfa reg hreg)
  · intro h order horder s' r hstep cfa hcfa reg hreg
    have hsome := (isSome_unwindStep horder).mp (by rw [hstep]; rfl)
    rw [← h hsome cfa hcfa reg hreg]
    exact unwindStep_matches horder hstep hcfa hreg

/-- A rule that copies the stack pointer gets the CFA. -/
def copiesStackPointer : Cft :=
  ⟨.regOffset RSP 16, fun reg => if reg = 0 then .register RSP else .sameValue⟩

def allAt (v : Word) : State := ⟨fun _ _ => (v, true), false⟩

theorem stack_pointer_replaced :
    let w : World := ⟨fun _ => none, fun _ => none, fun ip _ => ip⟩
    ((unwindStep w copiesStackPointer (allAt 0x1000) (List.range NUM_REGISTERS)).map fun r => r.1.current 0) =
        some (0x1010, true) ∧
      ¬ StepRight w copiesStackPointer (allAt 0x1000) := by
  intro w
  have hstep :
    (unwindStep w copiesStackPointer (allAt 0x1000) (List.range NUM_REGISTERS)).map (fun r => r.1.current 0) =
      some (0x1010, true) := by decide +kernel
  refine ⟨hstep, fun hright => ?_⟩
  obtain ⟨⟨s', r⟩, hsome, hnew⟩ := Option.map_eq_some_iff.mp hstep
  have hold := hright _ (List.Perm.refl _) s' r hsome 0x1010 (by decide +kernel) 0 (by unfold General; decide)
  exact absurd (hnew.symm.trans hold) (by decide)

end Rules

end UnwindStep
