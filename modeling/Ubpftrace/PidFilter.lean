import Ubpftrace.LoopReturn

/-!
# The filter for a process

With a target pid, `PidFilterPass` puts a filter around the block of a probe that has an attach
point which cannot be attached for one process only. `ProbeAndApExpander` runs before it and
gives every attach point of a probe a copy of the block, so that a filter is put around the
copies that need it and no other.
-/

namespace PidFilter

open Scripts StructuredFlow

/-- `probetype` of the provider of an attach point. -/
inductive ProbeType where
  | invalid
  | special
  | benchmark
  | test
  | kprobe
  | kretprobe
  | uprobe
  | uretprobe
  | usdt
  | tracepoint
  | profile
  | interval
  | software
  | hardware
  | watchpoint
  | fentry
  | fexit
  | iter
  | rawtracepoint

def probeNeedsPidFilter : ProbeType → Bool
  | .kprobe | .kretprobe | .fentry | .fexit | .tracepoint | .rawtracepoint => true
  | _ => false

/-- `if (pid != target) { return; } else { block }` -/
def createPidFilter (target : Int) (block : Expr) : Expr :=
  .block .nil (.ifExpr (.compound "!=" (.cons (.leaf "pid") (.cons (.integer target) .nil)))
    (.block (.cons .returnJump .nil) .none) block)

/-- A probe. Its attach points are those that the matches of their wildcards have replaced;
the passes read nothing else of them. -/
structure Probe where
  attachPoints : List ProbeType
  block : Expr

/-- A probe in the new list of `ProbeAndApExpander::visit(Program)`. -/
def splitProbe (probe : Probe) : List Probe :=
  if probe.attachPoints.length < 2 then [probe] else probe.attachPoints.map fun ap => ⟨[ap], probe.block⟩

/-- `PidFilterPass::visit` -/
def visitProbe (pid : Option Int) (probe : Probe) : Probe :=
  match pid with
  | none => probe
  | some target =>
    if probe.attachPoints.any probeNeedsPidFilter then { probe with block := createPidFilter target probe.block }
    else probe

/-- The probes of a program after both passes. -/
def filterProbes (pid : Option Int) (probes : List Probe) : List Probe :=
  (probes.flatMap splitProbe).map (visitProbe pid)

/-- The builtin gives the current pid, and `!=` compares integers. -/
structure ReadsPid {V W C : Type} (m : Machine V W C) (pid : W → Int) : Prop where
  builtin : ∀ w, m.leaf "pid" w = (m.integer (pid w), w)
  compare : ∀ a b w, m.compound "!=" [m.integer a, m.integer b] w = (m.boolean (a ≠ b), w)

theorem evalExpr_createPidFilter {V W C : Type} {m : Machine V W C} {pid : W → Int} (h : ReadsPid m pid) (fuel : Nat)
    (target : Int) (block : Expr) (s : State V W) :
    evalExpr m fuel (createPidFilter target block) s =
      if pid s.world = target then evalExpr m fuel block s else (.ret ⟨none, false⟩, s) := by
  have hcond : evalExpr m fuel (.compound "!=" (.cons (.leaf "pid") (.cons (.integer target) .nil))) s =
      (.value (m.boolean (pid s.world ≠ target)), s) := by
    simp [evalExpr, evalExprs, State.act, h.builtin, h.compare, andThen]
  rw [createPidFilter, evalExpr, execStmts, andThen, evalExpr, hcond, andThen, m.truthy_boolean]
  by_cases hpid : pid s.world = target
  · simp [hpid]
  · simp [hpid, evalExpr, execStmts, execStmt, andThen]

theorem splitProbe_attachPoints (probe : Probe) :
    (splitProbe probe).flatMap (·.attachPoints) = probe.attachPoints := by
  unfold splitProbe
  split
  · rw [List.flatMap_singleton]
  · rw [List.flatMap_map, List.flatMap_singleton']

/-- A part of a probe has its block, and one attach point at most. -/
theorem mem_splitProbe {probe q : Probe} (hq : q ∈ splitProbe probe) :
    q.block = probe.block ∧ ∀ ap ∈ q.attachPoints, q.attachPoints = [ap] := by
  unfold splitProbe at hq
  split at hq
  · next hshort =>
    rw [List.mem_singleton.mp hq]
    refine ⟨rfl, fun ap hap => ?_⟩
    obtain ⟨ap', heq⟩ :=
      List.length_eq_one_iff.mp (Nat.le_antisymm (Nat.le_of_lt_succ hshort) (List.length_pos_of_mem hap))
    rw [heq, List.mem_singleton] at hap
    rw [heq, hap]
  · obtain ⟨ap, -, rfl⟩ := List.mem_map.mp hq
    refine ⟨rfl, fun ap' hap => ?_⟩
    rw [List.mem_singleton.mp hap]

theorem evalExpr_visitProbe {V W C : Type} {m : Machine V W C} {pid : W → Int} (h : ReadsPid m pid) (fuel : Nat)
    (target : Int) (ap : ProbeType) (block : Expr) (s : State V W) :
    evalExpr m fuel (visitProbe (some target) ⟨[ap], block⟩).block s =
      if probeNeedsPidFilter ap = false ∨ pid s.world = target then evalExpr m fuel block s
      else (.ret ⟨none, false⟩, s) := by
  cases hneeds : probeNeedsPidFilter ap
  · simp [visitProbe, hneeds]
  · simp [visitProbe, hneeds, evalExpr_createPidFilter h]

/-- The passes keep the attach points of a probe, and an event of each of them runs the block
exactly if its type needs no filter or the current pid is the target; otherwise it returns at once. -/
theorem pid_filtered {V W C : Type} {m : Machine V W C} {pid : W → Int} (hm : ReadsPid m pid) (target : Int)
    (probe : Probe) :
    (filterProbes (some target) [probe]).flatMap (·.attachPoints) = probe.attachPoints ∧
      ∀ q ∈ filterProbes (some target) [probe], ∀ ap ∈ q.attachPoints, ∀ fuel s,
        evalExpr m fuel q.block s =
          if probeNeedsPidFilter ap = false ∨ pid s.world = target then evalExpr m fuel probe.block s
          else (.ret ⟨none, false⟩, s) := by
  have hkeeps (q : Probe) : (visitProbe (some target) q).attachPoints = q.attachPoints := by
    unfold visitProbe
    split_ifs <;> rfl
  rw [filterProbes, List.flatMap_singleton]
  constructor
  · rw [List.flatMap_map]
    simp only [hkeeps]
    exact splitProbe_attachPoints probe
  · intro q' hq' ap hap fuel s
    obtain ⟨q, hq, rfl⟩ := List.mem_map.mp hq'
    obtain ⟨hblock, hone⟩ := mem_splitProbe hq
    rw [hkeeps] at hap
    obtain ⟨aps, block⟩ := q
    obtain rfl := hone ap hap
    obtain rfl := hblock
    exact evalExpr_visitProbe hm fuel target ap _ s

/-- Integers, the pid 1, and the comparison. -/
def onePid : Machine Int Unit (Int × Int) :=
  { LoopReturn.integers with
    leaf := fun _ w => (1, w)
    compound := fun _ vs w => (if vs.head? = vs.getLast? then 0 else 1, w) }

theorem readsPid_onePid : ReadsPid onePid fun _ => 1 where
  builtin _ := rfl
  compare a b w := by
    change ((if some a = some b then 0 else 1 : Int), w) = (if decide (a ≠ b) then 1 else 0, w)
    by_cases h : a = b <;> simp [h]

/-- `kprobe:f,interval:s:1 { 7 }` for another pid: the kprobe returns, the interval runs the block. -/
theorem pid_filtered_mixed :
    filterProbes (some 0) [⟨[.kprobe, .interval], .integer 7⟩] =
        [⟨[.kprobe], createPidFilter 0 (.integer 7)⟩, ⟨[.interval], .integer 7⟩] ∧
      evalExpr onePid 0 (createPidFilter 0 (.integer 7)) ⟨fun _ => 0, ()⟩ = (.ret ⟨none, false⟩, ⟨fun _ => 0, ()⟩) ∧
      evalExpr onePid 0 (.integer 7) ⟨fun _ => 0, ()⟩ = (.value 7, ⟨fun _ => 0, ()⟩) := by
  have hruns := (pid_filtered readsPid_onePid 0 ⟨[.kprobe, .interval], .integer 7⟩).2
  refine ⟨rfl, ?_, ?_⟩
  · exact hruns ⟨[.kprobe], createPidFilter 0 (.integer 7)⟩ (List.mem_cons_self ..) .kprobe (List.mem_cons_self ..) 0 _
  · exact hruns ⟨[.interval], .integer 7⟩ (List.mem_cons_of_mem _ (List.mem_cons_self ..)) .interval
      (List.mem_cons_self ..) 0 _

end PidFilter
