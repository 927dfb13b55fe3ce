import Mathlib.Data.List.AList
import Mathlib.Data.List.Sort
import Ubpftrace.HandlerTable
import Ubpftrace.SessionScan

/-!
# The attach context of the agent

`bpf_attach_ctx.cpp` turns the handlers of the table into program objects and
attachments. The callback of an attachment holds the address of its program object,
and the context keeps both: the objects by the fd of the program, the attachments by
the fd of the link. A detach that fails leaves its attachment where it is.
-/

namespace AttachCtx

open HandlerTable (Handler LinkHandler PerfEventHandler CInt)
open HandlerTable.EventType
open scoped HandlerTable
open SessionScan (EPOCH_SEQ_UNSTABLE EPOCH_SEQ_MISSING EAGAIN maxAttempts word)

/-- A map with the fds as its keys. -/
abbrev FdMap (α : Type) := AList fun _ : Nat => α

/-- What is live in an attach implementation: the id it has given out, and the program
object that the callback runs. -/
structure Attachment where
  impl : Nat
  attachId : Nat
  prog : Nat
  deriving DecidableEq

/-- An entry of `instantiated_perf_events`. -/
structure PerfEvent where
  hasPrivData : Bool
  attachType : CInt
  deriving DecidableEq

/-- The context and, beside it, what is live in the attach implementations, the next id
of each and the number of the next program object. -/
structure Ctx where
  instantiatedHandlers : List Nat
  instantiatedProgs : FdMap Nat
  -- the id that the implementation has given out, and the implementation
  instantiatedAttachLinks : FdMap (Nat × Nat)
  instantiatedPerfEvents : FdMap PerfEvent
  lastEpochSeqSeen : Nat
  live : List Attachment
  nextId : Nat → Nat
  nextProg : Nat

/-- `bpf_attach_ctx::bpf_attach_ctx`. -/
def empty : Ctx := ⟨[], ∅, ∅, ∅, 0, [], fun _ => 1, 0⟩

/-- The place of a call to the outside: the attempt, the pass over the table and the
slot that the pass is at. -/
structure Place where
  attempt : Nat
  handleNvAttachImpl : Bool
  slot : Nat
  deriving DecidableEq

/-- What a call of `init_attach_ctx_from_handlers` meets: the table, the sequence numbers
that are read before and after the scan of each attempt, and whether each load of a
program, parse of private data, attach and detach succeeds. -/
structure Env where
  handlers : List Handler
  seqBefore : Nat → Nat
  seqAfter : Nat → Nat
  loads : Place → Nat → Bool
  parses : Place → Nat → Bool
  attaches : Place → Nat → Bool
  -- by the attempt, whether it is after the scan, and the fd of the link
  detaches : Nat → Bool → Nat → Bool

def Env.handler (e : Env) (id : Nat) : Handler := e.handlers.getD id .unused

/-- How a call ends: with 0, with an error, or by an exception. -/
inductive Outcome where
  | done
  | failed
  | thrown
  deriving DecidableEq

/-- What comes after a call that has returned 0. -/
def andThen (r : Outcome × Ctx) (next : Ctx → Outcome × Ctx) : Outcome × Ctx :=
  match r with
  | (.done, s) => next s
  | r => r

/-- `std::get` of the alternative that the type of the event calls for. -/
def dataFits (ev : PerfEventHandler) : Bool :=
  if ev.type ∈ [UPROBE_OVERRIDE, UPROBE, URETPROBE, UREPLACE] then ev.data matches .uprobe ..
  else if ev.type = TRACEPOINT then ev.data matches .tracepoint ..
  else if ev.type ∈ [KPROBE, KRETPROBE] then ev.data matches .kprobe ..
  else ev.data matches .custom ..

/-- `attach_impls`: the implementation that is registered for an attach type. -/
abbrev AttachImpls := CInt → Option Nat

namespace Ctx

/-! ## Instantiating -/

section Instantiate

variable (impls : AttachImpls) (e : Env) (p : Place)

def addProg (s : Ctx) (id : Nat) : Ctx :=
  { s with instantiatedProgs := s.instantiatedProgs.insert id s.nextProg, nextProg := s.nextProg + 1 }

def markInstantiated (s : Ctx) (id : Nat) : Ctx := { s with instantiatedHandlers := id :: s.instantiatedHandlers }

/-- `instantiate_prog_handler_at`. An object that does not load stays in the map. -/
def instantiateProgHandlerAt (s : Ctx) (id : Nat) : Outcome × Ctx :=
  if e.loads p id then (.done, (s.addProg id).markInstantiated id) else (.failed, s.addProg id)

def setPerfEvent (s : Ctx) (id : Nat) (event : PerfEvent) : Ctx :=
  { s with instantiatedPerfEvents := s.instantiatedPerfEvents.insert id event }

/-- `instantiate_perf_event_handler_at`. -/
def instantiatePerfEventHandlerAt (s : Ctx) (id : Nat) (ev : PerfEventHandler) : Outcome × Ctx :=
  if ev.type = SOFTWARE then (.done, s)
  else if impls ev.type = none then (.failed, s)
  else if dataFits ev = false then (.thrown, s)
  else if e.parses p id then (.done, (s.setPerfEvent id ⟨true, ev.type⟩).markInstantiated id)
  else (.failed, s)

/-- `instantiated_perf_events[id]`, which adds an empty entry where there is none. -/
def perfEventAt (s : Ctx) (id : Nat) : PerfEvent := (s.instantiatedPerfEvents.lookup id).getD ⟨false, 0⟩

/-- A successful `create_attach_with_ebpf_callback` and its record. -/
def attach (s : Ctx) (id impl prog : Nat) : Ctx :=
  { s with
    live := ⟨impl, s.nextId impl, prog⟩ :: s.live
    nextId := Function.update s.nextId impl (s.nextId impl + 1)
    instantiatedAttachLinks := s.instantiatedAttachLinks.insert id (s.nextId impl, impl)
    instantiatedHandlers := id :: s.instantiatedHandlers }

/-- `instantiate_bpf_link_handler_at`. -/
def instantiateBpfLinkHandlerAt (s : Ctx) (id : Nat) (l : LinkHandler) : Outcome × Ctx :=
  let target := l.attachTargetId.toNat
  let event := s.perfEventAt target
  let s := s.setPerfEvent target event
  match impls event.attachType, s.instantiatedProgs.lookup l.progId.toNat with
  | none, _ => (.failed, s)
  -- `std::map::at`
  | some _, none => (.thrown, s)
  | some impl, some prog =>
    if event.hasPrivData = false then (.thrown, s)
    else if e.attaches p id then (.done, s.attach id impl prog)
    else (.failed, s)

/-- `instantiate_handler_at`. The ids in `stk` differ, so that the recursion is not
deeper than the table is long. -/
def instantiateHandlerAt : Nat → List Nat → Ctx → Nat → Outcome × Ctx
  | 0, _, s, _ => (.failed, s)
  | fuel + 1, stk, s, id =>
    if id ∈ s.instantiatedHandlers then (.done, s)
    else if id ∈ stk then (.failed, s)
    else
      match e.handler id with
      | .prog _ => s.instantiateProgHandlerAt e p id
      | .perfEvent ev => s.instantiatePerfEventHandlerAt impls e p id ev
      | .link l =>
        andThen (instantiateHandlerAt fuel (id :: stk) s l.progId.toNat) fun s =>
          andThen (instantiateHandlerAt fuel (id :: stk) s l.attachTargetId.toNat) fun s =>
            s.instantiateBpfLinkHandlerAt impls e p id l
      | _ => (.done, s)

end Instantiate

/-! ## Detaching -/

def release (s : Ctx) (id : Nat) (link : Nat × Nat) : Ctx :=
  { s with
    live := s.live.filter fun a => (a.attachId, a.impl) ≠ link
    instantiatedAttachLinks := s.instantiatedAttachLinks.erase id }

/-- `destroy_instantiated_attach_link`. -/
def destroyInstantiatedAttachLink (s : Ctx) (detaches : Bool) (id : Nat) : Outcome × Ctx :=
  match s.instantiatedAttachLinks.lookup id with
  | none => (.failed, s)
  | some link => if detaches then (.done, s.release id link) else (.failed, s)

/-- The loop of `destroy_all_attach_links` over the fds it has collected. -/
def destroyLinks (detaches : Nat → Bool) : List Nat → Ctx → Outcome × Ctx
  | [], s => (.done, s)
  | id :: ids, s => andThen (s.destroyInstantiatedAttachLink (detaches id) id) (destroyLinks detaches ids)

def destroyAllAttachLinks (s : Ctx) (detaches : Nat → Bool) : Outcome × Ctx :=
  destroyLinks detaches (s.instantiatedAttachLinks.keys.insertionSort (· ≤ ·)) s

def resetInstantiatedState (s : Ctx) : Ctx :=
  { s with
    instantiatedHandlers := []
    instantiatedProgs := ∅
    instantiatedAttachLinks := ∅
    instantiatedPerfEvents := ∅
    lastEpochSeqSeen := word - 1 }

/-- What a change of the session does. What `destroy_all_attach_links` returns is not looked at. -/
def rebind (s : Ctx) (detaches : Nat → Bool) : Ctx := (s.destroyAllAttachLinks detaches).2.resetInstantiatedState

/-! ## Scanning -/

section Scan

variable (impls : AttachImpls) (e : Env)

/-- One of the two loops over the table, and whether it runs to its end. -/
def scanFrom (attempt : Nat) (handleNv : Bool) : List Nat → Ctx → Bool × Ctx
  | [], s => (true, s)
  | i :: is, s =>
    if e.handler i = .unused then scanFrom attempt handleNv is s
    else
      match s.instantiateHandlerAt impls e ⟨attempt, handleNv, i⟩ (e.handlers.length + 2) [] i with
      | (.thrown, s) => (false, s)
      | (_, s) => scanFrom attempt handleNv is s

def scan (s : Ctx) (attempt : Nat) : Bool × Ctx :=
  match s.scanFrom impls e attempt false (List.range e.handlers.length) with
  | (true, s) => s.scanFrom impls e attempt true (List.range e.handlers.length)
  | r => r

def seqOf (attempt : Nat) : Nat :=
  if e.seqBefore attempt = EPOCH_SEQ_MISSING then 0 else e.seqBefore attempt

/-- The context at the start of the scan of an attempt. -/
def enter (s : Ctx) (attempt : Nat) : Ctx :=
  if seqOf e attempt = s.lastEpochSeqSeen then s
  else { s.rebind (e.detaches attempt false) with lastEpochSeqSeen := seqOf e attempt }

/-- The attempts of `init_attach_ctx_from_handlers`, and what it returns if it does. -/
def attempts : Nat → Nat → Ctx → Option Int × Ctx
  | 0, _, s => (some (-EAGAIN), s)
  | left + 1, attempt, s =>
    if seqOf e attempt = EPOCH_SEQ_UNSTABLE then attempts left (attempt + 1) s
    else
      match (s.enter e attempt).scan impls e attempt with
      | (false, t) => (none, t)
      | (true, t) =>
        if e.seqAfter attempt = EPOCH_SEQ_MISSING then (some 0, t)
        else if e.seqAfter attempt = EPOCH_SEQ_UNSTABLE then
          attempts left (attempt + 1) (t.rebind (e.detaches attempt true))
        else if e.seqAfter attempt = (s.enter e attempt).lastEpochSeqSeen ∨ e.seqAfter attempt = t.lastEpochSeqSeen then
          (some 0, t)
        else
          attempts left (attempt + 1)
            { t.rebind (e.detaches attempt true) with lastEpochSeqSeen := e.seqAfter attempt }

def initAttachCtxFromHandlers (s : Ctx) : Option Int × Ctx := attempts impls e maxAttempts 0 s

end Scan

end Ctx

/-! ## Runs -/

inductive Op where
  | init (e : Env)
  | instantiate (e : Env) (p : Place) (id : Nat)
  | destroyLink (id : Nat) (detaches : Bool)
  | destroyAll (detaches : Nat → Bool)
  | reset

/-- The context and what the last operation has returned, if it was an `init`. -/
structure State where
  ctx : Ctx
  returned : Option Int

def start : State := ⟨empty, none⟩

def step (impls : AttachImpls) (s : State) : Op → Option State
  | .init e => some ⟨(s.ctx.initAttachCtxFromHandlers impls e).2, (s.ctx.initAttachCtxFromHandlers impls e).1⟩
  | .instantiate e p id => some ⟨(s.ctx.instantiateHandlerAt impls e p (e.handlers.length + 2) [] id).2, none⟩
  | .destroyLink id detaches => some ⟨(s.ctx.destroyInstantiatedAttachLink detaches id).2, none⟩
  | .destroyAll detaches => some ⟨(s.ctx.destroyAllAttachLinks detaches).2, none⟩
  | .reset => some ⟨s.ctx.resetInstantiatedState, none⟩

/-- A live attachment is recorded, and its program object exists. -/
def Recorded (s : Ctx) : Prop :=
  ∀ a ∈ s.live, (∃ id, s.instantiatedAttachLinks.lookup id = some (a.attachId, a.impl)) ∧
    ∃ id, s.instantiatedProgs.lookup id = some a.prog

/-- The link at an fd is recorded with an attachment that is live. -/
def Attached (s : Ctx) (id : Nat) : Prop :=
  ∃ a ∈ s.live, s.instantiatedAttachLinks.lookup id = some (a.attachId, a.impl)

/-- Every link of the table refers to a program. -/
def ProgsHold (e : Env) : Prop :=
  ∀ id l, e.handler id = .link l → ∃ p, e.handler l.progId.toNat = .prog p

/-- Nothing is forgotten while it is live: state is reset with nothing attached, a change
of the session detaches all that is attached. -/
def Detaches (s : State) : Op → Prop
  | .init e => ProgsHold e ∧ ∀ attempt after id, e.detaches attempt after id
  | .instantiate e _ _ => ProgsHold e
  | .reset => s.ctx.live = []
  | .destroyLink _ _ | .destroyAll _ => True

/-- The context has what instantiating the handler at an fd leaves there. -/
def InstantiatedAs (s : Ctx) (id : Nat) : Handler → Prop
  | .prog _ => id ∈ s.instantiatedProgs
  | .perfEvent ev => s.instantiatedPerfEvents.lookup id = some ⟨true, ev.type⟩
  | .link _ => id ∈ s.instantiatedAttachLinks
  | _ => True

/-- What is instantiated is of the kind that the table holds there now, and no link has
been detached since. -/
def Consistent (e : Env) (s : Ctx) : Prop := ∀ id ∈ s.instantiatedHandlers, InstantiatedAs s id (e.handler id)

/-- The calls for a link succeed: its program loads, the private data of its target is
parsed, there is an implementation for it, and it attaches. -/
structure Attaches (impls : AttachImpls) (e : Env) (id : Nat) (l : LinkHandler) : Prop where
  loads : ∀ p, e.loads p l.progId.toNat
  target : ∃ ev, e.handler l.attachTargetId.toNat = .perfEvent ev ∧ ev.type ≠ SOFTWARE ∧ impls ev.type ≠ none ∧
    dataFits ev
  parses : ∀ p, e.parses p l.attachTargetId.toNat
  attaches : ∀ p, e.attaches p id

/-! ## What instantiating changes -/

/-- A change that instantiating makes to the context. -/
inductive Change (e : Env) : Ctx → Ctx → Prop where
  | object {s : Ctx} {id : Nat} (hnew : id ∉ s.instantiatedHandlers) : Change e s (s.addProg id)
  | prog {s : Ctx} {id : Nat} (hnew : id ∉ s.instantiatedHandlers) {p : HandlerTable.ProgHandler}
      (hid : e.handler id = .prog p) : Change e s ((s.addProg id).markInstantiated id)
  | event {s : Ctx} {id : Nat} {ev : PerfEventHandler} (hnew : id ∉ s.instantiatedHandlers)
      (hid : e.handler id = .perfEvent ev) :
      Change e s ((s.setPerfEvent id ⟨true, ev.type⟩).markInstantiated id)
  | touch {s : Ctx} (id : Nat) : Change e s (s.setPerfEvent id (s.perfEventAt id))
  | attach {s : Ctx} {id pid impl prog : Nat} {l : LinkHandler} (hnew : id ∉ s.instantiatedHandlers)
      (hid : e.handler id = .link l) (hpid : pid ∈ s.instantiatedHandlers)
      (hprog : s.instantiatedProgs.lookup pid = some prog) : Change e s (s.attach id impl prog)

abbrev Changes (e : Env) : Ctx → Ctx → Prop := Relation.ReflTransGen (Change e)

section Changes

variable {impls : AttachImpls} {e : Env} {p : Place} {s t : Ctx}

variable {id : Nat} {prog : HandlerTable.ProgHandler}

/-- Nothing that is recorded is taken back. -/
theorem Changes.mono (h : Changes e s t) : s.instantiatedHandlers ⊆ t.instantiatedHandlers ∧
    ∀ id ∈ s.instantiatedAttachLinks, id ∈ t.instantiatedAttachLinks := by
  induction h with
  | refl => exact ⟨fun _ hid => hid, fun _ hid => hid⟩
  | tail _ hchange ih =>
    cases hchange with
    | object | touch => exact ih
    | prog | event => exact ⟨fun _ hid => List.mem_cons_of_mem _ (ih.1 hid), ih.2⟩
    | attach =>
      exact ⟨fun _ hid => List.mem_cons_of_mem _ (ih.1 hid),
        fun id hid => (AList.mem_insert _).mpr (.inr (ih.2 id hid))⟩

theorem andThen_keeps {r : Outcome × Ctx} {next : Ctx → Outcome × Ctx} (P : Ctx → Prop) (hr : P r.2)
    (hnext : r.1 = .done → P (next r.2).2) : P (andThen r next).2 := by
  obtain ⟨outcome, s⟩ := r
  cases outcome with
  | done => exact hnext rfl
  | failed | thrown => exact hr

theorem instantiateProg_changes (hnew : id ∉ s.instantiatedHandlers) (hid : e.handler id = .prog prog) :
    Changes e s (s.instantiateProgHandlerAt e p id).2 := by
  unfold Ctx.instantiateProgHandlerAt
  split
  · exact .single (.prog hnew hid)
  · exact .single (.object hnew)

theorem instantiatePerfEvent_changes {ev : PerfEventHandler} (hnew : id ∉ s.instantiatedHandlers)
    (hid : e.handler id = .perfEvent ev) : Changes e s (s.instantiatePerfEventHandlerAt impls e p id ev).2 := by
  unfold Ctx.instantiatePerfEventHandlerAt
  split_ifs
  · exact .refl
  · exact .refl
  · exact .refl
  · exact .single (.event hnew hid)
  · exact .refl

theorem instantiateLink_cases (impls : AttachImpls) (e : Env) (p : Place) (s : Ctx) (id : Nat) (l : LinkHandler) :
    let t := s.setPerfEvent l.attachTargetId.toNat (s.perfEventAt l.attachTargetId.toNat)
    (s.instantiateBpfLinkHandlerAt impls e p id l).2 = t ∨
      ∃ impl prog, s.instantiatedProgs.lookup l.progId.toNat = some prog ∧
        (s.instantiateBpfLinkHandlerAt impls e p id l).2 = t.attach id impl prog := by
  unfold Ctx.instantiateBpfLinkHandlerAt
  simp only
  split
  · exact .inl rfl
  · exact .inl rfl
  · next impl prog himpl hlookup =>
    split_ifs
    · exact .inl rfl
    · exact .inr ⟨impl, prog, hlookup, rfl⟩
    · exact .inl rfl

theorem instantiateLink_changes (impls : AttachImpls) (p : Place) {l : LinkHandler}
    (hnew : id ∉ s.instantiatedHandlers)
    (hid : e.handler id = .link l) (hprog : l.progId.toNat ∈ s.instantiatedHandlers) :
    Changes e s (s.instantiateBpfLinkHandlerAt impls e p id l).2 := by
  obtain htouch | ⟨impl, prog, hlookup, hattach⟩ := instantiateLink_cases impls e p s id l
  · rw [htouch]
    exact .single (.touch _)
  · rw [hattach]
    exact .tail (.single (.touch _)) (.attach hnew hid hprog hlookup)

theorem mem_of_prog_done {fuel : Nat} {stk : List Nat} (hid : e.handler id = .prog prog)
    (hdone : (s.instantiateHandlerAt impls e p fuel stk id).1 = .done) :
    id ∈ (s.instantiateHandlerAt impls e p fuel stk id).2.instantiatedHandlers := by
  cases fuel with
  | zero => cases hdone
  | succ fuel =>
    rw [Ctx.instantiateHandlerAt] at hdone ⊢
    by_cases hmem : id ∈ s.instantiatedHandlers
    · rw [if_pos hmem]
      exact hmem
    · rw [if_neg hmem] at hdone ⊢
      by_cases hstk : id ∈ stk
      · rw [if_pos hstk] at hdone
        cases hdone
      · simp only [if_neg hstk, hid, Ctx.instantiateProgHandlerAt] at hdone ⊢
        split_ifs at hdone ⊢
        exact List.mem_cons_self

theorem not_mem_of_stk {fuel x : Nat} {stk : List Nat} (hstk : x ∈ stk) (hx : x ∉ s.instantiatedHandlers) :
    x ∉ (s.instantiateHandlerAt impls e p fuel stk id).2.instantiatedHandlers := by
  induction fuel generalizing stk s id with
  | zero => exact hx
  | succ fuel ih =>
    rw [Ctx.instantiateHandlerAt]
    split_ifs with hmem hon
    · exact hx
    · exact hx
    · have hmark : ∀ {ids : List Nat}, x ∉ ids → x ∉ id :: ids := by
        intro ids hids
        exact List.not_mem_cons_of_ne_of_not_mem (fun heq => hon (heq ▸ hstk)) hids
      cases hid : e.handler id with
      | prog prog =>
        simp only [Ctx.instantiateProgHandlerAt]
        split_ifs
        · exact hmark hx
        · exact hx
      | perfEvent ev =>
        simp only [Ctx.instantiatePerfEventHandlerAt]
        split_ifs
        · exact hx
        · exact hx
        · exact hx
        · exact hmark hx
        · exact hx
      | link l =>
        have hstk' : x ∈ id :: stk := List.mem_cons_of_mem _ hstk
        have hfirst : x ∉ (s.instantiateHandlerAt impls e p fuel (id :: stk) l.progId.toNat).2.instantiatedHandlers :=
          ih hstk' hx
        refine andThen_keeps (x ∉ ·.instantiatedHandlers) hfirst fun _ => ?_
        refine andThen_keeps (x ∉ ·.instantiatedHandlers) (ih hstk' hfirst) fun _ => ?_
        obtain htouch | ⟨_, _, _, hattach⟩ := instantiateLink_cases impls e p _ id l
        · rw [htouch]
          exact ih hstk' hfirst
        · rw [hattach]
          exact hmark (ih hstk' hfirst)
      | unused | map m | epoll | memfd flags name => exact hx

theorem instantiate_changes (impls : AttachImpls) (p : Place) (hprogs : ProgsHold e) (fuel : Nat) (stk : List Nat)
    (s : Ctx) (id : Nat) :
    Changes e s (s.instantiateHandlerAt impls e p fuel stk id).2 := by
  induction fuel generalizing stk s id with
  | zero => exact .refl
  | succ fuel ih =>
    rw [Ctx.instantiateHandlerAt]
    split_ifs with hmem hstk
    · exact .refl
    · exact .refl
    · cases hid : e.handler id with
      | prog prog => exact instantiateProg_changes hmem hid
      | perfEvent ev => exact instantiatePerfEvent_changes hmem hid
      | link l =>
        obtain ⟨prog, hprog⟩ := hprogs id l hid
        have hon : id ∈ id :: stk := List.mem_cons_self
        have hfirst := ih (id :: stk) s l.progId.toNat
        refine andThen_keeps (Changes e s) hfirst fun hdone => ?_
        have hsecond := ih (id :: stk) (s.instantiateHandlerAt impls e p fuel (id :: stk) l.progId.toNat).2
          l.attachTargetId.toNat
        refine andThen_keeps (Changes e s) (hfirst.trans hsecond) fun _ => ?_
        have hin := hsecond.mono.1 (mem_of_prog_done hprog hdone)
        have hlink := instantiateLink_changes impls p
          (not_mem_of_stk hon (not_mem_of_stk hon hmem)) hid hin
        exact (hfirst.trans hsecond).trans hlink
      | unused | map m | epoll | memfd flags name => exact .refl

theorem scanFrom_changes (impls : AttachImpls) (hprogs : ProgsHold e) (attempt : Nat) (handleNv : Bool)
    (ids : List Nat) (s : Ctx) :
    Changes e s (s.scanFrom impls e attempt handleNv ids).2 := by
  induction ids generalizing s with
  | nil => exact .refl
  | cons i ids ih =>
    rw [Ctx.scanFrom]
    split_ifs
    · exact ih s
    · have hone := instantiate_changes impls ⟨attempt, handleNv, i⟩ hprogs (e.handlers.length + 2) [] s i
      split
      · next t ht =>
        rw [ht] at hone
        exact hone
      · next t _ ht =>
        rw [ht] at hone
        exact hone.trans (ih t)

theorem scan_changes (impls : AttachImpls) (hprogs : ProgsHold e) (attempt : Nat) (s : Ctx) :
    Changes e s (s.scan impls e attempt).2 := by
  have hfirst := scanFrom_changes impls hprogs attempt false (List.range e.handlers.length) s
  unfold Ctx.scan
  split
  · next t ht =>
    rw [ht] at hfirst
    exact hfirst.trans (scanFrom_changes impls hprogs attempt true _ t)
  · exact hfirst

end Changes

end AttachCtx
