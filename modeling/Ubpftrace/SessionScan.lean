import Ubpftrace.Runs

/-!
# Sessions of the server and scans of the agent

`begin_new_session` of `bpftime_shm_internal.cpp` makes `epoch_seq` odd, clears the
handler table and makes `epoch_seq` even again. `init_attach_ctx_from_handlers` of
`bpf_attach_ctx.cpp` reads a stable `epoch_seq`, scans the table, reads again and
starts over if the two differ. Every load and every slot is one step, and the steps
of the server and of the agent interleave.

The server constructs the epoch object after the table, and the agent looks for it
once, when it opens the memory. An agent that opens the memory in between takes the
sessions for untracked.
-/

namespace SessionScan

open Runs (Reaches run reaches_of_run)

/-- The values of a `uint64_t`. -/
def word : Nat := 2 ^ 64

def EPOCH_SEQ_UNSTABLE : Nat := word - 1
def EPOCH_SEQ_MISSING : Nat := word - 2

/-- `max_tries` of `read_stable_epoch_seq`. -/
def maxTries : Nat := 200

/-- The attempts of `init_attach_ctx_from_handlers`. -/
def maxAttempts : Nat := 3

def EAGAIN : Int := 11

/-- The handlers that `instantiate_handler_at` tells apart. -/
inductive Kind where
  | prog
  | perfEvent
  | link (progId attachTargetId : Nat)
  | other
  deriving DecidableEq

/-- A handler of the table and the session in which the server has put it there. -/
structure Handler where
  kind : Kind
  session : Nat
  deriving DecidableEq

/-- What `instantiate_handler_at` has still to do: ids to look at, and the links whose
program and target stand before them. -/
inductive Work where
  | handler (id : Nat)
  | attach (id session : Nat)
  deriving DecidableEq

/-- Where a sequence number is read. -/
inductive Stage where
  | beforeScan
  | afterScan (epochBefore : Nat)
  deriving DecidableEq

inductive Agent where
  | closed
  | idle
  | reading (attempt : Nat) (stage : Stage) (tries : Nat) (first : Option Nat)
  | scanning (attempt epochBefore : Nat) (secondPass : Bool) (i : Nat) (work : List Work)
  | returned (r : Int)
  deriving DecidableEq

structure State where
  epochExists : Bool
  epochSeq : Nat
  table : List (Option Handler)
  /-- The server is inside `reset_server_state`. -/
  resetting : Bool
  /-- How many times the server has begun a session; nothing reads it. -/
  session : Nat
  epochFound : Bool
  agent : Agent
  lastEpochSeqSeen : Nat
  /-- `instantiated_handlers`, each with the session of the handler. -/
  held : List (Nat × Nat)
  deriving DecidableEq

/-- A memory with its table, whose epoch object is not there yet. -/
def start (n : Nat) : State := ⟨false, 0, List.replicate n none, false, 0, false, .closed, 0, []⟩

/-- How an instantiation ends. Software events are not recorded. -/
inductive Outcome where
  | recorded
  | ignored
  | failed
  deriving DecidableEq

inductive Action where
  | construct
  | beginSession
  | finishSession
  | add (fd : Nat) (kind : Kind)
  | clear (fd : Nat)
  | openShm
  | init
  | load
  | scan (outcome : Outcome)
  /-- An exception leaves the scan, and `init_attach_ctx_from_handlers` with it. -/
  | thrown
  deriving DecidableEq

/-! ## The server -/

/-- `__atomic_add_fetch(&epoch_state->epoch_seq, 1)`. -/
def addFetch (seq : Nat) : Nat := (seq + 1) % word

def server (s : State) : Action → Option State
  | .construct => if s.epochExists then none else some { s with epochExists := true }
  | .beginSession =>
    if s.epochExists ∧ ¬ s.resetting then some { s with epochSeq := addFetch s.epochSeq, resetting := true } else none
  -- one slot of `clear_all`, of the links that go with it, or of `close_fd`
  | .clear fd => if s.epochExists then some { s with table := s.table.set fd none } else none
  | .finishSession =>
    if s.resetting ∧ s.table.all Option.isNone then
      some { s with epochSeq := addFetch s.epochSeq, resetting := false, session := s.session + 1 }
    else none
  | .add fd kind =>
    if s.epochExists ∧ ¬ s.resetting ∧ s.table[fd]? = some none then
      some { s with table := s.table.set fd (some ⟨kind, s.session⟩) }
    else none
  | _ => none

/-! ## The agent -/

/-- `reset_instantiated_state_unlocked`. -/
def reset (s : State) : State := { s with held := [], lastEpochSeqSeen := word - 1 }

def nextAttempt (s : State) (attempt : Nat) : State :=
  { s with agent :=
    if attempt + 1 < maxAttempts then .reading (attempt + 1) .beforeScan 0 none else .returned (-EAGAIN) }

/-- What `init_attach_ctx_from_handlers` does with the number it has read before the scan. -/
def beginScan (s : State) (attempt read : Nat) : State :=
  let seq := if read = EPOCH_SEQ_MISSING then 0 else read
  if seq = EPOCH_SEQ_UNSTABLE then nextAttempt s attempt
  else
    let s := if seq = s.lastEpochSeqSeen then s else { reset s with lastEpochSeqSeen := seq }
    { s with agent := .scanning attempt s.lastEpochSeqSeen false 0 [] }

/-- And with the one it has read after the scan. -/
def endScan (s : State) (attempt epochBefore epochAfter : Nat) : State :=
  if epochAfter = EPOCH_SEQ_MISSING then { s with agent := .returned 0 }
  else if epochAfter = EPOCH_SEQ_UNSTABLE then nextAttempt (reset s) attempt
  else if epochAfter = epochBefore ∨ epochAfter = s.lastEpochSeqSeen then { s with agent := .returned 0 }
  else nextAttempt { reset s with lastEpochSeqSeen := epochAfter } attempt

def haveRead (s : State) (attempt : Nat) (stage : Stage) (read : Nat) : State :=
  match stage with
  | .beforeScan => beginScan s attempt read
  | .afterScan epochBefore => endScan s attempt epochBefore read

/-- One load of `read_stable_epoch_seq`. -/
def load (s : State) (attempt : Nat) (stage : Stage) (tries : Nat) (first : Option Nat) : State :=
  let retry : State :=
    if tries + 1 < maxTries then { s with agent := .reading attempt stage (tries + 1) none }
    else haveRead s attempt stage EPOCH_SEQ_UNSTABLE
  if ¬ s.epochFound then haveRead s attempt stage EPOCH_SEQ_MISSING
  else
    match first with
    | none => if s.epochSeq % 2 = 1 then retry else { s with agent := .reading attempt stage tries (some s.epochSeq) }
    | some a => if a = s.epochSeq then haveRead s attempt stage a else retry

/-- The ids of `stk`: links that wait for their program and target. -/
def waiting : List Work → List Nat
  | [] => []
  | .attach id _ :: rest => id :: waiting rest
  | .handler _ :: rest => waiting rest

/-- The end of one instantiation. A failure ends those that wait for it, too. -/
def conclude (s : State) (outcome : Outcome) (id session : Nat) (rest : List Work) : List Work × List (Nat × Nat) :=
  match outcome with
  | .recorded => (rest, (id, session) :: s.held)
  | .ignored => (rest, s.held)
  | .failed => ([], s.held)

/-- One slot of the scan: `instantiate_handler_at` up to its next look at the table. -/
def visit (s : State) (outcome : Outcome) : Work → List Work → List Work × List (Nat × Nat)
  | .attach id session, rest => conclude s outcome id session rest
  | .handler id, rest =>
    if id ∈ s.held.map Prod.fst then (rest, s.held)
    else if id ∈ waiting rest then ([], s.held)
    else
      match s.table.getD id none with
      | none => (rest, s.held)
      | some h =>
        match h.kind with
        | .prog | .perfEvent => conclude s outcome id h.session rest
        | .link progId attachTargetId =>
          (.handler progId :: .handler attachTargetId :: .attach id h.session :: rest, s.held)
        | .other => (rest, s.held)

def scan (s : State) (outcome : Outcome) (attempt epochBefore : Nat) (secondPass : Bool) (i : Nat) : List Work → State
  | [] =>
    if i < s.table.length then
      let work := if (s.table.getD i none).isSome then [Work.handler i] else []
      { s with agent := .scanning attempt epochBefore secondPass (i + 1) work }
    else if secondPass then { s with agent := .reading attempt (.afterScan epochBefore) 0 none }
    else { s with agent := .scanning attempt epochBefore true 0 [] }
  | w :: rest =>
    let (work, held) := visit s outcome w rest
    { s with agent := .scanning attempt epochBefore secondPass i work, held := held }

def agent (s : State) (a : Action) : Option State :=
  match s.agent, a with
  | .closed, .openShm => some { s with agent := .idle, epochFound := s.epochExists }
  | .idle, .init | .returned _, .init => some { s with agent := .reading 0 .beforeScan 0 none }
  | .reading attempt stage tries first, .load => some (load s attempt stage tries first)
  | .scanning attempt epochBefore secondPass i work, .scan outcome =>
    some (scan s outcome attempt epochBefore secondPass i work)
  | .scanning .., .thrown => some { s with agent := .idle }
  | _, _ => none

def step (s : State) (a : Action) : Option State :=
  match a with
  | .construct | .beginSession | .finishSession | .add .. | .clear .. => server s a
  | .openShm | .init | .load | .scan .. | .thrown => agent s a

/-! ## One session -/

/-- All handlers that the agent holds are of one session, and that is the one it has recorded. -/
def OneSession (s : State) : Prop := ∃ k, s.lastEpochSeqSeen = 2 * k % word ∧ ∀ p ∈ s.held, p.2 = k

/-- The agent opens the memory when the epoch object is there, and the sequence number
stays below the two that have a meaning of their own. -/
def Tracked (s : State) : Action → Prop
  | .openShm => s.epochExists
  | .beginSession => s.epochSeq + 2 < EPOCH_SEQ_MISSING
  | _ => True

instance (s : State) : (a : Action) → Decidable (Tracked s a)
  | .openShm => inferInstanceAs (Decidable (_ = true))
  | .beginSession => inferInstanceAs (Decidable (_ < _))
  | .construct | .finishSession | .add .. | .clear .. | .init | .load | .scan .. | .thrown => isTrue trivial

/-- What is held is of the recorded session. -/
structure Settled (s : State) : Prop where
  even : s.lastEpochSeqSeen % 2 = 0
  lt : s.lastEpochSeqSeen < word
  held : ∀ p ∈ s.held, 2 * p.2 = s.lastEpochSeqSeen

/-- Between the two reads of an attempt: as long as the number has not changed, every
handler that has been looked at is of the recorded session. -/
structure Scanning (s : State) (epochBefore : Nat) (work : List Work) : Prop where
  last : s.lastEpochSeqSeen = epochBefore
  even : epochBefore % 2 = 0
  le : epochBefore ≤ s.epochSeq
  held : s.epochSeq = epochBefore → ∀ p ∈ s.held, 2 * p.2 = epochBefore
  work : s.epochSeq = epochBefore → ∀ id session, .attach id session ∈ work → 2 * session = epochBefore

/-- Outside of an attempt, also of one that an exception has left. -/
def Loose (s : State) : Prop := s.held = [] ∨ Scanning s s.lastEpochSeqSeen []

/-- A first load is an even number that has been reached. -/
def Loaded (s : State) (first : Option Nat) : Prop := ∀ a, first = some a → a ≤ s.epochSeq ∧ a % 2 = 0

def AgentInv (s : State) : Agent → Prop
  | .closed => s.held = []
  | .idle => s.epochFound ∧ Loose s
  | .reading _ .beforeScan _ first => s.epochFound ∧ Loose s ∧ Loaded s first
  | .reading _ (.afterScan epochBefore) _ first => s.epochFound ∧ Scanning s epochBefore [] ∧ Loaded s first
  | .scanning _ epochBefore _ _ work => s.epochFound ∧ Scanning s epochBefore work
  | .returned r => s.epochFound ∧ Loose s ∧ (r = 0 → Settled s)

structure Inv (s : State) : Prop where
  seq : s.epochSeq = 2 * s.session + if s.resetting then 1 else 0
  bound : s.epochSeq < EPOCH_SEQ_MISSING
  room : s.resetting → s.epochSeq + 1 < EPOCH_SEQ_MISSING
  table : ∀ h, some h ∈ s.table → h.session = s.session
  agent : AgentInv s s.agent

theorem start_inv (n : Nat) : Inv (start n) := by
  constructor
  · rfl
  · exact (by decide : 0 < EPOCH_SEQ_MISSING)
  · simp [start]
  · intro h hh
    simp [start] at hh
  · rfl

variable {s t : State} {a : Action} {first : Option Nat} {epochBefore : Nat}

theorem Scanning.moved {work : List Work} (h : Scanning s epochBefore work) (pc : Agent) :
    Scanning { s with agent := pc } epochBefore work := { h with }

theorem Loose.moved (h : Loose s) (pc : Agent) : Loose { s with agent := pc } := h.imp id (Scanning.moved · pc)

/-- The server leaves the agent alone and never lowers the number. -/
structure ServerMove (s t : State) : Prop where
  found : t.epochFound = s.epochFound
  agent : t.agent = s.agent
  last : t.lastEpochSeqSeen = s.lastEpochSeqSeen
  held : t.held = s.held
  le : s.epochSeq ≤ t.epochSeq

namespace ServerMove

section

variable (h : ServerMove s t)
include h

theorem scanning {work : List Work} (hs : Scanning s epochBefore work) : Scanning t epochBefore work := by
  -- a number that is the one before the scan again has not moved in between
  have hback : t.epochSeq = epochBefore → s.epochSeq = epochBefore := by
    have := hs.le
    have := h.le
    omega
  refine ⟨h.last.trans hs.last, hs.even, Nat.le_trans hs.le h.le, ?_, ?_⟩
  · intro heq
    rw [h.held]
    exact hs.held (hback heq)
  · intro heq
    exact hs.work (hback heq)

theorem loose (hs : Loose s) : Loose t := hs.imp h.held.trans fun hscan => h.last.symm ▸ h.scanning hscan

theorem loaded (hs : Loaded s first) : Loaded t first := by
  intro a ha
  exact ⟨Nat.le_trans (hs a ha).1 h.le, (hs a ha).2⟩

theorem agentInv {pc : Agent} (hs : AgentInv s pc) : AgentInv t pc := by
  cases pc with
  | closed => exact h.held.trans hs
  | idle => exact ⟨h.found.trans hs.1, h.loose hs.2⟩
  | reading attempt stage tries first =>
    cases stage with
    | beforeScan => exact ⟨h.found.trans hs.1, h.loose hs.2.1, h.loaded hs.2.2⟩
    | afterScan epochBefore => exact ⟨h.found.trans hs.1, h.scanning hs.2.1, h.loaded hs.2.2⟩
  | scanning attempt epochBefore secondPass i work => exact ⟨h.found.trans hs.1, h.scanning hs.2⟩
  | returned r =>
    refine ⟨h.found.trans hs.1, h.loose hs.2.1, fun hr => ?_⟩
    have hsettled := hs.2.2 hr
    refine ⟨h.last ▸ hsettled.even, h.last ▸ hsettled.lt, ?_⟩
    rw [h.held, h.last]
    exact hsettled.held

end

end ServerMove

theorem addFetch_eq {seq : Nat} (h : seq + 1 < word) : addFetch seq = seq + 1 := Nat.mod_eq_of_lt h

theorem missing_lt : EPOCH_SEQ_MISSING + 2 = word := by decide

theorem server_inv (hi : Inv s) (hok : Tracked s a) (h : server s a = some t) : Inv t := by
  have hmissing := missing_lt
  have hbound := hi.bound
  cases a with
  | construct =>
    simp only [server] at h
    split at h
    · cases h
    · cases h
      have hmove : ServerMove s { s with epochExists := true } := ⟨rfl, rfl, rfl, rfl, Nat.le_refl _⟩
      exact { hi with agent := hmove.agentInv hi.agent }
  | beginSession =>
    simp only [server] at h
    split at h
    · next hcond =>
      cases h
      have hroom : s.epochSeq + 2 < EPOCH_SEQ_MISSING := hok
      have hadd := addFetch_eq (show s.epochSeq + 1 < word by omega)
      have hmove : ServerMove s { s with epochSeq := addFetch s.epochSeq, resetting := true } :=
        ⟨rfl, rfl, rfl, rfl, by simp only [hadd]; omega⟩
      have hseq := hi.seq
      rw [if_neg hcond.2] at hseq
      refine ⟨?_, ?_, ?_, hi.table, hmove.agentInv hi.agent⟩
      · simp only [hadd, if_true]
        omega
      · simp only [hadd]
        omega
      · simp only [hadd]
        omega
    · cases h
  | finishSession =>
    simp only [server] at h
    split at h
    · next hcond =>
      cases h
      have hroom := hi.room hcond.1
      have hadd := addFetch_eq (show s.epochSeq + 1 < word by omega)
      have hmove : ServerMove s
          { s with epochSeq := addFetch s.epochSeq, resetting := false, session := s.session + 1 } :=
        ⟨rfl, rfl, rfl, rfl, by simp only [hadd]; omega⟩
      have hseq := hi.seq
      rw [if_pos hcond.1] at hseq
      refine ⟨?_, ?_, by simp, ?_, hmove.agentInv hi.agent⟩
      · simp only [hadd, Bool.false_eq_true, if_false]
        omega
      · simp only [hadd]
        omega
      · intro h hh
        have hnone := List.all_eq_true.mp hcond.2 _ hh
        cases hnone
    · cases h
  | add fd kind =>
    simp only [server] at h
    split at h
    · cases h
      have hmove : ServerMove s { s with table := s.table.set fd (some ⟨kind, s.session⟩) } :=
        ⟨rfl, rfl, rfl, rfl, Nat.le_refl _⟩
      refine { hi with table := ?_, agent := hmove.agentInv hi.agent }
      intro h hh
      obtain hold | hnew := List.mem_or_eq_of_mem_set hh
      · exact hi.table h hold
      · cases hnew
        rfl
    · cases h
  | clear fd =>
    simp only [server] at h
    split at h
    · cases h
      have hmove : ServerMove s { s with table := s.table.set fd none } := ⟨rfl, rfl, rfl, rfl, Nat.le_refl _⟩
      refine { hi with table := ?_, agent := hmove.agentInv hi.agent }
      intro h hh
      obtain hold | hnew := List.mem_or_eq_of_mem_set hh
      · exact hi.table h hold
      · cases hnew
    · cases h
  | _ => cases h

/-! ## The agent's steps -/

/-- The agent leaves the server's part of the memory alone. -/
structure AgentMove (s t : State) : Prop where
  seq : t.epochSeq = s.epochSeq
  table : t.table = s.table
  resetting : t.resetting = s.resetting
  session : t.session = s.session

theorem Inv.agentMove (hi : Inv s) (h : AgentMove s t) (ht : AgentInv t t.agent) : Inv t := by
  refine ⟨?_, ?_, ?_, ?_, ht⟩
  · rw [h.seq, h.session, h.resetting]
    exact hi.seq
  · rw [h.seq]
    exact hi.bound
  · rw [h.seq, h.resetting]
    exact hi.room
  · rw [h.table, h.session]
    exact hi.table

variable {attempt read : Nat} {outcome : Outcome}

theorem nextAttempt_inv (hfound : s.epochFound) (hs : Loose s) :
    AgentInv (nextAttempt s attempt) (nextAttempt s attempt).agent := by
  have hloose : Loose (nextAttempt s attempt) := hs.moved _
  by_cases hmore : attempt + 1 < maxAttempts
  · have hagent : (nextAttempt s attempt).agent = .reading (attempt + 1) .beforeScan 0 none := if_pos hmore
    rw [hagent]
    exact ⟨hfound, hloose, by simp [Loaded]⟩
  · have hagent : (nextAttempt s attempt).agent = .returned (-EAGAIN) := if_neg hmore
    rw [hagent]
    exact ⟨hfound, hloose, by simp [EAGAIN]⟩

theorem Inv.read_ne_missing (hi : Inv s) (hread : read = EPOCH_SEQ_UNSTABLE ∨ read = s.epochSeq ∧ read % 2 = 0) :
    read ≠ EPOCH_SEQ_MISSING := by
  have hbound := hi.bound
  have hunstable : EPOCH_SEQ_UNSTABLE = EPOCH_SEQ_MISSING + 1 := by decide
  obtain rfl | ⟨rfl, _⟩ := hread <;> omega

theorem beginScan_inv (hi : Inv s) (hfound : s.epochFound) (hs : Loose s)
    (hread : read = EPOCH_SEQ_UNSTABLE ∨ read = s.epochSeq ∧ read % 2 = 0) : Inv (beginScan s attempt read) := by
  simp only [beginScan, if_neg (hi.read_ne_missing hread)]
  split
  · exact hi.agentMove ⟨rfl, rfl, rfl, rfl⟩ (nextAttempt_inv hfound hs)
  · next hstable =>
    obtain ⟨rfl, heven⟩ := hread.resolve_left hstable
    split
    · next hsame =>
      refine hi.agentMove ⟨rfl, rfl, rfl, rfl⟩ ⟨hfound, rfl, ?_, Nat.le_of_eq hsame.symm, ?_, by simp⟩
      · exact hsame ▸ heven
      · intro _ p hp
        obtain hempty | hscan := hs
        · have hp' : p ∈ s.held := hp
          rw [hempty] at hp'
          cases hp'
        · exact hscan.held hsame p hp
    · exact hi.agentMove ⟨rfl, rfl, rfl, rfl⟩ ⟨hfound, rfl, heven, Nat.le_refl _, by simp [reset], by simp⟩

theorem endScan_inv (hi : Inv s) (hfound : s.epochFound) (hs : Scanning s epochBefore [])
    (hread : read = EPOCH_SEQ_UNSTABLE ∨ read = s.epochSeq ∧ read % 2 = 0) :
    Inv (endScan s attempt epochBefore read) := by
  have hmissing := missing_lt
  have hbound := hi.bound
  simp only [endScan, if_neg (hi.read_ne_missing hread)]
  split
  · exact hi.agentMove ⟨rfl, rfl, rfl, rfl⟩ (nextAttempt_inv (s := reset s) hfound (.inl rfl))
  · next hstable =>
    obtain ⟨rfl, heven⟩ := hread.resolve_left hstable
    split
    · next hsame =>
      have heq : s.epochSeq = epochBefore := by
        have := hs.last
        omega
      have hsettled : Settled { s with agent := .returned 0 } := by
        refine ⟨hs.last ▸ hs.even, ?_, fun p hp => ?_⟩
        · have hlast : s.lastEpochSeqSeen = s.epochSeq := hs.last.trans heq.symm
          simp only [hlast]
          omega
        · exact (hs.held heq p hp).trans hs.last.symm
      have hloose : Loose s := .inr (hs.last.symm ▸ hs)
      exact hi.agentMove ⟨rfl, rfl, rfl, rfl⟩ ⟨hfound, hloose.moved _, fun _ => hsettled⟩
    · exact hi.agentMove ⟨rfl, rfl, rfl, rfl⟩
        (nextAttempt_inv (s := { reset s with lastEpochSeqSeen := s.epochSeq }) hfound (.inl rfl))

section

variable {tries : Nat} {stage : Stage} (hi : Inv s) (hs : AgentInv s (.reading attempt stage tries first))
include hi hs

theorem haveRead_inv (hread : read = EPOCH_SEQ_UNSTABLE ∨ read = s.epochSeq ∧ read % 2 = 0) :
    Inv (haveRead s attempt stage read) := by
  cases stage with
  | beforeScan => exact beginScan_inv hi hs.1 hs.2.1 hread
  | afterScan epochBefore => exact endScan_inv hi hs.1 hs.2.1 hread

theorem reading_inv {tries' : Nat} {first' : Option Nat} (hfirst : Loaded s first') :
    Inv { s with agent := .reading attempt stage tries' first' } := by
  refine hi.agentMove ⟨rfl, rfl, rfl, rfl⟩ ?_
  cases stage with
  | beforeScan => exact ⟨hs.1, hs.2.1.moved _, hfirst⟩
  | afterScan epochBefore =>
    obtain ⟨hfound, hscan, _⟩ := hs
    exact ⟨hfound, hscan.moved _, hfirst⟩

theorem load_inv : Inv (load s attempt stage tries first) := by
  have hfound : s.epochFound := by
    cases stage with
    | beforeScan | afterScan epochBefore => exact hs.1
  have hloaded : Loaded s first := by
    cases stage with
    | beforeScan | afterScan epochBefore => exact hs.2.2
  have hretry : Inv (if tries + 1 < maxTries then { s with agent := .reading attempt stage (tries + 1) none }
      else haveRead s attempt stage EPOCH_SEQ_UNSTABLE) := by
    split
    · exact reading_inv hi hs (by simp [Loaded])
    · exact haveRead_inv hi hs (.inl rfl)
  simp only [load]
  rw [if_neg (not_not.mpr hfound)]
  cases first with
  | none =>
    simp only
    split
    · exact hretry
    · next heven =>
      refine reading_inv hi hs fun a ha => ?_
      cases ha
      exact ⟨Nat.le_refl _, by omega⟩
  | some a =>
    simp only
    split
    · next hsame => exact haveRead_inv hi hs (.inr ⟨hsame, (hloaded a rfl).2⟩)
    · exact hretry

end

theorem conclude_cases {id session : Nat} {rest : List Work} :
    (∀ p ∈ (conclude s outcome id session rest).2, p ∈ s.held ∨ p.2 = session) ∧
      ∀ w ∈ (conclude s outcome id session rest).1, w ∈ rest := by
  cases outcome with
  | recorded =>
    refine ⟨fun p hp => ?_, fun w hw => hw⟩
    obtain rfl | hold := List.mem_cons.mp hp
    · exact .inr rfl
    · exact .inl hold
  | ignored => exact ⟨fun p hp => .inl hp, fun w hw => hw⟩
  | failed => exact ⟨fun p hp => .inl hp, fun w hw => by cases hw⟩

/-- What a visit records or lets wait is of the session of the table, or waited before. -/
theorem visit_cases {w : Work} {rest : List Work} {session : Nat} (htable : ∀ h, some h ∈ s.table → h.session = session)
    (hwork : ∀ id k, .attach id k ∈ w :: rest → k = session) :
    (∀ p ∈ (visit s outcome w rest).2, p ∈ s.held ∨ p.2 = session) ∧
      ∀ id k, .attach id k ∈ (visit s outcome w rest).1 → k = session := by
  have hrest : ∀ id k, .attach id k ∈ rest → k = session := fun id k h => hwork id k (List.mem_cons_of_mem _ h)
  have hkeep : (∀ p ∈ s.held, p ∈ s.held ∨ p.2 = session) ∧ ∀ id k, .attach id k ∈ rest → k = session :=
    ⟨fun _ hp => .inl hp, hrest⟩
  cases w with
  | attach id k =>
    obtain ⟨hheld, hleft⟩ := @conclude_cases s outcome id k rest
    rw [hwork id k List.mem_cons_self] at hheld hleft
    rw [visit, hwork id k List.mem_cons_self]
    exact ⟨hheld, fun id' k' h => hrest id' k' (hleft _ h)⟩
  | handler id =>
    simp only [visit]
    split
    · exact hkeep
    · split
      · exact ⟨fun _ hp => .inl hp, fun id k h => by cases h⟩
      · split
        · exact hkeep
        · next h hslot =>
          have hmem : some h ∈ s.table := by
            rw [List.getD_eq_getElem?_getD] at hslot
            cases hget : s.table[id]? with
            | none => simp [hget] at hslot
            | some o =>
              rw [hget, Option.getD_some] at hslot
              exact hslot ▸ List.mem_of_getElem? hget
          have hsession := htable h hmem
          obtain ⟨hheld, hleft⟩ := @conclude_cases s outcome id h.session rest
          rw [hsession] at hheld hleft
          split
          · rw [hsession]
            exact ⟨hheld, fun id' k' h => hrest id' k' (hleft _ h)⟩
          · rw [hsession]
            exact ⟨hheld, fun id' k' h => hrest id' k' (hleft _ h)⟩
          · refine ⟨fun _ hp => .inl hp, fun id' k' h' => ?_⟩
            simp only [List.mem_cons, reduceCtorEq, false_or] at h'
            obtain heq | hold := h'
            · obtain ⟨_, rfl⟩ := Work.attach.inj heq
              exact hsession
            · exact hrest id' k' hold
          · exact hkeep

theorem scan_inv {i : Nat} {secondPass : Bool} {work : List Work} (hi : Inv s)
    (hs : AgentInv s (.scanning attempt epochBefore secondPass i work)) :
    Inv (scan s outcome attempt epochBefore secondPass i work) := by
  obtain ⟨hfound, hscan⟩ := hs
  cases work with
  | nil =>
    simp only [scan]
    split
    · refine hi.agentMove ⟨rfl, rfl, rfl, rfl⟩ ⟨hfound, { hscan with work := ?_ }⟩
      intro _ id k hmem
      split at hmem <;> simp at hmem
    · split
      · exact hi.agentMove ⟨rfl, rfl, rfl, rfl⟩
          ⟨hfound, hscan.moved _, by simp [Loaded]⟩
      · exact hi.agentMove ⟨rfl, rfl, rfl, rfl⟩ ⟨hfound, hscan.moved _⟩
  | cons w rest =>
    -- an unchanged number is even, so that the table is that of the session
    have hvisit : s.epochSeq = epochBefore → 2 * s.session = epochBefore ∧
        (∀ p ∈ (visit s outcome w rest).2, p ∈ s.held ∨ p.2 = s.session) ∧
        ∀ id k, .attach id k ∈ (visit s outcome w rest).1 → k = s.session := by
      intro heq
      have hseq := hi.seq
      have heven := hscan.even
      have hsession : 2 * s.session = epochBefore := by
        split at hseq <;> omega
      refine ⟨hsession, visit_cases hi.table fun id k hmem => ?_⟩
      have := hscan.work heq id k hmem
      omega
    refine hi.agentMove ⟨rfl, rfl, rfl, rfl⟩ ⟨hfound, hscan.last, hscan.even, hscan.le, ?_, ?_⟩
    · intro heq p hp
      obtain ⟨hsession, hheld, _⟩ := hvisit heq
      obtain hold | hnew := hheld p hp
      · exact hscan.held heq p hold
      · omega
    · intro heq id k hmem
      obtain ⟨hsession, _, hwork⟩ := hvisit heq
      have := hwork id k hmem
      omega

theorem agent_inv (hi : Inv s) (hok : Tracked s a) (h : agent s a = some t) : Inv t := by
  have hs := hi.agent
  unfold agent at h
  split at h
  · next hpc =>
    cases h
    rw [hpc] at hs
    exact hi.agentMove ⟨rfl, rfl, rfl, rfl⟩ ⟨hok, .inl hs⟩
  · next hpc =>
    cases h
    rw [hpc] at hs
    exact hi.agentMove ⟨rfl, rfl, rfl, rfl⟩ ⟨hs.1, hs.2.moved _, by simp [Loaded]⟩
  · next hpc =>
    cases h
    rw [hpc] at hs
    exact hi.agentMove ⟨rfl, rfl, rfl, rfl⟩ ⟨hs.1, hs.2.1.moved _, by simp [Loaded]⟩
  · next hpc =>
    cases h
    rw [hpc] at hs
    exact load_inv hi hs
  · next hpc =>
    cases h
    rw [hpc] at hs
    exact scan_inv hi hs
  · next hpc =>
    cases h
    rw [hpc] at hs
    have hloose : Loose s := .inr ⟨rfl, hs.2.last ▸ hs.2.even, hs.2.last ▸ hs.2.le, hs.2.last ▸ hs.2.held, by simp⟩
    exact hi.agentMove ⟨rfl, rfl, rfl, rfl⟩ ⟨hs.1, hloose.moved _⟩
  · cases h

theorem step_inv (hi : Inv s) (hok : Tracked s a) (h : step s a = some t) : Inv t := by
  unfold step at h
  split at h
  case h_6 | h_7 | h_8 | h_9 | h_10 => exact agent_inv hi hok h
  all_goals exact server_inv hi hok h

/-- Whenever a scan returns 0, in a run in which the sessions are tracked, the agent
holds handlers of one session, the recorded one. -/
theorem scan_holds_one_session (n : Nat) (s : State) (h : Reaches step Tracked (start n) s)
    (hret : s.agent = .returned 0) : OneSession s := by
  have hi : Inv s := h.invariant Inv (start_inv n) fun t a u ht hok hstep => step_inv ht hok hstep
  have hs := hi.agent
  rw [hret] at hs
  obtain ⟨heven, hlt, hheld⟩ := hs.2.2 rfl
  refine ⟨s.lastEpochSeqSeen / 2, ?_, fun p hp => ?_⟩
  · rw [Nat.mod_eq_of_lt (by omega)]
    omega
  · have := hheld p hp
    omega

/-- A scan of a table with two slots, of which the first holds a program. -/
def scanFirst : List Action := [.scan .ignored, .scan .recorded, .scan .ignored, .scan .ignored, .scan .ignored,
  .scan .ignored, .scan .ignored, .scan .ignored]

def session : List Action := [.beginSession, .clear 0, .clear 1, .finishSession]

theorem scan_holds_first_session : ∃ s,
    run step Tracked (start 2) ([.construct, .openShm] ++ session ++ [.add 0 .prog, .init, .load, .load] ++
      scanFirst ++ [.load, .load]) = some s ∧ s.agent = .returned 0 ∧ s.held = [(0, 1)] ∧ OneSession s := by
  have hrun : (run step Tracked (start 2) ([Action.construct, .openShm] ++ session ++
      [Action.add 0 .prog, .init, .load, .load] ++ scanFirst ++ [Action.load, .load])).map
        (fun s => (s.agent, s.held)) =
      some (.returned 0, [(0, 1)]) := by decide +kernel
  obtain ⟨s, hs, hpair⟩ := Option.map_eq_some_iff.mp hrun
  obtain ⟨hret, hheld⟩ := Prod.mk.inj hpair
  exact ⟨s, hs, hret, hheld, scan_holds_one_session 2 s (reaches_of_run _ hs) hret⟩

/-- And one of a table of which the second slot holds a program. -/
def scanSecond : List Action := [.scan .ignored, .scan .ignored, .scan .recorded, .scan .ignored, .scan .ignored,
  .scan .ignored, .scan .ignored, .scan .ignored]

/-- Two sessions, and a scan in each, of an agent that has opened the memory before the
server has constructed the epoch object. -/
def earlyOpen : List Action :=
  [.openShm, .construct] ++ session ++ [.add 0 .prog, .init, .load] ++ scanFirst ++ [.load] ++
    session ++ [.add 1 .prog, .init, .load] ++ scanSecond ++ [.load]

theorem early_agent_mixes_sessions : ∃ s, run step (fun _ _ => True) (start 2) earlyOpen = some s ∧
    s.agent = .returned 0 ∧ s.epochSeq = 4 ∧ s.table = [none, some ⟨.prog, 2⟩] ∧ s.lastEpochSeqSeen = 0 ∧
    s.held = [(1, 2), (0, 1)] ∧ ¬ OneSession s := by
  have hrun : run step (fun _ _ => True) (start 2) earlyOpen =
      some ⟨true, 4, [none, some ⟨.prog, 2⟩], false, 2, false, .returned 0, 0, [(1, 2), (0, 1)]⟩ := by decide +kernel
  refine ⟨_, hrun, rfl, rfl, rfl, rfl, rfl, fun ⟨k, _, hone⟩ => ?_⟩
  have hsecond : 2 = k := hone (1, 2) (by simp)
  have hfirst : 1 = k := hone (0, 1) (by simp)
  omega

end SessionScan
