import Ubpftrace.RecordCounts

/-!
# The life of the agent manager

`ubpf_agent_manager`: `init` opens the container file of the node leader,
`shutdown` stops the worker and closes it, and `log_event` initialises the
manager again if a shutdown came before it. The path depends only on the
environment, and `open` truncates, so the file a shutdown has closed keeps its
chunks exactly as long as no later `init` is led to it.

The calls come one after the other; between them the worker thread hands over
chunks. What it hands over is the subject of `ShmBuffer` and arbitrary here.
-/

namespace AgentManager

open Container Function
open ShmBuffer (Chunk containerCalls)
open ShortWrites (File)
open Runs (Reaches run reaches_of_run)

/-- What one call of `init` finds: environment variables, topology, and the
answers of the file system. `openFile` resolves a path to the file that
`O_CREAT | O_TRUNC` opens, and `os` is how that descriptor takes its writes. -/
structure Env where
  disableAgent : Option String
  outputDir : Option String
  fileExists : String → Bool
  createDirectories : String → Bool
  jobId : UInt32
  nodeId : UInt32
  localRank : UInt32
  nodename : List UInt8
  attaches : Bool
  openFile : String → Option Nat
  os : Nat → Int
  monotonicNs : UInt64
  wallclockNs : UInt64

def Env.disabled (e : Env) : Prop := e.disableAgent = some "1" ∨ e.disableAgent = some "true"

instance (e : Env) : Decidable e.disabled := inferInstanceAs (Decidable (_ ∨ _))

def scratchTraces : String := "/pscratch/sd/s/sgkim/tchoe_home/FGCS/ubpftrace/traces"
def homeTraces : String := "/pscratch/sd/s/sgkim/tchoe_home/traces"

/-- The output directory; one that cannot be created is replaced by the current one. -/
def Env.outDir (e : Env) : String :=
  let dir :=
    match e.outputDir with
    | some dir => dir
    | none =>
      if e.fileExists scratchTraces then scratchTraces
      else if e.fileExists homeTraces then homeTraces
      else "./traces"
  if e.createDirectories dir then dir else "."

def Env.outputFilepath (e : Env) : String :=
  e.outDir ++ "/ubpftrace_" ++ toString e.jobId.toNat ++ "_node_" ++ toString e.nodeId.toNat ++ ".ubpt"

def Env.header (e : Env) : FileHeader :=
  newHeader e.jobId e.nodeId (some e.nodename) e.monotonicNs e.wallclockNs

/-- An open container writer with the file it writes. -/
structure Opened where
  file : Nat
  os : Nat → Int
  writer : Writer

/-- A file that a shutdown has closed, with what stood in it before the index table. -/
structure Closed where
  file : Nat
  area : List UInt8

/-- The manager and the files it can reach; `closed` is history. -/
structure State where
  initialized : Bool
  shutdownCalled : Bool
  shm : Bool
  isCreator : Bool
  outputFilepath : String
  writer : Option Opened
  worker : Bool
  files : Nat → List UInt8
  closed : List Closed

def start (files : Nat → List UInt8) : State := ⟨false, false, false, false, "", none, false, files, []⟩

/-- `writer_->open`, and `writer_.reset()` if it fails. The file is truncated
also if its header is then not written in one piece. -/
def State.openContainer (s : State) (e : Env) : State :=
  match e.openFile e.outputFilepath with
  | none => { s with writer := none }
  | some id =>
    { s with
      files := update s.files id (File.write e.os ⟨[], 0, false⟩ e.header.encode).bytes
      writer := (openFile e.os e.header).map fun w => ⟨id, e.os, w⟩ }

def init (e : Env) (s : State) : Bool × State :=
  if e.disabled then (false, s)
  else if s.initialized = true then (true, s)
  else
    let found := { s with
      shutdownCalled := false
      isCreator := e.localRank == 0
      outputFilepath := e.outputFilepath
      shm := e.attaches }
    if e.attaches = false then (false, found)
    else
      let started := if e.localRank = 0 then { found.openContainer e with worker := true } else found
      (true, { started with initialized := true })

/-- The flag says whether the call goes on to reserve a record. -/
def logEvent (e : Env) (s : State) : Bool × State :=
  if s.initialized = true then (s.shm, s)
  else
    let r := init e s
    (r.1 && r.2.shm, r.2)

/-- The worker's calls of the container writer, if there is one. -/
def State.work (z : Lz4) (s : State) (cs : List Call) : State :=
  match s.writer with
  | none => s
  | some o =>
    let w := o.writer.calls z o.os cs
    { s with
      writer := some { o with writer := w }
      files := update s.files o.file w.file.bytes }

/-- `writer_->close()` and `writer_.reset()`. -/
def State.closeContainer (s : State) : State :=
  match s.writer with
  | none => s
  | some o =>
    { s with
      writer := none
      files := update s.files o.file (o.writer.close o.os).file.bytes
      closed := s.closed ++ [⟨o.file, (o.writer.flushStagingBufferLocked o.os).file.bytes⟩] }

/-- `worker_->stop()`: the worker's last flushes, and one flush of the writer. -/
def State.stopWorker (z : Lz4) (s : State) (finals : List Chunk) : State :=
  if s.worker = true then { s.work z (containerCalls finals ++ [.flush]) with worker := false } else s

def shutdown (z : Lz4) (finals : List Chunk) (s : State) : State :=
  if s.shutdownCalled = true then s
  else
    { (s.stopWorker z finals).closeContainer with
      shutdownCalled := true
      shm := false
      initialized := false }

inductive Action where
  | init (e : Env)
  | logEvent (e : Env)
  | shutdown (finals : List Chunk)
  | swapAndFlush (k : Chunk)

/-- A call, or a flush by the running worker thread. -/
def step (z : Lz4) (s : State) : Action → Option State
  | .init e => some (init e s).2
  | .logEvent e => some (logEvent e s).2
  | .shutdown finals => some (shutdown z finals s)
  | .swapAndFlush k => if s.worker = true then some (s.work z (containerCalls [k])) else none

/-- The chunk stands at this offset of the file. -/
def StoredAt (z : Lz4) (file : List UInt8) (offset : Nat) (a : ChunkArgs) : Prop :=
  a.Taken z ∧ fileHeaderSize ≤ offset ∧ ∃ pre post, file = pre ++ a.image z ++ post ∧ pre.length = offset

/-- Every chunk that stood in a file when it was closed still stands there. -/
def Kept (z : Lz4) (s : State) : Prop :=
  ∀ c ∈ s.closed, ∀ offset a, StoredAt z c.area offset a → StoredAt z (s.files c.file) offset a

def Closed.Chunkless (z : Lz4) (c : Closed) : Prop := ∀ offset a, ¬ StoredAt z c.area offset a

/-- The file that `init` would truncate. -/
def Env.truncates (e : Env) (s : State) : Option Nat :=
  if e.disabled ∨ s.initialized = true ∨ e.attaches = false ∨ e.localRank ≠ 0 then none
  else e.openFile e.outputFilepath

def truncates (s : State) : Action → Option Nat
  | .init e | .logEvent e => e.truncates s
  | .shutdown _ | .swapAndFlush _ => none

/-- The action truncates no file in which a shutdown has left a chunk. -/
def Spares (z : Lz4) (s : State) (a : Action) : Prop :=
  ∀ id, truncates s a = some id → ∀ c ∈ s.closed, c.file = id → c.Chunkless z

variable {z : Lz4} {s : State} {a : ChunkArgs} {offset : Nat}

theorem StoredAt.append {file : List UInt8} (h : StoredAt z file offset a) (tail : List UInt8) :
    StoredAt z (file ++ tail) offset a := by
  obtain ⟨ht, hoff, pre, post, rfl, hlen⟩ := h
  exact ⟨ht, hoff, pre, post ++ tail, by simp only [List.append_assoc], hlen⟩

theorem StoredAt.header_lt {file : List UInt8} (h : StoredAt z file offset a) : fileHeaderSize < file.length := by
  obtain ⟨ht, hoff, pre, post, rfl, hlen⟩ := h
  have hpos := List.length_pos_iff.mpr ht.2
  simp only [ChunkArgs.image, List.length_append]
  omega

theorem length_truncated (os : Nat → Int) (h : FileHeader) :
    (File.write os ⟨[], 0, false⟩ h.encode).bytes.length ≤ fileHeaderSize := by
  rw [File.write, List.nil_append, List.length_take, length_fileHeader]
  exact Nat.min_le_right _ _

theorem close_append (os : Nat → Int) (w : Writer) :
    ∃ tail, (w.close os).file.bytes = (w.flushStagingBufferLocked os).file.bytes ++ tail := by
  rw [Writer.close]
  split
  · next hclosed =>
    exact ⟨[], by rw [Writer.flushStagingBufferLocked, if_pos (Or.inl hclosed), List.append_nil]⟩
  · rw [Writer.writeIndex]
    split
    · exact ⟨_, rfl⟩
    · simp only [File.write, List.append_assoc]
      exact ⟨_, rfl⟩

/-- What an `init` does to the files: it leaves them alone, or it truncates one
and opens a writer on it. -/
inductive InitMove (e : Env) (s s' : State) : Prop where
  | spare (untouched : e.truncates s = none) (closed : s'.closed = s.closed) (files : s'.files = s.files)
      (again : s.initialized = true → s' = s) (writer : s'.writer = s.writer ∨ s'.writer = none)
  | truncate (id : Nat) (target : e.truncates s = some id) (closed : s'.closed = s.closed)
      (files : s'.files = update s.files id (File.write e.os ⟨[], 0, false⟩ e.header.encode).bytes)
      (initialized : s'.initialized = true)
      (writer : s'.writer = (openFile e.os e.header).map fun w => ⟨id, e.os, w⟩)

theorem init_cases (e : Env) (s : State) : InitMove e s (init e s).2 := by
  by_cases hd : e.disabled
  · apply InitMove.spare <;> simp [init, Env.truncates, hd]
  · by_cases hi : s.initialized = true
    · apply InitMove.spare <;> simp [init, Env.truncates, hd, hi]
    · cases ha : e.attaches with
      | false => apply InitMove.spare <;> simp [init, Env.truncates, hd, hi, ha]
      | true =>
        by_cases hr : e.localRank = 0
        · cases ho : e.openFile e.outputFilepath with
          | none => apply InitMove.spare <;> simp [init, Env.truncates, State.openContainer, hd, hi, ha, hr, ho]
          | some id =>
            apply InitMove.truncate id <;> simp [init, Env.truncates, State.openContainer, hd, hi, ha, hr, ho]
        · apply InitMove.spare <;> simp [init, Env.truncates, hd, hi, ha, hr]

theorem logEvent_state (e : Env) (s : State) : (logEvent e s).2 = s ∧ s.initialized = true ∨
    (logEvent e s).2 = (init e s).2 := by
  rw [logEvent]
  split
  · next hi => exact Or.inl ⟨rfl, hi⟩
  · exact Or.inr rfl

/-- What every call keeps: a writer exists only while initialised, its file
holds what it has written and no chunk of a closed one, and a closed file with
a chunk only grows. -/
structure Inv (z : Lz4) (s : State) : Prop where
  idle : s.initialized = false → s.writer = none
  written : ∀ o, s.writer = some o → s.files o.file = o.writer.file.bytes
  apart : ∀ o, s.writer = some o → ∀ c ∈ s.closed, c.file = o.file → c.Chunkless z
  grown : ∀ c ∈ s.closed, c.Chunkless z ∨ ∃ tail, s.files c.file = c.area ++ tail

theorem Inv.kept (h : Inv z s) : Kept z s := by
  intro c hc offset a hstored
  obtain hnone | ⟨tail, htail⟩ := h.grown c hc
  · exact absurd hstored (hnone offset a)
  · rw [htail]
    exact hstored.append tail

theorem start_inv (z : Lz4) (files : Nat → List UInt8) : Inv z (start files) where
  idle := fun _ => rfl
  written := fun o ho => by cases ho
  apart := fun o ho => by cases ho
  grown := fun c hc => by cases hc

section

variable (h : Inv z s) {s' : State}
include h

/-- The invariant does not see the other fields of the manager. -/
theorem Inv.keep (hclosed : s'.closed = s.closed) (hfiles : s'.files = s.files) (hwriter : s'.writer = s.writer)
    (hidle : s'.initialized = false → s.writer = none) : Inv z s' where
  idle := fun hi => hwriter.trans (hidle hi)
  written := by rw [hwriter, hfiles]; exact h.written
  apart := by rw [hwriter, hclosed]; exact h.apart
  grown := by rw [hclosed, hfiles]; exact h.grown

/-- A manager without a writer need not be initialised. -/
theorem Inv.detach (hclosed : s'.closed = s.closed) (hfiles : s'.files = s.files) (hwriter : s'.writer = none) :
    Inv z s' where
  idle := fun _ => hwriter
  written := by rw [hwriter]; nofun
  apart := by rw [hwriter]; nofun
  grown := by rw [hclosed, hfiles]; exact h.grown

theorem Inv.grown_update {id : Nat} (hfree : ∀ c ∈ s.closed, c.file = id → c.Chunkless z)
    (bytes : List UInt8) : ∀ c ∈ s.closed,
      c.Chunkless z ∨ ∃ tail, update s.files id bytes c.file = c.area ++ tail := by
  intro c hc
  by_cases hfile : c.file = id
  · exact Or.inl (hfree c hc hfile)
  · rw [update_of_ne hfile]
    exact h.grown c hc

theorem init_inv (e : Env)
    (hsp : ∀ id, e.truncates s = some id → ∀ c ∈ s.closed, c.file = id → c.Chunkless z) :
    Inv z (init e s).2 := by
  cases init_cases e s with
  | spare _ hclosed hfiles hagain hwriter =>
    obtain hw | hw := hwriter
    · apply h.keep hclosed hfiles hw
      intro hi
      cases hs : s.initialized with
      | true =>
        rw [hagain hs, hs] at hi
        cases hi
      | false => exact h.idle hs
    · exact h.detach hclosed hfiles hw
  | truncate id hid hclosed hfiles hinit hwriter =>
    refine ⟨fun hi => ?_, ?_, ?_, ?_⟩
    · rw [hinit] at hi
      cases hi
    · intro o ho
      rw [hwriter] at ho
      obtain ⟨w, hw, rfl⟩ := Option.map_eq_some_iff.mp ho
      rw [hfiles, update_self]
      rw [openFile] at hw
      split at hw
      · obtain rfl := Option.some.inj hw
        rfl
      · cases hw
    · intro o ho
      rw [hwriter] at ho
      obtain ⟨w, -, rfl⟩ := Option.map_eq_some_iff.mp ho
      rw [hclosed]
      exact hsp id hid
    · rw [hclosed, hfiles]
      exact h.grown_update (hsp id hid) _

theorem work_inv (cs : List Call) : Inv z (s.work z cs) := by
  cases ho : s.writer with
  | none => simpa [State.work, ho] using h
  | some o =>
    simp only [State.work, ho]
    refine ⟨?_, ?_, ?_, h.grown_update (h.apart o ho) _⟩
    · intro hi
      have hnone := h.idle hi
      rw [ho] at hnone
      cases hnone
    · intro o' ho'
      obtain rfl := Option.some.inj ho'
      exact update_self _ _ _
    · intro o' ho' c hc hfile
      obtain rfl := Option.some.inj ho'
      exact h.apart o ho c hc hfile

theorem closeContainer_inv : Inv z s.closeContainer ∧ s.closeContainer.writer = none := by
  cases ho : s.writer with
  | none => simpa [State.closeContainer, ho] using h
  | some o =>
    have heq : s.closeContainer = { s with
        writer := none
        files := update s.files o.file (o.writer.close o.os).file.bytes
        closed := s.closed ++ [⟨o.file, (o.writer.flushStagingBufferLocked o.os).file.bytes⟩] } := by
      rw [State.closeContainer, ho]
    rw [heq]
    refine ⟨⟨fun _ => rfl, nofun, nofun, ?_⟩, rfl⟩
    intro c hc
    obtain hc | hc := List.mem_append.mp hc
    · exact h.grown_update (h.apart o ho) _ c hc
    · obtain rfl := List.mem_singleton.mp hc
      obtain ⟨tail, htail⟩ := close_append o.os o.writer
      exact Or.inr ⟨tail, (update_self _ _ _).trans htail⟩

theorem stopWorker_inv (finals : List Chunk) : Inv z (s.stopWorker z finals) := by
  rw [State.stopWorker]
  split
  · have hw := work_inv h (containerCalls finals ++ [Call.flush])
    exact hw.keep rfl rfl rfl hw.idle
  · exact h

theorem shutdown_inv (finals : List Chunk) : Inv z (shutdown z finals s) := by
  rw [shutdown]
  split
  · exact h
  · obtain ⟨hi, hw⟩ := closeContainer_inv (stopWorker_inv h finals)
    exact hi.detach rfl rfl hw

theorem step_inv (a : Action) (hsp : Spares z s a) (hs : step z s a = some s') : Inv z s' := by
  cases a with
  | init e =>
    cases hs
    exact init_inv h e hsp
  | logEvent e =>
    cases hs
    obtain ⟨hsame, -⟩ | hinit := logEvent_state e s
    · rw [hsame]; exact h
    · rw [hinit]; exact init_inv h e hsp
  | shutdown finals =>
    cases hs
    exact shutdown_inv h finals
  | swapAndFlush k =>
    simp only [step] at hs
    split at hs
    · cases hs
      exact work_inv h _
    · cases hs

end

theorem reaches_inv {files : Nat → List UInt8} (h : Reaches (step z) (Spares z) (start files) s) : Inv z s :=
  h.invariant (Inv z) (start_inv z files) fun _ a _ hi hok hs => step_inv hi a hok hs

/-- A truncated file has lost what stood behind its header. -/
theorem not_kept_of_truncated {e : Env} {id : Nat} (hid : e.truncates s = some id) {c : Closed} (hc : c ∈ s.closed)
    (hfile : c.file = id) (hst : StoredAt z c.area offset a) : ¬ Kept z (init e s).2 := by
  intro hkept
  cases init_cases e s with
  | spare hnone =>
    rw [hnone] at hid
    cases hid
  | truncate id' hid' hclosed hfiles =>
    obtain rfl := Option.some.inj (hid.symm.trans hid')
    have hlt := (hkept c (hclosed ▸ hc) offset a hst).header_lt
    rw [hfiles, hfile, update_self] at hlt
    have hle := length_truncated e.os e.header
    omega

/-- In every sequence of calls none of which truncates a file with a stored
chunk, the chunks of all closed files are kept, and the next call keeps them
exactly if it is again no such call. -/
theorem closed_chunks_kept_iff (z : Lz4) (files : Nat → List UInt8) (s s' : State) (a : Action)
    (h : Reaches (step z) (Spares z) (start files) s) (hs : step z s a = some s') :
    Kept z s ∧ (Kept z s' ↔ Spares z s a) := by
  have hinv := reaches_inv h
  have htrunc : ∀ e, Kept z (init e s).2 →
      ∀ id, e.truncates s = some id → ∀ c ∈ s.closed, c.file = id → c.Chunkless z :=
    fun e hkept id hid c hc hfile offset b hst => not_kept_of_truncated hid hc hfile hst hkept
  refine ⟨hinv.kept, ?_, fun hsp => (step_inv hinv a hsp hs).kept⟩
  intro hkept
  cases a with
  | init e =>
    cases hs
    exact htrunc e hkept
  | logEvent e =>
    cases hs
    obtain ⟨-, hi⟩ | hinit := logEvent_state e s
    · intro id hid
      simp [truncates, Env.truncates, hi] at hid
    · exact htrunc e (hinit ▸ hkept)
  | shutdown finals | swapAndFlush k =>
    intro id hid
    cases hid

/-- The leader of a node whose paths all resolve to one file that takes every write. -/
def leader : Env where
  disableAgent := none
  outputDir := none
  fileExists := fun _ => false
  createDirectories := fun _ => true
  jobId := 7
  nodeId := 0
  localRank := 0
  nodename := []
  attaches := true
  openFile := fun _ => some 0
  os := fun _ => 2 ^ 20
  monotonicNs := 0
  wallclockNs := 0

theorem leader_truncates (hi : s.initialized = false) : leader.truncates s = some 0 := by
  rw [Env.truncates, if_neg (by simp [Env.disabled, hi, leader])]
  rfl

/-- The manager after `init`, one flush of the worker and `shutdown`. -/
def flushedAndClosed (z : Lz4) (k : Chunk) : State :=
  shutdown z [] ((init leader (start fun _ => [])).2.work z (containerCalls [k]))

theorem flushedAndClosed_reaches (z : Lz4) (k : Chunk) :
    Reaches (step z) (Spares z) (start fun _ => []) (flushedAndClosed z k) := by
  refine Reaches.trans (Reaches.single (a := .init leader) (fun _ _ c hc => by cases hc) rfl) ?_
  refine Reaches.trans (Reaches.single (a := .swapAndFlush k) (fun _ hid => by cases hid) rfl) ?_
  exact Reaches.single (a := .shutdown []) (fun _ hid => by cases hid) rfl

theorem exists_stored :
    ∃ t k c, Reaches (ShmBuffer.step ShmBuffer.solo) ShmBuffer.Regular (ShmBuffer.init Unit) t ∧
      t.log.chunks = [k] ∧ (flushedAndClosed literalCodec k).initialized = false ∧
      c ∈ (flushedAndClosed literalCodec k).closed ∧ c.file = 0 ∧
        StoredAt literalCodec c.area fileHeaderSize k.args := by
  have hrun : (run (ShmBuffer.step ShmBuffer.solo) ShmBuffer.Regular (ShmBuffer.init Unit)
      (ShmBuffer.logSteps () ShmBuffer.probe ++ ShmBuffer.flushSteps false)).map (fun t => t.log.chunks.map fun k =>
        (decide (k.args.Taken literalCodec), (flushedAndClosed literalCodec k).initialized,
          (flushedAndClosed literalCodec k).closed.map fun c =>
            (c.file, decide (c.area = leader.header.encode ++ k.args.image literalCodec)))) =
      some [(true, false, [(0, true)])] := by decide +kernel
  obtain ⟨t, ht, hchunks⟩ := Option.map_eq_some_iff.mp hrun
  obtain ⟨k, hk, hstored⟩ := List.map_eq_singleton_iff.mp hchunks
  simp only [Prod.mk.injEq, decide_eq_true_eq, List.map_eq_singleton_iff] at hstored
  obtain ⟨htaken, hinit, c, hclosed, hfile, harea⟩ := hstored
  refine ⟨t, k, c, reaches_of_run _ ht, hk, hinit, by simp [hclosed], hfile, htaken, Nat.le_refl _,
    leader.header.encode, [], ?_, length_fileHeader _⟩
  rw [harea, List.append_nil]

/-- The manager with one stored chunk is only ever led back to its file. -/
theorem closed_chunks_kept_iff_leader :
    ∃ k s s', Reaches (step literalCodec) (Spares literalCodec) (start fun _ => []) s ∧
      s = flushedAndClosed literalCodec k ∧ s.closed ≠ [] ∧
      step literalCodec s (.logEvent leader) = some s' ∧ Kept literalCodec s ∧
      (Kept literalCodec s' ↔ Spares literalCodec s (.logEvent leader)) := by
  obtain ⟨-, k, c, -, -, -, hc, -⟩ := exists_stored
  have hreach := flushedAndClosed_reaches literalCodec k
  exact ⟨k, _, _, hreach, rfl, List.ne_nil_of_mem hc, rfl,
    closed_chunks_kept_iff literalCodec _ _ _ (.logEvent leader) hreach rfl⟩

/-- One event is logged and flushed, `shutdown` closes the file, and the next
`log_event` initialises the manager again and truncates it. -/
theorem log_after_shutdown_truncates :
    ∃ t k s s', Reaches (ShmBuffer.step ShmBuffer.solo) ShmBuffer.Regular (ShmBuffer.init Unit) t ∧
      t.log.chunks = [k] ∧
      run (step literalCodec) (fun _ _ => True) (start fun _ => [])
        [.init leader, .swapAndFlush k, .shutdown []] = some s ∧
      step literalCodec s (.logEvent leader) = some s' ∧
      (∃ c ∈ s.closed, StoredAt literalCodec c.area fileHeaderSize k.args) ∧
      ¬ Kept literalCodec s' := by
  obtain ⟨t, k, c, hreach, hchunks, hinit, hc, hfile, hst⟩ := exists_stored
  have hlazy : (logEvent leader (flushedAndClosed literalCodec k)).2 =
      (init leader (flushedAndClosed literalCodec k)).2 := by
    rw [logEvent, if_neg (by simp [hinit])]
  refine ⟨t, k, flushedAndClosed literalCodec k, _, hreach, hchunks, rfl, rfl, ⟨c, hc, hst⟩, ?_⟩
  rw [hlazy]
  exact not_kept_of_truncated (leader_truncates hinit) hc hfile hst

end AgentManager
