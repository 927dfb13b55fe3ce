import Ubpftrace.EpochLedger
import Ubpftrace.EventRecord

/-!
# The node-local double buffer, its writers and its flusher

The shared segment of `ubpf_shm_buffer.hpp` with any number of threads in
`log_event` (reserve, fill, commit) and one asynchronous worker in
`swap_and_flush`. Every atomic access of the source is one step, and so is
every byte a writer stores; the steps interleave in any order. Counters wrap
at the width of their C++ type.

The `Log` is history: no step reads it. It names epochs of a buffer by the
number of resets before them and records what was reserved, committed and
handed over.
-/

namespace ShmBuffer

open EventRecord Function
open EpochLedger (Extent)

def maxLocalRanks : Nat := 256
def bufferCapacity : Nat := 16 * 1024 * 1024
def maxProbeRetries : Nat := 2

/-- The bound of the drain loop in `swap_and_flush`. -/
def spinLimit : Nat := 500

def add32 (x n : Nat) : Nat := (x + n) % 2 ^ 32
def sub32 (x n : Nat) : Nat := (x + (2 ^ 32 - n)) % 2 ^ 32
def add64 (x n : Nat) : Nat := (x + n) % 2 ^ 64

theorem add64_eq {x n : Nat} (h : x + n < 2 ^ 64) : add64 x n = x + n := Nat.mod_eq_of_lt h

/-- The low half of `active_epoch_buffer`. -/
def bufIdx (word : Nat) : Nat := word % 2 ^ 32

/-- The high half of `active_epoch_buffer`. -/
def epoch (word : Nat) : Nat := word / 2 ^ 32 % 2 ^ 32

/-- The word `swap_and_flush` stores: the next epoch, and the other buffer. The
low half of the shifted epoch is zero, so the source's `|` is a sum. -/
def nextWord (word : Nat) : Nat := add32 (epoch word) 1 * 2 ^ 32 + sub32 1 (bufIdx word)

structure PerRankStats where
  droppedEvents : Nat
  recordedEvents : Nat
  deriving DecidableEq

structure BufferBlock where
  writeOffset : Nat
  activeWriters : Nat
  data : Nat → UInt8

structure NodeShm where
  activeEpochBuffer : Nat
  rankStats : Nat → PerRankStats
  buffers : Nat → BufferBlock

/-- The arguments of one `log_event` call; `payload_len` is a `uint32_t`. A null pointer comes
with length 0 only: with another length the old bytes would stay where the payload belongs. -/
structure Event where
  eventType : UInt16
  payload : List UInt8
  payload_lt : payload.length < 2 ^ 32
  deriving DecidableEq

def Event.recordLen (ev : Event) : Nat := (headerSize + ev.payload.length) % 2 ^ 32

/-- What a thread inherits from the agent manager of its process. -/
structure Thread where
  localRank : Nat
  rank : UInt32
  deriving DecidableEq

/-- The record after `hdr->timestamp_ns` has been taken. -/
def Event.stamp (ev : Event) (rank : UInt32) (now : Nat) : Record where
  rank := rank.toUInt16
  eventType := ev.eventType
  timestampNs := .ofNat now
  payload := ev.payload

/-- The next access of a thread in `log_event`. -/
inductive Writer where
  | idle
  | load (ev : Event) (retry : Nat)
  | register (ev : Event) (retry current : Nat)
  | verify (ev : Event) (retry current : Nat)
  | release (ev : Event) (retry current : Nat)
  | reserve (ev : Event) (buf : Nat)
  | abort (buf : Nat)
  | drop
  | stamp (ev : Event) (buf offset : Nat)
  | write (rec : Record) (buf offset done : Nat)
  | count
  deriving DecidableEq

/-- The next access of the worker in `swap_and_flush`. -/
inductive Worker where
  | idle
  | load (force : Bool)
  | peek (force : Bool) (current : Nat)
  | swap (current : Nat)
  | drain (buf spins : Nat)
  | measure (buf : Nat)
  | stream (buf len : Nat)
  | stats (buf len rank dropped recorded : Nat)
  | write (buf len dropped recorded : Nat)
  | recycle (buf : Nat)
  deriving DecidableEq

structure Commit where
  extent : Extent
  record : Record
  localRank : Nat
  deriving DecidableEq

/-- The arguments of one `write_chunk` call, with the epoch they were taken from. -/
structure Chunk where
  buf : Nat
  gen : Nat
  len : Nat
  data : Nat → UInt8
  recordCount : Nat
  droppedCount : Nat
  startNs : Nat
  endNs : Nat

/-- A range handed to `process_chunk`. -/
structure Streamed where
  buf : Nat
  gen : Nat
  len : Nat
  data : Nat → UInt8

structure Log where
  resets : Nat → Nat
  grants : List Extent
  commits : List Commit
  streamed : List Streamed
  chunks : List Chunk

structure State (ι : Type) where
  shm : NodeShm
  writers : ι → Writer
  worker : Worker
  now : Nat
  lastFlushNs : Nat
  log : Log

/-- The segment after its creator has cleared it, with nothing running. -/
def init (ι : Type) : State ι where
  shm := ⟨0, fun _ => ⟨0, 0⟩, fun _ => ⟨0, 0, fun _ => 0⟩⟩
  writers := fun _ => .idle
  worker := .idle
  now := 0
  lastFlushNs := 0
  log := ⟨fun _ => 0, [], [], [], []⟩

variable {ι : Type}

def State.buffer (s : State ι) (b : Nat) : BufferBlock := s.shm.buffers b

def State.setBuffer (s : State ι) (b : Nat) (block : BufferBlock) : State ι :=
  { s with shm := { s.shm with buffers := update s.shm.buffers b block } }

def State.setStats (s : State ι) (r : Nat) (stats : PerRankStats) : State ι :=
  { s with shm := { s.shm with rankStats := update s.shm.rankStats r stats } }

/-- `active_writers.fetch_add(1)`. -/
def State.enter (s : State ι) (b : Nat) : State ι :=
  s.setBuffer b { s.buffer b with activeWriters := add32 (s.buffer b).activeWriters 1 }

/-- `active_writers.fetch_sub(1)`. -/
def State.leave (s : State ι) (b : Nat) : State ι :=
  s.setBuffer b { s.buffer b with activeWriters := sub32 (s.buffer b).activeWriters 1 }

/-- `write_offset.fetch_add(n)`. -/
def State.advance (s : State ι) (b n : Nat) : State ι :=
  s.setBuffer b { s.buffer b with writeOffset := add64 (s.buffer b).writeOffset n }

def State.store (s : State ι) (b a : Nat) (x : UInt8) : State ι :=
  s.setBuffer b { s.buffer b with data := update (s.buffer b).data a x }

/-- `write_offset.store(0)`, which the log counts as the end of an epoch. -/
def State.reset (s : State ι) (b : Nat) : State ι :=
  { s.setBuffer b { s.buffer b with writeOffset := 0 } with
    log := { s.log with resets := update s.log.resets b (s.log.resets b + 1) } }

/-- The epoch buffer `b` is in, as the log names it. -/
def State.extent (s : State ι) (b offset len : Nat) : Extent := ⟨b, s.log.resets b, offset, len⟩

def State.logGrant (s : State ι) (e : Extent) : State ι :=
  { s with log := { s.log with grants := s.log.grants ++ [e] } }

def State.logCommit (s : State ι) (c : Commit) : State ι :=
  { s with log := { s.log with commits := s.log.commits ++ [c] } }

variable (s : State ι)

@[simp] theorem setBuffer_same (b : Nat) (block : BufferBlock) :
    (s.setBuffer b block).buffer b = block := by simp [State.setBuffer, State.buffer]
@[simp] theorem setBuffer_other (b c : Nat) (block : BufferBlock) (h : c ≠ b) :
    (s.setBuffer b block).buffer c = s.buffer c := by simp [State.setBuffer, State.buffer, h]

theorem buffer_setBuffer (b c : Nat) (block : BufferBlock) :
    (s.setBuffer b block).buffer c = if c = b then block else s.buffer c := by
  by_cases h : c = b <;> simp [h]

@[simp] theorem enter_writeOffset (b c : Nat) :
    ((s.enter b).buffer c).writeOffset = (s.buffer c).writeOffset := by
  rw [State.enter, buffer_setBuffer]; by_cases h : c = b <;> simp [h]
@[simp] theorem enter_data (b c : Nat) : ((s.enter b).buffer c).data = (s.buffer c).data := by
  rw [State.enter, buffer_setBuffer]; by_cases h : c = b <;> simp [h]
@[simp] theorem leave_writeOffset (b c : Nat) :
    ((s.leave b).buffer c).writeOffset = (s.buffer c).writeOffset := by
  rw [State.leave, buffer_setBuffer]; by_cases h : c = b <;> simp [h]
@[simp] theorem leave_data (b c : Nat) : ((s.leave b).buffer c).data = (s.buffer c).data := by
  rw [State.leave, buffer_setBuffer]; by_cases h : c = b <;> simp [h]
@[simp] theorem advance_activeWriters (b n c : Nat) :
    ((s.advance b n).buffer c).activeWriters = (s.buffer c).activeWriters := by
  rw [State.advance, buffer_setBuffer]; by_cases h : c = b <;> simp [h]
@[simp] theorem advance_data (b n c : Nat) :
    ((s.advance b n).buffer c).data = (s.buffer c).data := by
  rw [State.advance, buffer_setBuffer]; by_cases h : c = b <;> simp [h]
@[simp] theorem store_activeWriters (b a c : Nat) (x : UInt8) :
    ((s.store b a x).buffer c).activeWriters = (s.buffer c).activeWriters := by
  rw [State.store, buffer_setBuffer]; by_cases h : c = b <;> simp [h]
@[simp] theorem store_writeOffset (b a c : Nat) (x : UInt8) :
    ((s.store b a x).buffer c).writeOffset = (s.buffer c).writeOffset := by
  rw [State.store, buffer_setBuffer]; by_cases h : c = b <;> simp [h]

@[simp] theorem reset_activeWriters (b c : Nat) :
    ((s.reset b).buffer c).activeWriters = (s.buffer c).activeWriters := by
  change ((s.setBuffer b _).buffer c).activeWriters = _
  by_cases h : c = b <;> simp [h]
@[simp] theorem reset_data (b c : Nat) : ((s.reset b).buffer c).data = (s.buffer c).data := by
  change ((s.setBuffer b _).buffer c).data = _
  by_cases h : c = b <;> simp [h]

theorem reset_writeOffset (b : Nat) :
    (fun c => ((s.reset b).buffer c).writeOffset) = update (fun c => (s.buffer c).writeOffset) b 0 := by
  funext c
  change ((s.setBuffer b _).buffer c).writeOffset = _
  by_cases h : c = b
  · subst h; simp
  · simp [h]

theorem advance_writeOffset (b n : Nat) :
    (fun c => ((s.advance b n).buffer c).writeOffset) =
      update (fun c => (s.buffer c).writeOffset) b (add64 (s.buffer b).writeOffset n) := by
  funext c
  rw [State.advance, buffer_setBuffer]
  by_cases h : c = b
  · subst h; simp
  · simp [h]

theorem store_data (b a : Nat) (x : UInt8) :
    (fun c => ((s.store b a x).buffer c).data) =
      update (fun c => (s.buffer c).data) b (update (s.buffer b).data a x) := by
  funext c
  rw [State.store, buffer_setBuffer]
  by_cases h : c = b
  · subst h; simp
  · simp [h]

variable [DecidableEq ι]

def State.setWriter (s : State ι) (t : ι) (w : Writer) : State ι :=
  { s with writers := update s.writers t w }

/-- One access of `log_event`: the retry loop of `ubpf_probe_reserve_record`,
the header and payload stores, and `ubpf_probe_commit_record`. -/
def writerStep (cfg : ι → Thread) (s : State ι) (t : ι) : Option (State ι) :=
  match s.writers t with
  | .idle => none
  | .load ev retry => some (s.setWriter t (.register ev retry s.shm.activeEpochBuffer))
  | .register ev retry current => some ((s.enter (bufIdx current)).setWriter t (.verify ev retry current))
  | .verify ev retry current =>
    if s.shm.activeEpochBuffer = current then some (s.setWriter t (.reserve ev (bufIdx current)))
    else some (s.setWriter t (.release ev retry current))
  | .release ev retry current =>
    some ((s.leave (bufIdx current)).setWriter t
      (if retry + 1 < maxProbeRetries then .load ev (retry + 1) else .drop))
  | .reserve ev b =>
    let offset := (s.buffer b).writeOffset
    if add64 offset ev.recordLen ≤ bufferCapacity then
      some (((s.advance b ev.recordLen).logGrant (s.extent b offset ev.recordLen)).setWriter t (.stamp ev b offset))
    else some ((s.advance b ev.recordLen).setWriter t (.abort b))
  | .abort b => some ((s.leave b).setWriter t .drop)
  | .drop =>
    let r := (cfg t).localRank
    let stats := s.shm.rankStats r
    some ((s.setStats r { stats with droppedEvents := add64 stats.droppedEvents 1 }).setWriter t .idle)
  | .stamp ev b offset => some (s.setWriter t (.write (ev.stamp (cfg t).rank s.now) b offset 0))
  | .write rec b offset done =>
    if h : done < rec.bytes.length then
      some ((s.store b (offset + done) rec.bytes[done]).setWriter t (.write rec b offset (done + 1)))
    else if 1 < b ∨ maxLocalRanks ≤ (cfg t).localRank then some (s.setWriter t .idle)
    else
      some (((s.leave b).logCommit ⟨s.extent b offset rec.bytes.length, rec, (cfg t).localRank⟩).setWriter t .count)
  | .count =>
    let r := (cfg t).localRank
    let stats := s.shm.rankStats r
    some ((s.setStats r { stats with recordedEvents := add64 stats.recordedEvents 1 }).setWriter t .idle)

omit [DecidableEq ι] in
/-- One access of `swap_and_flush`. The two relaxed loads of one rank's counters
are one step, and so is each of the two readings of the drained bytes. -/
def workerStep (s : State ι) : Option (State ι) :=
  match s.worker with
  | .idle => none
  | .load force => some { s with worker := .peek force s.shm.activeEpochBuffer }
  | .peek force current =>
    if (s.buffer (bufIdx current)).writeOffset = 0 ∧ force = false then some { s with worker := .idle }
    else some { s with worker := .swap current }
  | .swap current =>
    some { s with
      shm := { s.shm with activeEpochBuffer := nextWord current }
      worker := .drain (bufIdx current) 0 }
  | .drain b spins =>
    if 0 < (s.buffer b).activeWriters ∧ spins < spinLimit then some { s with worker := .drain b (spins + 1) }
    else some { s with worker := .measure b }
  | .measure b =>
    let len := min (s.buffer b).writeOffset bufferCapacity
    if 0 < len then some { s with worker := .stream b len } else some { s with worker := .recycle b }
  | .stream b len =>
    some { s with
      worker := .stats b len 0 0 0
      log := { s.log with streamed := s.log.streamed ++ [⟨b, s.log.resets b, len, (s.buffer b).data⟩] } }
  | .stats b len r dropped recorded =>
    if r < maxLocalRanks then
      let stats := s.shm.rankStats r
      some { s with
        worker := .stats b len (r + 1) (add64 dropped stats.droppedEvents) (add64 recorded stats.recordedEvents) }
    else some { s with worker := .write b len dropped recorded }
  | .write b len dropped recorded =>
    some { s with
      worker := .recycle b
      lastFlushNs := s.now
      log := { s.log with chunks := s.log.chunks ++
        [⟨b, s.log.resets b, len, (s.buffer b).data, recorded % 2 ^ 32, dropped % 2 ^ 32, s.lastFlushNs, s.now⟩] } }
  | .recycle b => some { s.reset b with worker := .idle }

inductive Action (ι : Type) where
  | call (t : ι) (ev : Event)
  | writer (t : ι)
  | flush (force : Bool)
  | worker
  | tick (ns : Nat)

/-- An idle thread may call `log_event`, the idle worker may call
`swap_and_flush`, and the steady clock may advance, at any time. -/
def step (cfg : ι → Thread) (s : State ι) : Action ι → Option (State ι)
  | .call t ev =>
    match s.writers t with
    | .idle => if maxLocalRanks ≤ (cfg t).localRank then some s else some (s.setWriter t (.load ev 0))
    | _ => none
  | .writer t => writerStep cfg s t
  | .flush force =>
    match s.worker with
    | .idle => some { s with worker := .load force }
    | _ => none
  | .worker => workerStep s
  | .tick ns => some { s with now := s.now + ns }

omit [DecidableEq ι] in
/-- The drain loop is not left by its spin limit. -/
def Drained (s : State ι) : Action ι → Prop
  | .worker =>
    match s.worker with
    | .drain b spins => (s.buffer b).activeWriters = 0 ∨ spins < spinLimit
    | _ => True
  | _ => True

omit [DecidableEq ι] in
/-- No counter of the reservation protocol wraps in this step, and a logged
record fits its 32-bit length. -/
def NoWrap (s : State ι) : Action ι → Prop
  | .call _ ev => headerSize + ev.payload.length < 2 ^ 32
  | .writer t =>
    match s.writers t with
    | .register _ _ current => (s.buffer (bufIdx current)).activeWriters + 1 < 2 ^ 32
    | .reserve ev b => (s.buffer b).writeOffset + ev.recordLen < 2 ^ 64
    | _ => True
  | _ => True

omit [DecidableEq ι] in
/-- Neither the length of a record nor the offset of its buffer wraps. A grant after such a wrap
reaches out of `data`, over the counters of the segment, where `State.store` does not follow it. -/
def Inside (s : State ι) : Action ι → Prop
  | .call _ ev => headerSize + ev.payload.length < 2 ^ 32
  | .writer t =>
    match s.writers t with
    | .reserve ev b => (s.buffer b).writeOffset + ev.recordLen < 2 ^ 64
    | _ => True
  | _ => True

end ShmBuffer
