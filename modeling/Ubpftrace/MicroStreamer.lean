import Ubpftrace.KWayMerge
import Ubpftrace.ShmSchedules

/-!
# The micro streamer

`ubpf_micro_streamer`: `process_chunk` sorts the records of one chunk by time
stamp and appends their lines to a batch, which goes to `stdout` when it is
large or old enough and at the end. Between chunks nothing is reordered: a
record of a later chunk may have an earlier time stamp.
-/

namespace MicroStreamer

open EventRecord ShmBuffer
open Bytes (slice Holds holds_append holds_slice)
open KWayMerge (SortedBy)
open Runs (run)

/-- The text of one record, with the time stamp of the record. -/
structure Line where
  timestampNs : UInt64
  text : List UInt8
  text_ne : text ≠ []
  deriving DecidableEq

def Line.time (l : Line) : Nat := l.timestampNs.toNat

def asBytes (s : String) : List UInt8 := s.toList.map fun c => .ofNat c.toNat

/-- The `snprintf` of a binary event; with at most 84 characters it fits the line buffer. -/
def summary (h : Header) : List UInt8 :=
  asBytes "[Rank " ++ asBytes (toString h.rank.toNat) ++ asBytes ", EventType " ++
    asBytes (toString h.eventType.toNat) ++ asBytes ", TS " ++ asBytes (toString h.timestampNs.toNat) ++
    asBytes " ns] Payload: " ++ asBytes (toString h.payloadLen.toNat) ++ asBytes " bytes\n"

/-- Formatted text, ended by a newline. -/
def endLine (bs : List UInt8) : List UInt8 := if bs.getLast? = some 10 then bs else bs ++ [10]

theorem summary_ne (h : Header) : summary h ≠ [] := by
  simp [summary, asBytes]

theorem endLine_ne (bs : List UInt8) : endLine bs ≠ [] := by
  rw [endLine]
  split
  · next hlast =>
    rintro rfl
    cases hlast
  · simp

/-- What the record at this offset appends. Formatted text without payload appends nothing. -/
def lineAt (data : Nat → UInt8) (offset : Nat) : Option Line :=
  let h := Header.read data offset
  if h.eventType = 1 then
    if 0 < h.payloadLen.toNat then
      some ⟨h.timestampNs, endLine (slice data (offset + headerSize) h.payloadLen.toNat), endLine_ne _⟩
    else none
  else some ⟨h.timestampNs, summary h, summary_ne h⟩

/-- The comparison of the stable sort; a list of one record is sorted already. -/
def notAfter (data : Nat → UInt8) (a b : Nat) : Bool :=
  (Header.read data a).timestampNs.toNat ≤ (Header.read data b).timestampNs.toNat

def chunkLines (data : Nat → UInt8) (len : Nat) : List Line :=
  ((collectFrom data len 0).mergeSort (notAfter data)).filterMap (lineAt data)

structure Streamer where
  flushTimeoutNs : UInt64
  bufferThresholdBytes : Nat
  lastFlushNs : UInt64
  batchBuffer : List Line
  stdout : List Line
  deriving DecidableEq

def new (flushTimeoutNs : UInt64) (bufferThresholdBytes : Nat) (now : UInt64) : Streamer :=
  ⟨flushTimeoutNs, bufferThresholdBytes, now, [], []⟩

def Streamer.batchSize (s : Streamer) : Nat := (s.batchBuffer.map fun l => l.text.length).sum

/-- `fwrite` of the whole batch. -/
def Streamer.writeOut (s : Streamer) (now : UInt64) : Streamer :=
  { s with
    stdout := s.stdout ++ s.batchBuffer
    batchBuffer := []
    lastFlushNs := now }

def Streamer.processChunk (s : Streamer) (data : Nat → UInt8) (len : Nat) (now : UInt64) : Streamer :=
  if len < headerSize then s
  else if collectFrom data len 0 = [] then s
  else
    let filled := { s with batchBuffer := s.batchBuffer ++ chunkLines data len }
    if filled.bufferThresholdBytes ≤ filled.batchSize then filled.writeOut now else filled

def Streamer.checkTimerAndFlush (s : Streamer) (now : UInt64) : Streamer :=
  if s.batchSize = 0 then s
  else if s.flushTimeoutNs ≤ now - s.lastFlushNs then s.writeOut now
  else s

def Streamer.flush (s : Streamer) (now : UInt64) : Streamer :=
  if s.batchSize = 0 then s else s.writeOut now

inductive Call where
  | processChunk (data : Nat → UInt8) (len : Nat) (now : UInt64)
  | checkTimerAndFlush (now : UInt64)
  | flush (now : UInt64)

def Streamer.call (s : Streamer) : Call → Streamer
  | .processChunk data len now => s.processChunk data len now
  | .checkTimerAndFlush now => s.checkTimerAndFlush now
  | .flush now => s.flush now

def Streamer.calls (s : Streamer) (cs : List Call) : Streamer := cs.foldl Streamer.call s

def Call.lines : Call → List Line
  | .processChunk data len _ => chunkLines data len
  | .checkTimerAndFlush _ | .flush _ => []

variable {s : Streamer}

theorem batchSize_eq_zero (h : s.batchSize = 0) : s.batchBuffer = [] := by
  cases hb : s.batchBuffer with
  | nil => rfl
  | cons l ls =>
    have hpos := List.length_pos_iff.mpr l.text_ne
    simp only [Streamer.batchSize, hb, List.map_cons, List.sum_cons] at h
    omega

theorem call_lines (s : Streamer) (c : Call) :
    (s.call c).stdout ++ (s.call c).batchBuffer = s.stdout ++ s.batchBuffer ++ c.lines := by
  cases c with
  | processChunk data len now =>
    simp only [Streamer.call, Call.lines, Streamer.processChunk]
    split
    · next hlen =>
      have hnone : collectFrom data len 0 = [] := by rw [collectFrom, if_neg (by omega)]
      simp [chunkLines, hnone]
    · split
      · next hnone => simp [chunkLines, hnone]
      · split <;> simp [Streamer.writeOut]
  | checkTimerAndFlush now =>
    simp only [Streamer.call, Call.lines, Streamer.checkTimerAndFlush]
    split_ifs <;> simp [Streamer.writeOut]
  | flush now =>
    simp only [Streamer.call, Call.lines, Streamer.flush]
    split <;> simp [Streamer.writeOut]

theorem calls_lines (s : Streamer) (cs : List Call) :
    (s.calls cs).stdout ++ (s.calls cs).batchBuffer = s.stdout ++ s.batchBuffer ++ cs.flatMap Call.lines := by
  induction cs generalizing s with
  | nil => simp [Streamer.calls]
  | cons c cs ih =>
    have hrest := ih (s.call c)
    rw [call_lines, List.append_assoc] at hrest
    exact hrest

theorem flush_stdout (s : Streamer) (now : UInt64) : (s.flush now).stdout = s.stdout ++ s.batchBuffer := by
  rw [Streamer.flush]
  split
  · next h => rw [batchSize_eq_zero h, List.append_nil]
  · rfl

theorem lineAt_time {data : Nat → UInt8} {a : Nat} {l : Line} (h : lineAt data a = some l) :
    l.timestampNs = (Header.read data a).timestampNs := by
  simp only [lineAt] at h
  split at h
  · split at h
    · rw [← Option.some.inj h]
    · cases h
  · rw [← Option.some.inj h]

theorem chunkLines_sorted (data : Nat → UInt8) (len : Nat) : SortedBy Line.time (chunkLines data len) := by
  have hsort : ((collectFrom data len 0).mergeSort (notAfter data)).Pairwise (notAfter data · ·) := by
    apply List.pairwise_mergeSort
    · intro a b c hab hbc
      simp only [notAfter, decide_eq_true_eq] at *
      omega
    · intro a b
      simp only [notAfter, Bool.or_eq_true, decide_eq_true_eq]
      omega
  rw [SortedBy, chunkLines, List.pairwise_filterMap]
  apply hsort.imp
  intro a b hab l hl l' hl'
  rw [Line.time, Line.time, lineAt_time hl, lineAt_time hl']
  simpa [notAfter] using hab

theorem lines_sorted (c : Call) : SortedBy Line.time c.lines := by
  cases c with
  | processChunk data len now => exact chunkLines_sorted data len
  | checkTimerAndFlush now | flush now => exact List.Pairwise.nil

/-- The calls of `process_chunk` for what the worker has handed over. -/
def streamCalls (now : UInt64) (ks : List Streamed) : List Call :=
  ks.map fun k => .processChunk k.data k.len now

/-- An event that is not formatted text. -/
def binaryProbe : Event := ⟨2, [], probe.payload_lt⟩

/-- One thread has reserved when the buffers are swapped; the other one logs
into the new buffer before the first takes its time stamp. -/
def overtakenSteps : List (Action Bool) :=
  reserveSteps true binaryProbe ++ swapSteps false ++ [.tick 3] ++
    logSteps false binaryProbe ++ [.tick 2] ++ recordSteps true binaryProbe ++
    handOverSteps ++ flushSteps false

theorem overtaken_run :
    ∃ s, run (step fun _ => ⟨0, 0⟩) Regular (init Bool) overtakenSteps = some s ∧
      s.log.streamed.map (fun k => (chunkLines k.data k.len).map Line.timestampNs) = [[5], [3]] :=
  Option.map_eq_some_iff.mp (by decide +kernel)

/-- Two flushes of one rank with two threads: whatever the settings, the line
of the first chunk has the later time stamp. -/
theorem later_chunk_streams_earlier_line :
    ∃ s, run (step fun _ => ⟨0, 0⟩) Regular (init Bool) overtakenSteps = some s ∧
      ∀ flushTimeoutNs bufferThresholdBytes startNs now endNs, ¬ SortedBy Line.time
        (((new flushTimeoutNs bufferThresholdBytes startNs).calls (streamCalls now s.log.streamed)).flush
          endNs).stdout := by
  obtain ⟨s, hs, hstreamed⟩ := overtaken_run
  obtain ⟨k, ks, hks, hk, hrest⟩ := List.map_eq_cons_iff.mp hstreamed
  obtain ⟨k', hks', hk'⟩ := List.map_eq_singleton_iff.mp hrest
  obtain ⟨l, hl, htime⟩ := List.map_eq_singleton_iff.mp hk
  obtain ⟨l', hl', htime'⟩ := List.map_eq_singleton_iff.mp hk'
  refine ⟨s, hs, ?_⟩
  intro flushTimeoutNs bufferThresholdBytes startNs now endNs hsorted
  rw [flush_stdout, calls_lines, hks, hks'] at hsorted
  simp only [new, streamCalls, List.map_cons, List.map_nil, List.flatMap_cons, List.flatMap_nil, Call.lines, hl, hl',
    List.nil_append, List.append_nil] at hsorted
  have hle := (List.pairwise_cons.mp hsorted).1 l' (by simp)
  rw [Line.time, Line.time, htime, htime'] at hle
  revert hle
  decide

end MicroStreamer
