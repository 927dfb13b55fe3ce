import Mathlib.Data.Nat.Digits.Defs
import Ubpftrace.KeyedSort
import Ubpftrace.RecordSplitting

/-!
# The bytes of the micro streamer

`ubpf_micro_streamer` keeps its batch as bytes. Whatever the order of chunks,
timer checks and flushes, what it has written and what is still in the batch are
together the lines of all chunks, and the lines of a chunk are those of its
records in the order of time, records with equal time stamps as they stand. So the
stream is in the order of time exactly if no chunk has a record to print that is later
than one of a chunk behind it.
-/

namespace MicroStreamer

open EventRecord
open Bytes (slice)
open KeyedSort (mergeSort_stable)
open KWayMerge (SortedBy)

structure ByteStreamer where
  flushTimeoutNs : UInt64
  bufferThresholdBytes : Nat
  lastFlushNs : UInt64
  batchBuffer : List UInt8
  stdout : List UInt8
  deriving DecidableEq

/-- `sizeof(line_buf)`. -/
def lineBufSize : Nat := 128

/-- What `snprintf` leaves in a buffer: as much of the text as fits, and a zero. -/
def snprintf (size : Nat) (text : List UInt8) : List UInt8 := text.take (size - 1) ++ [0]

/-- The turn of the third loop for the record at an offset. The newline is missing if the
last byte of the whole batch is none. -/
def appendRecord (data : Nat → UInt8) (batch : List UInt8) (offset : Nat) : List UInt8 :=
  let h := Header.read data offset
  if h.eventType = 1 then
    if 0 < h.payloadLen.toNat then
      let batch := batch ++ slice data (offset + headerSize) h.payloadLen.toNat
      if batch.getLast? ≠ some 10 then batch ++ [10] else batch
    else batch
  else
    let n := (summary h).length
    if 0 < n then batch ++ (snprintf lineBufSize (summary h)).take n else batch

namespace ByteStreamer

def new (flushTimeoutNs : UInt64) (bufferThresholdBytes : Nat) (now : UInt64) : ByteStreamer :=
  ⟨flushTimeoutNs, bufferThresholdBytes, now, [], []⟩

def writeOut (s : ByteStreamer) (now : UInt64) : ByteStreamer :=
  { s with
    stdout := s.stdout ++ s.batchBuffer
    batchBuffer := []
    lastFlushNs := now }

def processChunk (s : ByteStreamer) (data : Nat → UInt8) (len : Nat) (now : UInt64) : ByteStreamer :=
  if len < headerSize then s
  else
    let records := collectFrom data len 0
    if records = [] then s
    else
      let records := if 1 < records.length then records.mergeSort (notAfter data) else records
      let filled := { s with batchBuffer := records.foldl (appendRecord data) s.batchBuffer }
      if filled.bufferThresholdBytes ≤ filled.batchBuffer.length then filled.writeOut now else filled

def checkTimerAndFlush (s : ByteStreamer) (now : UInt64) : ByteStreamer :=
  if s.batchBuffer = [] then s
  else if s.flushTimeoutNs ≤ now - s.lastFlushNs then s.writeOut now
  else s

def flush (s : ByteStreamer) (now : UInt64) : ByteStreamer :=
  if s.batchBuffer ≠ [] then s.writeOut now else s

def call (s : ByteStreamer) : Call → ByteStreamer
  | .processChunk data len now => s.processChunk data len now
  | .checkTimerAndFlush now => s.checkTimerAndFlush now
  | .flush now => s.flush now

def calls (s : ByteStreamer) (cs : List Call) : ByteStreamer := cs.foldl call s

end ByteStreamer

/-! ## The bytes of lines -/

def textOf (ls : List Line) : List UInt8 := ls.flatMap Line.text

/-- The line of the record at an offset, if it has one. -/
def formatted (data : Nat → UInt8) (offset : Nat) : List UInt8 := textOf (lineAt data offset).toList

theorem textOf_append (ls ls' : List Line) : textOf (ls ++ ls') = textOf ls ++ textOf ls' := List.flatMap_append

variable (data : Nat → UInt8)

theorem textOf_filterMap (offsets : List Nat) :
    textOf (offsets.filterMap (lineAt data)) = offsets.flatMap (formatted data) := by
  induction offsets with
  | nil => rfl
  | cons a as ih =>
    rw [List.filterMap_cons, List.flatMap_cons, ← ih, formatted]
    cases lineAt data a <;> simp [textOf]

theorem length_asBytes (s : String) : (asBytes s).length = s.length := by
  rw [asBytes, List.length_map, String.length_toList]

theorem length_number (n e : Nat) (he : 0 < e) (hn : n < 10 ^ e) : (asBytes (toString n)).length ≤ e := by
  rw [length_asBytes]
  exact Nat.repr_length n e he hn

/-- Even the longest numbers leave room in the line buffer. -/
theorem length_summary (h : Header) : (summary h).length ≤ 84 := by
  have hrank := length_number h.rank.toNat 5 (by decide) (Nat.lt_trans h.rank.toNat_lt (by decide))
  have htype := length_number h.eventType.toNat 5 (by decide) (Nat.lt_trans h.eventType.toNat_lt (by decide))
  have hstamp := length_number h.timestampNs.toNat 20 (by decide) (Nat.lt_trans h.timestampNs.toNat_lt (by decide))
  have hpayload := length_number h.payloadLen.toNat 10 (by decide) (Nat.lt_trans h.payloadLen.toNat_lt (by decide))
  have hfixed : (asBytes "[Rank ").length + (asBytes ", EventType ").length + (asBytes ", TS ").length +
      (asBytes " ns] Payload: ").length + (asBytes " bytes\n").length = 44 := by decide
  simp only [summary, List.length_append]
  omega

theorem snprintf_summary (h : Header) : (snprintf lineBufSize (summary h)).take (summary h).length = summary h := by
  have hlen := length_summary h
  have hroom : (summary h).take (lineBufSize - 1) = summary h := List.take_of_length_le (by rw [lineBufSize]; omega)
  rw [snprintf, hroom, List.take_left]

theorem appendRecord_eq (batch : List UInt8) (offset : Nat) :
    appendRecord data batch offset = batch ++ formatted data offset := by
  simp only [appendRecord, formatted, lineAt]
  split
  · split
    · next hpos =>
      have hne : slice data (offset + headerSize) (Header.read data offset).payloadLen.toNat ≠ [] := by
        intro hnil
        have hlen := congrArg List.length hnil
        simp at hlen
        omega
      have hlast (bs : List UInt8) (hbs : bs ≠ []) : (batch ++ bs).getLast? = bs.getLast? := by
        rw [List.getLast?_append, List.getLast?_eq_some_getLast hbs]
        rfl
      simp only [hlast _ hne, Option.toList_some, textOf, List.flatMap_cons, List.flatMap_nil, List.append_nil, endLine]
      split_ifs <;> simp_all
    · simp [textOf]
  · have hpos : 0 < (summary (Header.read data offset)).length := List.length_pos_iff.mpr (summary_ne _)
    rw [if_pos hpos, snprintf_summary]
    simp [textOf]

theorem foldl_appendRecord (batch : List UInt8) (offsets : List Nat) :
    offsets.foldl (appendRecord data) batch = batch ++ offsets.flatMap (formatted data) := by
  induction offsets generalizing batch with
  | nil => simp
  | cons a as ih => rw [List.foldl_cons, appendRecord_eq, ih, List.flatMap_cons, List.append_assoc]

/-! ## The streamer of bytes keeps step with the streamer of lines -/

structure Flattens (b : ByteStreamer) (s : Streamer) : Prop where
  flushTimeoutNs : b.flushTimeoutNs = s.flushTimeoutNs
  bufferThresholdBytes : b.bufferThresholdBytes = s.bufferThresholdBytes
  lastFlushNs : b.lastFlushNs = s.lastFlushNs
  batchBuffer : b.batchBuffer = textOf s.batchBuffer
  stdout : b.stdout = textOf s.stdout

section Steps

variable {b : ByteStreamer} {s : Streamer}

theorem Flattens.batchSize (h : Flattens b s) : b.batchBuffer.length = s.batchSize := by
  rw [h.batchBuffer, textOf, List.length_flatMap, Streamer.batchSize]

theorem Flattens.batch_nil_iff (h : Flattens b s) : b.batchBuffer = [] ↔ s.batchSize = 0 := by
  rw [← h.batchSize, List.length_eq_zero_iff]

theorem Flattens.writeOut (h : Flattens b s) (now : UInt64) : Flattens (b.writeOut now) (s.writeOut now) where
  flushTimeoutNs := h.flushTimeoutNs
  bufferThresholdBytes := h.bufferThresholdBytes
  lastFlushNs := rfl
  batchBuffer := rfl
  stdout := by rw [ByteStreamer.writeOut, Streamer.writeOut, textOf_append, h.stdout, h.batchBuffer]

/-- Both batches are large enough at the same time. -/
theorem Flattens.triggered (h : Flattens b s) (now : UInt64) :
    Flattens (if b.bufferThresholdBytes ≤ b.batchBuffer.length then b.writeOut now else b)
      (if s.bufferThresholdBytes ≤ s.batchSize then s.writeOut now else s) := by
  rw [h.batchSize, h.bufferThresholdBytes]
  split
  · exact h.writeOut now
  · exact h

theorem sorted_records (records : List Nat) :
    (if 1 < records.length then records.mergeSort (notAfter data) else records) =
      records.mergeSort (notAfter data) := by
  split
  · rfl
  · next hlen =>
    match records with
    | [] => simp
    | [a] => simp
    | a :: a' :: as => simp at hlen

theorem Flattens.call (h : Flattens b s) (c : Call) : Flattens (b.call c) (s.call c) := by
  cases c with
  | processChunk data len now =>
    simp only [ByteStreamer.call, Streamer.call, ByteStreamer.processChunk, Streamer.processChunk, sorted_records,
      foldl_appendRecord]
    split
    · exact h
    · split
      · exact h
      · have hfilled : Flattens
            { b with batchBuffer := b.batchBuffer ++
                ((collectFrom data len 0).mergeSort (notAfter data)).flatMap (formatted data) }
            { s with batchBuffer := s.batchBuffer ++ chunkLines data len } := by
          refine { h with batchBuffer := ?_ }
          rw [textOf_append, chunkLines, textOf_filterMap, ← h.batchBuffer]
        exact hfilled.triggered now
  | checkTimerAndFlush now =>
    simp only [ByteStreamer.call, Streamer.call, ByteStreamer.checkTimerAndFlush, Streamer.checkTimerAndFlush,
      h.batch_nil_iff, h.flushTimeoutNs, h.lastFlushNs]
    split_ifs
    · exact h
    · exact h.writeOut now
    · exact h
  | flush now =>
    simp only [ByteStreamer.call, Streamer.call, ByteStreamer.flush, Streamer.flush, ne_eq, h.batch_nil_iff]
    split_ifs
    · exact h
    · exact h.writeOut now

theorem Flattens.calls (h : Flattens b s) (cs : List Call) : Flattens (b.calls cs) (s.calls cs) := by
  induction cs generalizing b s with
  | nil => exact h
  | cons c cs ih => exact ih (h.call c)

end Steps

/-! ## What the stream is made of -/

/-- There is a whole record at this offset: the record lengths lead to it, and its own is
neither below that of a header nor beyond the chunk. -/
def WholeRecord (data : Nat → UInt8) (len a : Nat) : Prop :=
  Comes (headerSize - 1) data len 0 a ∧ Accepts (headerSize - 1) data len a

def stampAt (data : Nat → UInt8) (a : Nat) : Nat := (Header.read data a).timestampNs.toNat

/-- The first record is earlier, or as early and in front of the second. -/
def InOrder (data : Nat → UInt8) (a a' : Nat) : Prop :=
  stampAt data a < stampAt data a' ∨ stampAt data a = stampAt data a' ∧ a < a'

/-- What a call is to add to the stream. -/
def Call.Prints : Call → List UInt8 → Prop
  | .processChunk data len _, text => ∃ records : List Nat,
      (∀ a, a ∈ records ↔ WholeRecord data len a) ∧ records.Pairwise (InOrder data) ∧
        text = records.flatMap (formatted data)
  | .checkTimerAndFlush _, text | .flush _, text => text = []

theorem acceptedFrom_forward (refused : Nat) (mem : Nat → UInt8) (len start : Nat) :
    (∀ a ∈ acceptedFrom refused mem len start, start ≤ a) ∧ (acceptedFrom refused mem len start).Pairwise (· < ·) := by
  induction hn : len - start using Nat.strong_induction_on generalizing start with
  | _ n ih =>
    by_cases hacc : Accepts refused mem len start
    · obtain ⟨hroom, hlong, hfits⟩ := id hacc
      obtain ⟨hge, hpairs⟩ := ih _ (by omega) (start + recordLenAt mem start) rfl
      rw [acceptedFrom_of_accepts hacc]
      refine ⟨fun a ha => ?_, List.pairwise_cons.mpr ⟨fun a ha => ?_, hpairs⟩⟩
      · rcases List.mem_cons.mp ha with rfl | ha
        · exact Nat.le_refl _
        · have := hge a ha
          omega
      · have := hge a ha
        omega
    · rw [acceptedFrom_of_not hacc]
      exact ⟨fun a ha => (nomatch ha), List.Pairwise.nil⟩

theorem mem_sorted_iff (len a : Nat) :
    a ∈ (collectFrom data len 0).mergeSort (notAfter data) ↔ WholeRecord data len a := by
  rw [(List.mergeSort_perm _ _).mem_iff, collectFrom_eq]
  exact mem_acceptedFrom_iff a

theorem call_prints (c : Call) : c.Prints (textOf c.lines) := by
  cases c with
  | processChunk data len now =>
    refine ⟨(collectFrom data len 0).mergeSort (notAfter data), mem_sorted_iff data len, ?_, textOf_filterMap data _⟩
    have hfront : (collectFrom data len 0).Pairwise (· < ·) := by
      rw [collectFrom_eq]
      exact (acceptedFrom_forward _ data len 0).2
    have hkey (a b : Nat) : notAfter data a b = true ↔ stampAt data a ≤ stampAt data b := decide_eq_true_iff
    exact mergeSort_stable hkey hfront
  | checkTimerAndFlush now => rfl
  | flush now => rfl

/-- For any settings and any chunks, timer checks and flushes: what has been written and
what is pending are together the lines of the whole records of every chunk in the order
of time, chunk after chunk. -/
theorem stream_complete (flushTimeoutNs : UInt64) (bufferThresholdBytes : Nat) (startNs : UInt64) (cs : List Call) :
    ∃ texts, List.Forall₂ Call.Prints cs texts ∧
      ((ByteStreamer.new flushTimeoutNs bufferThresholdBytes startNs).calls cs).stdout ++
        ((ByteStreamer.new flushTimeoutNs bufferThresholdBytes startNs).calls cs).batchBuffer = texts.flatten := by
  have hnew : Flattens (ByteStreamer.new flushTimeoutNs bufferThresholdBytes startNs)
      (new flushTimeoutNs bufferThresholdBytes startNs) := ⟨rfl, rfl, rfl, rfl, rfl⟩
  have h := hnew.calls cs
  refine ⟨cs.map fun c => textOf c.lines, ?_, ?_⟩
  · exact List.forall₂_map_right_iff.mpr (List.forall₂_same.mpr fun c _ => call_prints c)
  · rw [h.stdout, h.batchBuffer, ← textOf_append, calls_lines]
    rw [new, List.nil_append, List.nil_append, textOf, List.flatMap_assoc]
    rfl

/-! ## The order of time -/

/-- A call is handed a whole record with this time stamp that has something to print: of formatted
text, a payload. -/
def Call.Stamped : Call → Nat → Prop
  | .processChunk data len _, ts => ∃ a, WholeRecord data len a ∧ stampAt data a = ts ∧
      ((Header.read data a).eventType = 1 → 0 < (Header.read data a).payloadLen.toNat)
  | .checkTimerAndFlush _, _ | .flush _, _ => False

theorem lineAt_isSome_iff (a : Nat) : (lineAt data a).isSome ↔
    ((Header.read data a).eventType = 1 → 0 < (Header.read data a).payloadLen.toNat) := by
  simp only [lineAt]
  split_ifs <;> simp_all

theorem Call.stamped_iff (c : Call) (ts : Nat) : c.Stamped ts ↔ ∃ l ∈ c.lines, l.time = ts := by
  cases c with
  | checkTimerAndFlush now | flush now => simp [Call.Stamped, Call.lines]
  | processChunk data len now =>
    simp only [Call.Stamped, Call.lines, chunkLines, List.mem_filterMap, mem_sorted_iff, ← lineAt_isSome_iff]
    constructor
    · rintro ⟨a, ha, rfl, hsome⟩
      obtain ⟨l, hl⟩ := Option.isSome_iff_exists.mp hsome
      exact ⟨l, ⟨a, ha, hl⟩, congrArg UInt64.toNat (lineAt_time hl)⟩
    · rintro ⟨l, ⟨a, ha, hl⟩, rfl⟩
      exact ⟨a, ha, congrArg UInt64.toNat (lineAt_time hl).symm, hl ▸ rfl⟩

/-- For any settings, any chunks and any timer checks and flushes between them: the lines written by
the end of the run are in the order of time if and only if no chunk has a record to print with a larger
time stamp than one of a chunk behind it. -/
theorem stream_monotonic_iff (flushTimeoutNs : UInt64) (bufferThresholdBytes : Nat) (startNs endNs : UInt64)
    (cs : List Call) :
    SortedBy Line.time (((new flushTimeoutNs bufferThresholdBytes startNs).calls cs).flush endNs).stdout ↔
      cs.Pairwise fun c c' => ∀ ts ts', c.Stamped ts → c'.Stamped ts' → ts ≤ ts' := by
  rw [flush_stdout, calls_lines, SortedBy]
  simp only [new, List.nil_append, Call.stamped_iff]
  rw [List.flatMap, List.pairwise_flatten, List.pairwise_map]
  constructor
  · intro h
    refine h.2.imp fun {c c'} hlines => ?_
    rintro _ _ ⟨l, hl, rfl⟩ ⟨l', hl', rfl⟩
    exact hlines l hl l' hl'
  · intro h
    refine ⟨fun ls hls => ?_, h.imp fun {c c'} hstamps l hl l' hl' => hstamps _ _ ⟨l, hl, rfl⟩ ⟨l', hl', rfl⟩⟩
    obtain ⟨c, -, rfl⟩ := List.mem_map.mp hls
    exact lines_sorted c

end MicroStreamer
