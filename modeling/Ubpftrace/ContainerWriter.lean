import Mathlib.Data.UInt
import Ubpftrace.ContainerFormat
import Ubpftrace.ShortWrites

/-!
# Writing a container file

`ubpf_container_writer`: chunks are compressed into a staging buffer that is
written out in a loop once it has two megabytes or on `flush`; `close` writes
the index table and the trailer, each with a single `write`. The results say
what stands in the file for any calls and any short writes, as long as no
write fails.
-/

namespace Container

open ShortWrites

def lustreStripeBlockSize : Nat := 2 * 1024 * 1024

/-- The arguments of `write_chunk`; `uncompressed_len` is a `uint32_t`. -/
@[ext]
structure ChunkArgs where
  chunkType : UInt16
  data : List UInt8
  data_lt : data.length < 2 ^ 32
  recordCount : UInt32
  droppedCount : UInt32
  startNs : UInt64
  endNs : UInt64

instance : DecidableEq ChunkArgs := fun _ _ => decidable_of_iff' _ ChunkArgs.ext_iff

/-- The compressed bytes, none if compression fails. A length beyond `INT_MAX`
reaches LZ4 as a negative one. -/
def ChunkArgs.compressed (z : Lz4) (a : ChunkArgs) : List UInt8 :=
  if 2 ^ 31 ≤ a.data.length then [] else z.compress a.data

def ChunkArgs.header (z : Lz4) (a : ChunkArgs) : ChunkHeader where
  chunkMagic := chunkMagic
  chunkType := a.chunkType
  codecId := codecLz4
  uncompressedSize := .ofNat a.data.length
  compressedSize := .ofNat (a.compressed z).length
  chunkStartNs := a.startNs
  chunkEndNs := a.endNs
  recordCount := a.recordCount
  droppedEventsCount := a.droppedCount
  crc32 := computeCrc32 (a.compressed z)

def ChunkArgs.entry (z : Lz4) (a : ChunkArgs) (fileOffset : UInt64) : IndexEntry where
  fileOffset := fileOffset
  compressedSize := .ofNat (a.compressed z).length
  chunkType := a.chunkType
  codecId := codecLz4
  startNs := a.startNs
  endNs := a.endNs
  recordCount := a.recordCount
  droppedCount := a.droppedCount

def ChunkArgs.image (z : Lz4) (a : ChunkArgs) : List UInt8 := (a.header z).encode ++ a.compressed z

/-- `write_chunk` takes the chunk: it is not empty and can be compressed. -/
def ChunkArgs.Taken (z : Lz4) (a : ChunkArgs) : Prop := a.data ≠ [] ∧ a.compressed z ≠ []

instance (z : Lz4) (a : ChunkArgs) : Decidable (a.Taken z) := inferInstanceAs (Decidable (_ ∧ _))

/-- The writer with the file behind its descriptor. -/
structure Writer where
  file : File
  opened : Bool
  currentFileOffset : UInt64
  totalRecords : UInt64
  totalDropped : UInt64
  indexTable : List IndexEntry
  stagingBuffer : List UInt8
  deriving DecidableEq

/-- `strncpy` into the 64 bytes of the header, the last of which stays zero. -/
def hostnameField (hostname : List UInt8) : List UInt8 :=
  let name := (hostname.takeWhile (· ≠ 0)).take 63
  name ++ List.replicate (64 - name.length) 0

theorem length_hostnameField (hostname : List UInt8) : (hostnameField hostname).length = 64 := by
  simp only [hostnameField, List.length_append, List.length_replicate, List.length_take]
  omega

/-- The header `open` writes; a null `hostname` leaves the field zero. -/
def newHeader (jobId nodeId : UInt32) (hostname : Option (List UInt8)) (monotonicNs wallclockNs : UInt64) :
    FileHeader where
  magic := fileMagic
  version := fileVersion
  jobId := jobId
  nodeId := nodeId
  hostname := hostnameField (hostname.getD [])
  hostname_length := length_hostnameField _
  codecId := codecLz4
  timestampBaseNs := monotonicNs
  wallclockBaseNs := wallclockNs

/-- `open` on a path that can be created and truncated. A header that is not
written in one piece makes it fail. -/
def openFile (os : Nat → Int) (h : FileHeader) : Option Writer :=
  let f : File := ⟨[], 0, false⟩
  if f.accepts os h.encode.length = h.encode.length then
    some ⟨f.write os h.encode, true, .ofNat fileHeaderSize, 0, 0, [], []⟩
  else none

def Writer.flushStagingBufferLocked (os : Nat → Int) (w : Writer) : Writer :=
  if w.opened = false ∨ w.stagingBuffer = [] then w
  else
    let r := w.file.writeAll os w.stagingBuffer
    { w with
      file := r.2
      currentFileOffset := w.currentFileOffset + .ofNat r.1
      stagingBuffer := [] }

/-- The bookkeeping of a chunk that has been compressed. -/
def Writer.stage (z : Lz4) (w : Writer) (a : ChunkArgs) : Writer :=
  { w with
    indexTable := w.indexTable ++ [a.entry z (w.currentFileOffset + .ofNat w.stagingBuffer.length)]
    totalRecords := w.totalRecords + a.recordCount.toUInt64
    totalDropped := w.totalDropped + a.droppedCount.toUInt64
    stagingBuffer := w.stagingBuffer ++ a.image z }

def Writer.writeChunk (z : Lz4) (os : Nat → Int) (w : Writer) (a : ChunkArgs) : Bool × Writer :=
  if a.data = [] ∨ w.opened = false then (false, w)
  else if a.compressed z = [] then (false, w)
  else
    let staged := w.stage z a
    (true, if lustreStripeBlockSize ≤ staged.stagingBuffer.length then staged.flushStagingBufferLocked os else staged)

def Writer.indexBytes (w : Writer) : List UInt8 := w.indexTable.flatMap IndexEntry.encode

/-- The one `write` of the index table in `close`. -/
def Writer.writeIndex (os : Nat → Int) (w : Writer) : Writer :=
  if w.indexTable = [] then w
  else
    let n := w.file.accepts os w.indexBytes.length
    { w with
      file := w.file.write os w.indexBytes
      currentFileOffset := if 0 < n then w.currentFileOffset + .ofNat n.toNat else w.currentFileOffset }

def Writer.trailer (w : Writer) (indexTableOffset : UInt64) : Trailer where
  totalChunks := .ofNat w.indexTable.length
  totalRecords := w.totalRecords
  totalDropped := w.totalDropped
  indexTableOffset := indexTableOffset
  trailerMagic := trailerMagic

/-- The trailer `close` writes, with the offset at which the index table begins. -/
def Writer.closingTrailer (os : Nat → Int) (w : Writer) : Trailer :=
  let flushed := w.flushStagingBufferLocked os
  (flushed.writeIndex os).trailer flushed.currentFileOffset

def Writer.close (os : Nat → Int) (w : Writer) : Writer :=
  if w.opened = false then w
  else
    let indexed := (w.flushStagingBufferLocked os).writeIndex os
    { indexed with
      file := indexed.file.write os (w.closingTrailer os).encode
      opened := false }

inductive Call where
  | writeChunk (a : ChunkArgs)
  | flush

def Writer.call (z : Lz4) (os : Nat → Int) (w : Writer) : Call → Writer
  | .writeChunk a => (w.writeChunk z os a).2
  | .flush => w.flushStagingBufferLocked os

def Writer.calls (z : Lz4) (os : Nat → Int) (w : Writer) (cs : List Call) : Writer := cs.foldl (Writer.call z os) w

def taken (z : Lz4) (cs : List Call) : List ChunkArgs :=
  cs.filterMap fun
    | .writeChunk a => if a.Taken z then some a else none
    | .flush => none

theorem taken_cons (z : Lz4) (c : Call) (cs : List Call) : taken z (c :: cs) = taken z [c] ++ taken z cs := by
  simp only [taken, ← List.filterMap_append, List.singleton_append]

/-- The index entries of chunks that stand one after the other from `pos` on. -/
def entriesFrom (z : Lz4) : Nat → List ChunkArgs → List IndexEntry
  | _, [] => []
  | pos, a :: as => a.entry z (.ofNat pos) :: entriesFrom z (pos + (a.image z).length) as

def chunkBytes (z : Lz4) (as : List ChunkArgs) : List UInt8 := as.flatMap (ChunkArgs.image z)

theorem chunkBytes_snoc (z : Lz4) (as : List ChunkArgs) (a : ChunkArgs) :
    chunkBytes z (as ++ [a]) = chunkBytes z as ++ a.image z := by
  simp [chunkBytes]

theorem entriesFrom_snoc (z : Lz4) (pos : Nat) (as : List ChunkArgs) (a : ChunkArgs) :
    entriesFrom z pos (as ++ [a]) = entriesFrom z pos as ++ [a.entry z (.ofNat (pos + (chunkBytes z as).length))] := by
  induction as generalizing pos with
  | nil => simp [entriesFrom, chunkBytes]
  | cons b as ih => simp [entriesFrom, ih, chunkBytes, Nat.add_assoc]

@[simp] theorem length_entriesFrom (z : Lz4) (pos : Nat) (as : List ChunkArgs) :
    (entriesFrom z pos as).length = as.length := by
  induction as generalizing pos with
  | nil => rfl
  | cons a as ih => simp [entriesFrom, ih]

/-- What an open writer has written and staged, if no write failed. -/
structure Wrote (z : Lz4) (h : FileHeader) (as : List ChunkArgs) (w : Writer) : Prop where
  opened : w.opened = true
  bytes : w.file.bytes ++ w.stagingBuffer = h.encode ++ chunkBytes z as
  offset : w.currentFileOffset = .ofNat w.file.bytes.length
  size : w.file.bytes.length ≤ maxSize
  index : w.indexTable = entriesFrom z fileHeaderSize as

variable {z : Lz4} {os : Nat → Int} {h : FileHeader} {as : List ChunkArgs} {w : Writer}

theorem openFile_wrote (ho : openFile os h = some w) : Wrote z h [] w := by
  simp only [openFile] at ho
  split at ho
  · next hall =>
    obtain rfl := Option.some.inj ho
    have hbytes := write_complete hall
    refine ⟨rfl, ?_, ?_, ?_, rfl⟩
    · simpa [chunkBytes] using hbytes
    · simp [hbytes]
    · simp only [hbytes, List.nil_append, length_fileHeader]
      decide
  · cases ho

theorem openFile_start (ho : openFile os h = some w) : w.opened = true ∧ w.totalRecords = 0 := by
  simp only [openFile] at ho
  split at ho
  · obtain rfl := Option.some.inj ho
    exact ⟨rfl, rfl⟩
  · cases ho

theorem flush_failed (hf : (w.flushStagingBufferLocked os).file.failed = false) : w.file.failed = false := by
  rw [Writer.flushStagingBufferLocked] at hf
  split at hf
  · exact hf
  · exact (writeAll_spec hf).1

/-- Flushing moves the staged bytes into the file, in any number of short writes. -/
theorem flush_wrote (hw : Wrote z h as w) (hf : (w.flushStagingBufferLocked os).file.failed = false) :
    Wrote z h as (w.flushStagingBufferLocked os) ∧ (w.flushStagingBufferLocked os).stagingBuffer = [] := by
  rw [Writer.flushStagingBufferLocked] at hf ⊢
  split at hf
  · next hempty =>
    have hnil : w.stagingBuffer = [] := by
      obtain hclosed | hnil := hempty
      · rw [hw.opened] at hclosed
        cases hclosed
      · exact hnil
    rw [if_pos hempty]
    exact ⟨hw, hnil⟩
  · next hempty =>
    rw [if_neg hempty]
    obtain ⟨-, hcount, hbytes⟩ := writeAll_spec hf
    refine ⟨⟨hw.opened, ?_, ?_, writeLoop_le_maxSize _ _ _ hw.size, hw.index⟩, rfl⟩
    · rw [List.append_nil, hbytes]
      exact hw.bytes
    · dsimp only
      rw [hcount, hbytes, hw.offset, List.length_append, UInt64.ofNat_add]

theorem stage_wrote (hw : Wrote z h as w) (a : ChunkArgs) : Wrote z h (as ++ [a]) (w.stage z a) := by
  have hlen := congrArg List.length hw.bytes
  simp only [List.length_append, length_fileHeader] at hlen
  refine ⟨hw.opened, ?_, hw.offset, hw.size, ?_⟩
  · simp only [Writer.stage, chunkBytes_snoc, ← List.append_assoc, ← hw.bytes]
  · simp only [Writer.stage, entriesFrom_snoc, hw.index, hw.offset, ← UInt64.ofNat_add, hlen]

theorem call_wrote (hw : Wrote z h as w) (c : Call) (hf : (w.call z os c).file.failed = false) :
    Wrote z h (as ++ taken z [c]) (w.call z os c) := by
  cases c with
  | flush => simpa [taken, Writer.call] using (flush_wrote hw hf).1
  | writeChunk a =>
    simp only [Writer.call, Writer.writeChunk, hw.opened] at hf ⊢
    by_cases ht : a.Taken z
    · have htaken : taken z [.writeChunk a] = [a] := by simp [taken, ht]
      rw [if_neg (by simp [ht.1]), if_neg ht.2] at hf ⊢
      rw [htaken]
      split at hf
      · next hfull =>
        rw [if_pos hfull]
        exact (flush_wrote (stage_wrote hw a) hf).1
      · next hfull =>
        rw [if_neg hfull]
        exact stage_wrote hw a
    · have htaken : taken z [.writeChunk a] = [] := by simp [taken, ht]
      rw [htaken, List.append_nil]
      simp only [ChunkArgs.Taken, not_and, ne_eq] at ht
      by_cases hd : a.data = []
      · simpa [hd] using hw
      · simpa [hd, Classical.not_not.mp (ht hd)] using hw

theorem call_failed (c : Call) (hf : (w.call z os c).file.failed = false) : w.file.failed = false := by
  cases c with
  | flush => exact flush_failed hf
  | writeChunk a =>
    simp only [Writer.call, Writer.writeChunk] at hf
    split at hf
    · exact hf
    · split at hf
      · exact hf
      · split at hf
        · exact flush_failed (w := w.stage z a) hf
        · exact hf

theorem calls_failed (cs : List Call) (hf : (w.calls z os cs).file.failed = false) : w.file.failed = false := by
  induction cs generalizing w with
  | nil => exact hf
  | cons c cs ih => exact call_failed c (ih hf)

/-- Any sequence of calls: the file and the staging buffer together hold the
header and the chunks that were taken, in order. -/
theorem calls_wrote (hw : Wrote z h as w) (cs : List Call) (hf : (w.calls z os cs).file.failed = false) :
    Wrote z h (as ++ taken z cs) (w.calls z os cs) := by
  induction cs generalizing w as with
  | nil => simpa [taken, Writer.calls] using hw
  | cons c cs ih =>
    have hrest := ih (call_wrote hw c (calls_failed cs hf)) hf
    rw [taken_cons, ← List.append_assoc]
    exact hrest

theorem flush_totalRecords (os : Nat → Int) (w : Writer) :
    (w.flushStagingBufferLocked os).totalRecords = w.totalRecords ∧
      (w.flushStagingBufferLocked os).opened = w.opened := by
  rw [Writer.flushStagingBufferLocked]
  split <;> exact ⟨rfl, rfl⟩

theorem call_totalRecords (ho : w.opened = true) (c : Call) :
    (w.call z os c).totalRecords = w.totalRecords + ((taken z [c]).map fun a => a.recordCount.toUInt64).sum ∧
      (w.call z os c).opened = true := by
  cases c with
  | flush =>
    obtain ⟨hr, hop⟩ := flush_totalRecords os w
    simp [Writer.call, taken, hr, hop, ho]
  | writeChunk a =>
    simp only [Writer.call, Writer.writeChunk, ho]
    by_cases ht : a.Taken z
    · have htaken : taken z [.writeChunk a] = [a] := by simp [taken, ht]
      obtain ⟨hr, hop⟩ := flush_totalRecords os (w.stage z a)
      rw [if_neg (by simp [ht.1]), if_neg ht.2, htaken]
      split
      · rw [hr, hop]
        simp [Writer.stage, ho]
      · simp [Writer.stage, ho]
    · have htaken : taken z [.writeChunk a] = [] := by simp [taken, ht]
      simp only [ChunkArgs.Taken, not_and, ne_eq] at ht
      by_cases hd : a.data = []
      · simp [htaken, hd, ho]
      · simp [htaken, hd, Classical.not_not.mp (ht hd), ho]

theorem calls_totalRecords (ho : w.opened = true) (cs : List Call) :
    (w.calls z os cs).totalRecords = w.totalRecords + ((taken z cs).map fun a => a.recordCount.toUInt64).sum := by
  induction cs generalizing w with
  | nil => simp [taken, Writer.calls]
  | cons c cs ih =>
    obtain ⟨hr, hop⟩ := call_totalRecords (z := z) ho c
    rw [taken_cons, List.map_append, List.sum_append, ← UInt64.add_assoc, ← hr]
    exact ih hop

theorem closingTrailer_totalRecords (os : Nat → Int) (w : Writer) :
    (w.closingTrailer os).totalRecords = w.totalRecords := by
  have hindex : ∀ v : Writer, (v.writeIndex os).totalRecords = v.totalRecords := by
    intro v
    rw [Writer.writeIndex]
    split <;> rfl
  rw [← (flush_totalRecords os w).1]
  exact hindex _

end Container
