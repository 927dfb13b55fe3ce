import Ubpftrace.ContainerReader

/-!
# What is written is read back

A file that was opened, written to by any calls and closed without a failing
write is parsed back exactly if the two single writes of `close` were complete.
The staging buffer is written in a loop, so that short writes before `close`
do not matter.
-/

namespace Container

open Bytes
open ShortWrites

/-- Where the chunks end that a walk has found. -/
def chunksEnd (ds : List DecodedChunk) : Nat :=
  fileHeaderSize + (ds.map fun d => chunkHeaderSize + d.header.compressedSize.toNat).sum

/-- The index table fills the space between the last chunk and the trailer, one
entry for each chunk, with the offset and the size of that chunk. -/
def Indexed (file : List UInt8) (df : DecodedFile) : Prop :=
  ∃ t, df.trailer = some t ∧ t.indexTableOffset.toNat = chunksEnd df.chunks ∧
    file.length = t.indexTableOffset.toNat + indexEntrySize * df.chunks.length + trailerSize ∧
    ∀ i (hi : i < df.chunks.length),
      let e := IndexEntry.read (ofList file) (t.indexTableOffset.toNat + indexEntrySize * i)
      e.fileOffset = df.chunks[i].fileOffset ∧ e.compressedSize = df.chunks[i].header.compressedSize

/-- Parsing the file finds exactly these chunks, with their headers and
payloads and a valid CRC, and an index table that matches them. -/
def RoundTrips (z : Lz4) (as : List ChunkArgs) (file : List UInt8) : Prop :=
  ∃ df, parseUbpfFile z file = .ok df ∧
    df.chunks.map (fun d => (d.header, d.crcValid, d.data)) = as.map (fun a => (a.header z, true, some a.data)) ∧
    Indexed file df

/-- The index table goes out in its one `write`. -/
def Writer.IndexComplete (os : Nat → Int) (w : Writer) : Prop :=
  let flushed := w.flushStagingBufferLocked os
  flushed.indexTable = [] ∨ flushed.file.accepts os flushed.indexBytes.length = flushed.indexBytes.length

/-- The trailer goes out in its one `write`. -/
def Writer.TrailerComplete (os : Nat → Int) (w : Writer) : Prop :=
  ((w.flushStagingBufferLocked os).writeIndex os).file.accepts os trailerSize = trailerSize

instance (os : Nat → Int) (w : Writer) : Decidable (w.IndexComplete os) := inferInstanceAs (Decidable (_ ∨ _))

instance (os : Nat → Int) (w : Writer) : Decidable (w.TrailerComplete os) := inferInstanceAs (Decidable (_ = _))

variable {z : Lz4} {os : Nat → Int} {h : FileHeader} {as : List ChunkArgs} {w : Writer}

theorem sum_sizes (z : Lz4) (as : List ChunkArgs) :
    (as.map fun a => chunkHeaderSize + (a.header z).compressedSize.toNat).sum = (chunkBytes z as).length := by
  induction as with
  | nil => rfl
  | cons a as ih =>
    rw [List.map_cons, List.sum_cons, ih, ← length_image]
    simp [chunkBytes]

theorem chunksEnd_eq {ds : List DecodedChunk}
    (hd : ds.map (fun d => (d.header, d.crcValid, d.data)) = as.map (fun a => (a.header z, true, some a.data))) :
    ds.length = as.length ∧ chunksEnd ds = fileHeaderSize + (chunkBytes z as).length := by
  have hlen := congrArg List.length hd
  have hhead := congrArg (List.map fun p => chunkHeaderSize + p.1.compressedSize.toNat) hd
  simp only [List.map_map, Function.comp_def] at hhead
  simp only [List.length_map] at hlen
  exact ⟨hlen, by rw [chunksEnd, hhead, sum_sizes]⟩

theorem length_indexBytes (w : Writer) : w.indexBytes.length = indexEntrySize * w.indexTable.length :=
  length_flatMap_rows IndexEntry.encode indexEntrySize length_indexEntry w.indexTable

/-- How many bytes of the index table went out. -/
def Writer.indexAccepted (os : Nat → Int) (w : Writer) : Int :=
  if w.indexTable = [] then 0 else w.file.accepts os w.indexBytes.length

theorem indexAccepted_le (os : Nat → Int) (w : Writer) : w.indexAccepted os ≤ w.indexBytes.length := by
  rw [Writer.indexAccepted]
  split
  · omega
  · exact accepts_le _ _ _

theorem length_writeIndex (hf : (w.writeIndex os).file.failed = false) :
    w.file.failed = false ∧
      ((w.writeIndex os).file.bytes.length : Int) = w.file.bytes.length + w.indexAccepted os := by
  rw [Writer.writeIndex, Writer.indexAccepted] at *
  split at hf
  · next hnil =>
    rw [if_pos hnil, if_pos hnil]
    exact ⟨hf, by omega⟩
  · next hne =>
    rw [if_neg hne, if_neg hne]
    obtain ⟨hprev, hpos⟩ := write_failed hf
    exact ⟨hprev, length_write _ hpos⟩

theorem close_file (ho : w.opened = true) :
    (w.close os).file =
      ((w.flushStagingBufferLocked os).writeIndex os).file.write os (w.closingTrailer os).encode := by
  rw [Writer.close, if_neg (by simp [ho])]

theorem close_failed (hf : (w.close os).file.failed = false) : w.file.failed = false := by
  cases ho : w.opened with
  | false =>
    rw [Writer.close, if_pos ho] at hf
    exact hf
  | true =>
    rw [close_file ho] at hf
    exact flush_failed (length_writeIndex (write_failed hf).1).1

theorem close_wrote (hw : Wrote z h as w) (hf : (w.close os).file.failed = false) :
    Wrote z h as (w.flushStagingBufferLocked os) ∧
      (w.flushStagingBufferLocked os).file.bytes = h.encode ++ chunkBytes z as ∧
      ((w.close os).file.bytes.length : Int) = fileHeaderSize + (chunkBytes z as).length +
        (w.flushStagingBufferLocked os).indexAccepted os +
        ((w.flushStagingBufferLocked os).writeIndex os).file.accepts os trailerSize := by
  rw [close_file hw.opened] at hf ⊢
  obtain ⟨hindexed, htrailer⟩ := write_failed hf
  obtain ⟨hflushed, hlen⟩ := length_writeIndex hindexed
  obtain ⟨hwrote, hempty⟩ := flush_wrote hw hflushed
  have hbytes := hwrote.bytes
  rw [hempty, List.append_nil] at hbytes
  refine ⟨hwrote, hbytes, ?_⟩
  rw [length_write _ htrailer, hlen, hbytes, List.length_append, length_fileHeader, length_trailer]
  omega

/-- Parsed back, the file has room for the whole table and the whole trailer. -/
theorem complete_of_roundTrips (hw : Wrote z h as w) (hf : (w.close os).file.failed = false)
    (hr : RoundTrips z as (w.close os).file.bytes) : w.IndexComplete os ∧ w.TrailerComplete os := by
  obtain ⟨hwrote, -, hlen⟩ := close_wrote hw hf
  obtain ⟨df, -, hchunks, t, -, hend, hsize, -⟩ := hr
  obtain ⟨hcount, hstop⟩ := chunksEnd_eq hchunks
  have hindex := length_indexBytes (w.flushStagingBufferLocked os)
  have hle := indexAccepted_le os (w.flushStagingBufferLocked os)
  have htle := accepts_le os ((w.flushStagingBufferLocked os).writeIndex os).file trailerSize
  rw [hwrote.index, length_entriesFrom] at hindex
  rw [hend, hstop, hcount] at hsize
  have hi : (w.flushStagingBufferLocked os).indexAccepted os = (w.flushStagingBufferLocked os).indexBytes.length := by
    omega
  constructor
  · rw [Writer.indexAccepted] at hi
    split at hi
    · next hnil => exact Or.inl hnil
    · exact Or.inr hi
  · rw [Writer.TrailerComplete]
    omega

/-- The layout of a completely written file. -/
def layout (z : Lz4) (h : FileHeader) (as : List ChunkArgs) (t : Trailer) : List UInt8 :=
  h.encode ++ chunkBytes z as ++ (entriesFrom z fileHeaderSize as).flatMap IndexEntry.encode ++ t.encode

theorem close_layout (hw : Wrote z h as w) (hf : (w.close os).file.failed = false) (hi : w.IndexComplete os)
    (ht : w.TrailerComplete os) :
    ∃ t : Trailer, (w.close os).file.bytes = layout z h as t ∧ t.trailerMagic = trailerMagic ∧
      t.indexTableOffset.toNat = fileHeaderSize + (chunkBytes z as).length ∧ t.totalChunks = .ofNat as.length := by
  obtain ⟨hwrote, hbytes, -⟩ := close_wrote hw hf
  rw [close_file hw.opened]
  rw [Writer.TrailerComplete] at ht
  rw [Writer.IndexComplete] at hi
  rw [Writer.closingTrailer]
  generalize w.flushStagingBufferLocked os = flushed at *
  have hindexed : (flushed.writeIndex os).file.bytes = flushed.file.bytes ++ flushed.indexBytes := by
    rw [Writer.writeIndex]
    split
    · next hnil => simp [Writer.indexBytes, hnil]
    · next hne => exact write_complete (hi.resolve_left hne)
  have hsize : flushed.file.bytes.length < UInt64.size := Nat.lt_of_le_of_lt hwrote.size (by decide)
  refine ⟨(flushed.writeIndex os).trailer flushed.currentFileOffset, ?_, rfl, ?_, ?_⟩
  · rw [write_complete (by exact ht), hindexed, hbytes, Writer.indexBytes, hwrote.index]
    rfl
  · change flushed.currentFileOffset.toNat = _
    rw [hwrote.offset, UInt64.toNat_ofNat_of_lt' hsize, hbytes, List.length_append, length_fileHeader]
  · have htable : (flushed.writeIndex os).indexTable = flushed.indexTable := by
      rw [Writer.writeIndex]
      split <;> rfl
    rw [Writer.trailer, htable, hwrote.index, length_entriesFrom]

theorem map_decodedFrom (z : Lz4) (pos : Nat) (as : List ChunkArgs) :
    (decodedFrom z pos as).map (fun d => (d.header, d.crcValid, d.data)) =
      as.map (fun a => (a.header z, true, some a.data)) := by
  induction as generalizing pos with
  | nil => rfl
  | cons a as ih => simp only [decodedFrom, List.map_cons, ih]

theorem entriesFrom_decodedFrom (z : Lz4) (pos : Nat) (as : List ChunkArgs) :
    (entriesFrom z pos as).map (fun e => (e.fileOffset, e.compressedSize)) =
      (decodedFrom z pos as).map (fun d => (d.fileOffset, d.header.compressedSize)) := by
  induction as generalizing pos with
  | nil => rfl
  | cons a as ih =>
    simp only [entriesFrom, decodedFrom, List.map_cons, ih]
    rfl

theorem length_layout (z : Lz4) (h : FileHeader) (as : List ChunkArgs) (t : Trailer) :
    (layout z h as t).length =
      fileHeaderSize + (chunkBytes z as).length + indexEntrySize * as.length + trailerSize := by
  simp only [layout, List.length_append, length_fileHeader, length_trailer,
    length_flatMap_rows IndexEntry.encode indexEntrySize length_indexEntry, length_entriesFrom]

theorem findTrailer_layout (t : Trailer) (ht : t.trailerMagic = trailerMagic) :
    findTrailer (layout z h as t) = some t := by
  have hlen := length_layout z h as t
  have hpos : (h.encode ++ chunkBytes z as ++ (entriesFrom z fileHeaderSize as).flatMap IndexEntry.encode).length =
      (layout z h as t).length - trailerSize := by
    simp only [hlen, List.length_append, length_fileHeader,
      length_flatMap_rows IndexEntry.encode indexEntrySize length_indexEntry, length_entriesFrom]
    omega
  have hholds : Holds (ofList (layout z h as t)) ((layout z h as t).length - trailerSize) t.encode := by
    rw [← hpos, layout]
    simpa only [List.append_nil] using holds_ofList _ t.encode []
  rw [findTrailer, if_pos (by omega)]
  simp only [Trailer.read_of_holds _ _ _ hholds, ht, if_true]

theorem walk_layout (hta : ∀ a ∈ as, a.Taken z) (t : Trailer) :
    walk z (ofList (layout z h as t)) (layout z h as t).length (fileHeaderSize + (chunkBytes z as).length)
      fileHeaderSize = .ok (decodedFrom z fileHeaderSize as) := by
  have hholds := holds_ofList h.encode (chunkBytes z as)
    ((entriesFrom z fileHeaderSize as).flatMap IndexEntry.encode ++ t.encode)
  rw [length_fileHeader, ← List.append_assoc] at hholds
  apply walk_chunks _ _ _ _ hta hholds
  rw [length_layout]
  omega

theorem parse_layout (hmagic : h.magic = fileMagic) (hta : ∀ a ∈ as, a.Taken z) (t : Trailer)
    (ht : t.trailerMagic = trailerMagic) (hoff : t.indexTableOffset.toNat = fileHeaderSize + (chunkBytes z as).length) :
    parseUbpfFile z (layout z h as t) =
      .ok (decodedFile (layout z h as t).length h (some t) (decodedFrom z fileHeaderSize as)) := by
  have hlen := length_layout z h as t
  have hholds := holds_ofList [] h.encode
    (chunkBytes z as ++ (entriesFrom z fileHeaderSize as).flatMap IndexEntry.encode ++ t.encode)
  have hhead : FileHeader.read (ofList (layout z h as t)) 0 = h := by
    apply FileHeader.read_of_holds
    simpa [layout] using hholds
  rw [parseUbpfFile, if_neg (by omega)]
  simp only [hhead, hmagic, findTrailer_layout t ht, hoff, walk_layout hta t]
  simp

theorem read_index_layout (t : Trailer) (i : Nat) (hi : i < (entriesFrom z fileHeaderSize as).length) :
    IndexEntry.read (ofList (layout z h as t)) (fileHeaderSize + (chunkBytes z as).length + indexEntrySize * i) =
      (entriesFrom z fileHeaderSize as)[i] := by
  have hholds := holds_ofList (h.encode ++ chunkBytes z as)
    ((entriesFrom z fileHeaderSize as).flatMap IndexEntry.encode) t.encode
  rw [List.length_append, length_fileHeader] at hholds
  exact IndexEntry.read_of_holds _ _ _ (holds_flatMap _ _ _ _ length_indexEntry _ hholds i hi)

theorem roundTrips_layout (hmagic : h.magic = fileMagic) (hta : ∀ a ∈ as, a.Taken z) (t : Trailer)
    (ht : t.trailerMagic = trailerMagic) (hoff : t.indexTableOffset.toNat = fileHeaderSize + (chunkBytes z as).length) :
    RoundTrips z as (layout z h as t) := by
  have hmap := map_decodedFrom z fileHeaderSize as
  have hend := (chunksEnd_eq hmap).2
  refine ⟨_, parse_layout hmagic hta t ht hoff, hmap, t, rfl, ?_, ?_, ?_⟩
  · rw [hoff]
    exact hend.symm
  · rw [hoff, length_layout]
    simp [decodedFile]
  · intro i hi
    have hi' : i < (entriesFrom z fileHeaderSize as).length := by simpa [decodedFile] using hi
    have hrow := congrArg (fun l => l[i]?) (entriesFrom_decodedFrom z fileHeaderSize as)
    simp only [List.getElem?_map, List.getElem?_eq_getElem hi', Option.map_some] at hrow
    rw [hoff, read_index_layout t i hi']
    change i < (decodedFrom z fileHeaderSize as).length at hi
    rw [List.getElem?_eq_getElem hi, Option.map_some, Option.some.injEq, Prod.mk.injEq] at hrow
    exact hrow

theorem taken_mem (z : Lz4) (cs : List Call) : ∀ a ∈ taken z cs, a.Taken z := by
  intro a ha
  obtain ⟨c, -, hc⟩ := List.mem_filterMap.mp ha
  cases c with
  | flush => cases hc
  | writeChunk b =>
    dsimp only at hc
    split at hc
    · next hb =>
      cases hc
      exact hb
    · cases hc

/-- For every codec that inverts its compression, every pattern of short writes
and every sequence of calls between `open` and `close` in which no write fails:
the file is parsed back to the chunks that were taken, with a matching index
table, exactly if each of the two writes of `close` took all its bytes. -/
theorem parse_inverts_write_iff (z : Lz4) (os : Nat → Int) (jobId nodeId : UInt32) (hostname : Option (List UInt8))
    (monotonicNs wallclockNs : UInt64) (w : Writer) (cs : List Call)
    (ho : openFile os (newHeader jobId nodeId hostname monotonicNs wallclockNs) = some w)
    (hf : ((w.calls z os cs).close os).file.failed = false) :
    RoundTrips z (taken z cs) ((w.calls z os cs).close os).file.bytes ↔
      (w.calls z os cs).IndexComplete os ∧ (w.calls z os cs).TrailerComplete os := by
  have hcalls : (w.calls z os cs).file.failed = false := close_failed hf
  have hw := calls_wrote (openFile_wrote ho) cs hcalls
  rw [List.nil_append] at hw
  constructor
  · exact complete_of_roundTrips hw hf
  · rintro ⟨hi, ht⟩
    obtain ⟨t, hbytes, hmagic, hoff, -⟩ := close_layout hw hf hi ht
    rw [hbytes]
    exact roundTrips_layout rfl (taken_mem z cs) t hmagic hoff

def sample : ChunkArgs := ⟨chunkTypeEventStream, [1, 2, 3], by decide, 1, 0, 0, 0⟩

def sampleHeader : FileHeader := newHeader 7 0 none 0 0

/-- A system that writes everything it is given, one hundred bytes at most after the header. -/
def patient (call : Nat) : Int := if call = 0 then 128 else 100

theorem parse_inverts_write_iff_patient :
    ∃ w, openFile patient sampleHeader = some w ∧
      ((w.calls literalCodec patient [.writeChunk sample, .flush]).close patient).file.failed = false ∧
      (RoundTrips literalCodec (taken literalCodec [.writeChunk sample, .flush])
          ((w.calls literalCodec patient [.writeChunk sample, .flush]).close patient).file.bytes ↔
        (w.calls literalCodec patient [.writeChunk sample, .flush]).IndexComplete patient ∧
          (w.calls literalCodec patient [.writeChunk sample, .flush]).TrailerComplete patient) := by
  have hrun : (openFile patient sampleHeader).map
      (fun w => ((w.calls literalCodec patient [.writeChunk sample, .flush]).close patient).file.failed) =
        some false := by decide +kernel
  obtain ⟨w, hw, hf⟩ := Option.map_eq_some_iff.mp hrun
  exact ⟨w, hw, hf, parse_inverts_write_iff literalCodec patient 7 0 none 0 0 w _ hw hf⟩

/-- A system that takes eight bytes of the third write, which is the index table. -/
def impatient (call : Nat) : Int := if call = 2 then 8 else 128

/-- One chunk, no failing write, and a short write of the index table: the file
is not parsed back to its chunk and a matching index. -/
theorem short_index_write_lost :
    ∃ w, openFile impatient sampleHeader = some w ∧
      ((w.calls literalCodec impatient [.writeChunk sample]).close impatient).file.failed = false ∧
      ¬ RoundTrips literalCodec (taken literalCodec [.writeChunk sample])
        ((w.calls literalCodec impatient [.writeChunk sample]).close impatient).file.bytes := by
  have hrun : (openFile impatient sampleHeader).map (fun w =>
      (((w.calls literalCodec impatient [.writeChunk sample]).close impatient).file.failed,
        ((w.calls literalCodec impatient [.writeChunk sample]).flushStagingBufferLocked impatient).indexTable.length,
        ((w.calls literalCodec impatient [.writeChunk sample]).flushStagingBufferLocked impatient).file.accepts
          impatient 40)) = some (false, 1, 8) := by decide +kernel
  obtain ⟨w, hw, hres⟩ := Option.map_eq_some_iff.mp hrun
  obtain ⟨hf, hres⟩ := Prod.mk.inj hres
  obtain ⟨hlen, hacc⟩ := Prod.mk.inj hres
  refine ⟨w, hw, hf, fun hr => ?_⟩
  have hwrote := calls_wrote (openFile_wrote hw) [.writeChunk sample] (close_failed hf)
  obtain hnil | hfull := (complete_of_roundTrips hwrote hf hr).1
  · rw [hnil] at hlen
    cases hlen
  · rw [length_indexBytes, hlen] at hfull
    change File.accepts impatient _ 40 = 40 at hfull
    rw [hacc] at hfull
    cases hfull

end Container
