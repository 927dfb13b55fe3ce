import Ubpftrace.ContainerWriter

/-!
# Reading a container file back

`parse_ubpf_file` of `ubpftrace_cat.cpp`: the header, the trailer if the file
ends in one, and the walk over the chunks up to the index table.
-/

namespace Container

open Bytes
open EventRecord (DecodedEvent decodeFrom)
open ShortWrites

structure DecodedChunk where
  header : ChunkHeader
  crcValid : Bool
  fileOffset : UInt64
  /-- The decompressed bytes, from which the events are read. -/
  data : Option (List UInt8)
  deriving DecidableEq

structure DecodedFile where
  fileSize : Nat
  header : FileHeader
  trailer : Option Trailer
  chunks : List DecodedChunk
  events : List DecodedEvent
  totalUncompressedBytes : UInt64
  totalCompressedBytes : UInt64
  totalDroppedEvents : UInt64
  deriving DecidableEq

/-- Why a file is not parsed. `readPastEnd` is a read beyond the end of the
file inside the walk, after which the source goes on with what its buffers hold. -/
inductive ParseError where
  | tooSmall
  | invalidMagic (magic : UInt32)
  | readPastEnd
  deriving DecidableEq

def hexDigits (x : UInt32) : String := String.ofList (Nat.toDigits 16 x.toNat)

/-- What is printed to `stderr`. -/
def ParseError.message (filepath : String) : ParseError → Option String
  | .tooSmall => some ("Error: File size too small for header: " ++ filepath)
  | .invalidMagic magic =>
    some ("Error: Invalid file magic 0x" ++ hexDigits magic ++ " (expected 0x" ++ hexDigits fileMagic ++ ") in " ++
      filepath)
  | .readPastEnd => none

/-- `LZ4_decompress_safe` with both sizes cast to `int`. -/
def decompress (z : Lz4) (comp : List UInt8) (capacity : Nat) : Option (List UInt8) :=
  if 2 ^ 31 ≤ comp.length ∨ 2 ^ 31 ≤ capacity then none else z.decompressSafe comp capacity

/-- The chunk whose header stands at `pos`. -/
def chunkAt (z : Lz4) (mem : Nat → UInt8) (pos : Nat) : DecodedChunk :=
  let header := ChunkHeader.read mem pos
  let comp := slice mem (pos + chunkHeaderSize) header.compressedSize.toNat
  { header := header
    crcValid := computeCrc32 comp = header.crc32
    fileOffset := .ofNat pos
    data := decompress z comp header.uncompressedSize.toNat }

/-- The chunk walk from `pos` up to `stop`. -/
def walk (z : Lz4) (mem : Nat → UInt8) (size stop pos : Nat) : Except ParseError (List DecodedChunk) :=
  if pos + chunkHeaderSize ≤ stop then
    if size < pos + chunkHeaderSize then .error .readPastEnd
    else if (ChunkHeader.read mem pos).chunkMagic ≠ chunkMagic then .ok []
    else
      let next := pos + chunkHeaderSize + (ChunkHeader.read mem pos).compressedSize.toNat
      if size < next then .error .readPastEnd
      else
        match walk z mem size stop next with
        | .error e => .error e
        | .ok rest => .ok (chunkAt z mem pos :: rest)
  else .ok []
termination_by stop - pos
decreasing_by simp only [chunkHeaderSize] at *; omega

def DecodedChunk.events (nodeId : UInt32) (d : DecodedChunk) : List DecodedEvent :=
  match d.data with
  | none => []
  | some bs => decodeFrom nodeId (ofList bs) bs.length 0

def findTrailer (file : List UInt8) : Option Trailer :=
  if fileHeaderSize + trailerSize ≤ file.length then
    let t := Trailer.read (ofList file) (file.length - trailerSize)
    if t.trailerMagic = trailerMagic then some t else none
  else none

/-- What the walk adds up over its chunks. -/
def decodedFile (fileSize : Nat) (header : FileHeader) (trailer : Option Trailer) (chunks : List DecodedChunk) :
    DecodedFile where
  fileSize := fileSize
  header := header
  trailer := trailer
  chunks := chunks
  events := chunks.flatMap (DecodedChunk.events header.nodeId)
  totalUncompressedBytes := (chunks.map fun d => d.header.uncompressedSize.toUInt64).sum
  totalCompressedBytes := (chunks.map fun d => d.header.compressedSize.toUInt64).sum
  totalDroppedEvents := (chunks.map fun d => d.header.droppedEventsCount.toUInt64).sum

def parseUbpfFile (z : Lz4) (file : List UInt8) : Except ParseError DecodedFile :=
  if file.length < fileHeaderSize then .error .tooSmall
  else
    let header := FileHeader.read (ofList file) 0
    if header.magic ≠ fileMagic then .error (.invalidMagic header.magic)
    else
      let trailer := findTrailer file
      let stop := match trailer with
        | some t => t.indexTableOffset.toNat
        | none => file.length
      match walk z (ofList file) file.length stop fileHeaderSize with
      | .error e => .error e
      | .ok chunks => .ok (decodedFile file.length header trailer chunks)

/-- What the walk is to find for chunks that stand one after the other from `pos` on. -/
def decodedFrom (z : Lz4) : Nat → List ChunkArgs → List DecodedChunk
  | _, [] => []
  | pos, a :: as => ⟨a.header z, true, .ofNat pos, some a.data⟩ :: decodedFrom z (pos + (a.image z).length) as

@[simp] theorem length_decodedFrom (z : Lz4) (pos : Nat) (as : List ChunkArgs) :
    (decodedFrom z pos as).length = as.length := by
  induction as generalizing pos with
  | nil => rfl
  | cons a as ih => simp [decodedFrom, ih]

variable {z : Lz4}

theorem compressed_lt (z : Lz4) (a : ChunkArgs) : (a.compressed z).length < 2 ^ 31 := by
  rw [ChunkArgs.compressed]
  split
  · decide
  · exact z.compress_lt _

theorem compressedSize_toNat (z : Lz4) (a : ChunkArgs) :
    (a.header z).compressedSize.toNat = (a.compressed z).length := by
  have := compressed_lt z a
  exact UInt32.toNat_ofNat_of_lt' (Nat.lt_trans this (by decide))

theorem length_image (z : Lz4) (a : ChunkArgs) :
    (a.image z).length = chunkHeaderSize + (a.header z).compressedSize.toNat := by
  rw [compressedSize_toNat, ChunkArgs.image, List.length_append, length_chunkHeader]

theorem decompress_compressed {a : ChunkArgs} (ht : a.Taken z) :
    decompress z (a.compressed z) (a.header z).uncompressedSize.toNat = some a.data := by
  have hlt := compressed_lt z a
  have hcomp := ht.2
  have hsize : (a.header z).uncompressedSize.toNat = a.data.length := UInt32.toNat_ofNat_of_lt' a.data_lt
  rw [ChunkArgs.compressed] at hcomp hlt ⊢
  split at hcomp
  · exact absurd rfl hcomp
  · next hd =>
    rw [if_neg hd] at hlt ⊢
    rw [decompress, hsize, if_neg (by omega)]
    exact z.decompress_compress _ hcomp

theorem chunkAt_of_holds (mem : Nat → UInt8) (pos : Nat) (a : ChunkArgs) (ht : a.Taken z)
    (hm : Holds mem pos (a.image z)) : chunkAt z mem pos = ⟨a.header z, true, .ofNat pos, some a.data⟩ := by
  obtain ⟨hh, hp⟩ := (holds_append _ _ _ _).mp hm
  rw [length_chunkHeader] at hp
  have hslice : slice mem (pos + chunkHeaderSize) (a.header z).compressedSize.toNat = a.compressed z := by
    rw [compressedSize_toNat]
    exact slice_of_holds _ _ _ hp
  simp only [chunkAt, ChunkHeader.read_of_holds _ _ _ hh, hslice, decompress_compressed ht]
  simp [ChunkArgs.header]

theorem walk_chunks (mem : Nat → UInt8) (size pos : Nat) (as : List ChunkArgs) (ht : ∀ a ∈ as, a.Taken z)
    (hm : Holds mem pos (chunkBytes z as)) (hsize : pos + (chunkBytes z as).length ≤ size) :
    walk z mem size (pos + (chunkBytes z as).length) pos = .ok (decodedFrom z pos as) := by
  induction as generalizing pos with
  | nil =>
    rw [walk, if_neg (by simp [chunkBytes, chunkHeaderSize])]
    rfl
  | cons a as ih =>
    have hcons : chunkBytes z (a :: as) = a.image z ++ chunkBytes z as := by simp [chunkBytes]
    rw [hcons, holds_append] at hm
    rw [hcons, List.length_append] at hsize ⊢
    have hlen := length_image z a
    obtain ⟨hh, -⟩ := (holds_append _ _ _ _).mp hm.1
    have hread := ChunkHeader.read_of_holds _ _ _ hh
    have hmagic : (a.header z).chunkMagic = chunkMagic := rfl
    have hrest := ih (pos + (a.image z).length) (fun b hb => ht b (by simp [hb])) hm.2 (by omega)
    rw [walk]
    simp only [hread, hmagic]
    rw [if_pos (by omega), if_neg (by omega), if_neg (by simp), if_neg (by omega), Nat.add_assoc pos, ← hlen,
      ← Nat.add_assoc, hrest, chunkAt_of_holds mem pos a (ht a (by simp)) hm.1]
    rfl

end Container
