import Ubpftrace.EventRecord

/-!
# The container file format

The packed structures of `ubpf_container_writer.hpp`: a 128-byte file header,
chunks of a 64-byte header and a compressed payload, an index table of 40-byte
entries and a 40-byte trailer. Bytes the writer clears and no reader looks at
are part of the layout and not of the structures.
-/

namespace Container

open Bytes

def fileMagic : UInt32 := 0x55425046
def fileVersion : UInt32 := 0x00010000
def chunkMagic : UInt32 := 0x43484E4B
def trailerMagic : UInt64 := 0x5542504654524C52
def chunkTypeEventStream : UInt16 := 1
def codecLz4 : UInt16 := 1

def fileHeaderSize : Nat := 128
def chunkHeaderSize : Nat := 64
def indexEntrySize : Nat := 40
def trailerSize : Nat := 40

structure FileHeader where
  magic : UInt32
  version : UInt32
  jobId : UInt32
  nodeId : UInt32
  hostname : List UInt8
  hostname_length : hostname.length = 64
  codecId : UInt16
  timestampBaseNs : UInt64
  wallclockBaseNs : UInt64
  deriving DecidableEq

structure ChunkHeader where
  chunkMagic : UInt32
  chunkType : UInt16
  codecId : UInt16
  uncompressedSize : UInt32
  compressedSize : UInt32
  chunkStartNs : UInt64
  chunkEndNs : UInt64
  recordCount : UInt32
  droppedEventsCount : UInt32
  crc32 : UInt32
  deriving DecidableEq

structure IndexEntry where
  fileOffset : UInt64
  compressedSize : UInt32
  chunkType : UInt16
  codecId : UInt16
  startNs : UInt64
  endNs : UInt64
  recordCount : UInt32
  droppedCount : UInt32
  deriving DecidableEq

structure Trailer where
  totalChunks : UInt32
  totalRecords : UInt64
  totalDropped : UInt64
  indexTableOffset : UInt64
  trailerMagic : UInt64
  deriving DecidableEq

def FileHeader.encode (h : FileHeader) : List UInt8 :=
  le 4 h.magic.toNat ++ le 4 h.version.toNat ++ le 4 h.jobId.toNat ++ le 4 h.nodeId.toNat ++ h.hostname ++
    le 2 h.codecId.toNat ++ List.replicate 6 0 ++ le 8 h.timestampBaseNs.toNat ++ le 8 h.wallclockBaseNs.toNat ++
    List.replicate 24 0

def ChunkHeader.encode (h : ChunkHeader) : List UInt8 :=
  le 4 h.chunkMagic.toNat ++ le 2 h.chunkType.toNat ++ le 2 h.codecId.toNat ++ le 4 h.uncompressedSize.toNat ++
    le 4 h.compressedSize.toNat ++ le 8 h.chunkStartNs.toNat ++ le 8 h.chunkEndNs.toNat ++ le 4 h.recordCount.toNat ++
    le 4 h.droppedEventsCount.toNat ++ le 4 h.crc32.toNat ++ List.replicate 20 0

def IndexEntry.encode (e : IndexEntry) : List UInt8 :=
  le 8 e.fileOffset.toNat ++ le 4 e.compressedSize.toNat ++ le 2 e.chunkType.toNat ++ le 2 e.codecId.toNat ++
    le 8 e.startNs.toNat ++ le 8 e.endNs.toNat ++ le 4 e.recordCount.toNat ++ le 4 e.droppedCount.toNat

def Trailer.encode (t : Trailer) : List UInt8 :=
  le 4 t.totalChunks.toNat ++ List.replicate 4 0 ++ le 8 t.totalRecords.toNat ++ le 8 t.totalDropped.toNat ++
    le 8 t.indexTableOffset.toNat ++ le 8 t.trailerMagic.toNat

def FileHeader.read (mem : Nat → UInt8) (a : Nat) : FileHeader where
  magic := .ofNat (readLe mem a 4)
  version := .ofNat (readLe mem (a + 4) 4)
  jobId := .ofNat (readLe mem (a + 8) 4)
  nodeId := .ofNat (readLe mem (a + 12) 4)
  hostname := slice mem (a + 16) 64
  hostname_length := length_slice _ _ _
  codecId := .ofNat (readLe mem (a + 80) 2)
  timestampBaseNs := .ofNat (readLe mem (a + 88) 8)
  wallclockBaseNs := .ofNat (readLe mem (a + 96) 8)

def ChunkHeader.read (mem : Nat → UInt8) (a : Nat) : ChunkHeader where
  chunkMagic := .ofNat (readLe mem a 4)
  chunkType := .ofNat (readLe mem (a + 4) 2)
  codecId := .ofNat (readLe mem (a + 6) 2)
  uncompressedSize := .ofNat (readLe mem (a + 8) 4)
  compressedSize := .ofNat (readLe mem (a + 12) 4)
  chunkStartNs := .ofNat (readLe mem (a + 16) 8)
  chunkEndNs := .ofNat (readLe mem (a + 24) 8)
  recordCount := .ofNat (readLe mem (a + 32) 4)
  droppedEventsCount := .ofNat (readLe mem (a + 36) 4)
  crc32 := .ofNat (readLe mem (a + 40) 4)

def IndexEntry.read (mem : Nat → UInt8) (a : Nat) : IndexEntry where
  fileOffset := .ofNat (readLe mem a 8)
  compressedSize := .ofNat (readLe mem (a + 8) 4)
  chunkType := .ofNat (readLe mem (a + 12) 2)
  codecId := .ofNat (readLe mem (a + 14) 2)
  startNs := .ofNat (readLe mem (a + 16) 8)
  endNs := .ofNat (readLe mem (a + 24) 8)
  recordCount := .ofNat (readLe mem (a + 32) 4)
  droppedCount := .ofNat (readLe mem (a + 36) 4)

def Trailer.read (mem : Nat → UInt8) (a : Nat) : Trailer where
  totalChunks := .ofNat (readLe mem a 4)
  totalRecords := .ofNat (readLe mem (a + 8) 8)
  totalDropped := .ofNat (readLe mem (a + 16) 8)
  indexTableOffset := .ofNat (readLe mem (a + 24) 8)
  trailerMagic := .ofNat (readLe mem (a + 32) 8)

@[simp] theorem length_fileHeader (h : FileHeader) : h.encode.length = fileHeaderSize := by
  simp [FileHeader.encode, fileHeaderSize, h.hostname_length]
@[simp] theorem length_chunkHeader (h : ChunkHeader) : h.encode.length = chunkHeaderSize := by
  simp [ChunkHeader.encode, chunkHeaderSize]
@[simp] theorem length_indexEntry (e : IndexEntry) : e.encode.length = indexEntrySize := by
  simp [IndexEntry.encode, indexEntrySize]
@[simp] theorem length_trailer (t : Trailer) : t.encode.length = trailerSize := by
  simp [Trailer.encode, trailerSize]

variable (mem : Nat → UInt8)

theorem FileHeader.read_of_holds (a : Nat) (h : FileHeader) (hm : Holds mem a h.encode) :
    FileHeader.read mem a = h := by
  simp only [FileHeader.encode, holds_append, List.length_append, length_le, List.length_replicate,
    h.hostname_length] at hm
  obtain ⟨⟨⟨⟨⟨⟨⟨⟨⟨h₁, h₂⟩, h₃⟩, h₄⟩, h₅⟩, h₆⟩, -⟩, h₇⟩, h₈⟩, -⟩ := hm
  have hs := slice_of_holds _ _ _ h₅
  cases h with
  | mk magic version jobId nodeId hostname hlen codecId base wall =>
    rw [hlen] at hs
    simp only [FileHeader.read, readU32_of_holds _ _ _ h₁, readU32_of_holds _ _ _ h₂, readU32_of_holds _ _ _ h₃,
      readU32_of_holds _ _ _ h₄, hs, readU16_of_holds _ _ _ h₆, readU64_of_holds _ _ _ h₇, readU64_of_holds _ _ _ h₈]

theorem ChunkHeader.read_of_holds (a : Nat) (h : ChunkHeader) (hm : Holds mem a h.encode) :
    ChunkHeader.read mem a = h := by
  simp only [ChunkHeader.encode, holds_append, List.length_append, length_le] at hm
  obtain ⟨⟨⟨⟨⟨⟨⟨⟨⟨⟨h₁, h₂⟩, h₃⟩, h₄⟩, h₅⟩, h₆⟩, h₇⟩, h₈⟩, h₉⟩, h₁₀⟩, -⟩ := hm
  simp only [ChunkHeader.read, readU32_of_holds _ _ _ h₁, readU16_of_holds _ _ _ h₂, readU16_of_holds _ _ _ h₃,
    readU32_of_holds _ _ _ h₄, readU32_of_holds _ _ _ h₅, readU64_of_holds _ _ _ h₆, readU64_of_holds _ _ _ h₇,
    readU32_of_holds _ _ _ h₈, readU32_of_holds _ _ _ h₉, readU32_of_holds _ _ _ h₁₀]

theorem IndexEntry.read_of_holds (a : Nat) (e : IndexEntry) (hm : Holds mem a e.encode) :
    IndexEntry.read mem a = e := by
  simp only [IndexEntry.encode, holds_append, List.length_append, length_le] at hm
  obtain ⟨⟨⟨⟨⟨⟨⟨h₁, h₂⟩, h₃⟩, h₄⟩, h₅⟩, h₆⟩, h₇⟩, h₈⟩ := hm
  simp only [IndexEntry.read, readU64_of_holds _ _ _ h₁, readU32_of_holds _ _ _ h₂, readU16_of_holds _ _ _ h₃,
    readU16_of_holds _ _ _ h₄, readU64_of_holds _ _ _ h₅, readU64_of_holds _ _ _ h₆, readU32_of_holds _ _ _ h₇,
    readU32_of_holds _ _ _ h₈]

theorem Trailer.read_of_holds (a : Nat) (t : Trailer) (hm : Holds mem a t.encode) :
    Trailer.read mem a = t := by
  simp only [Trailer.encode, holds_append, List.length_append, length_le, List.length_replicate] at hm
  obtain ⟨⟨⟨⟨⟨h₁, -⟩, h₂⟩, h₃⟩, h₄⟩, h₅⟩ := hm
  simp only [Trailer.read, readU32_of_holds _ _ _ h₁, readU64_of_holds _ _ _ h₂, readU64_of_holds _ _ _ h₃,
    readU64_of_holds _ _ _ h₄, readU64_of_holds _ _ _ h₅]

def crcBit (crc : UInt32) : UInt32 := (crc >>> 1) ^^^ (0xEDB88320 &&& (0 - (crc &&& 1)))

def crcByte (crc : UInt32) (b : UInt8) : UInt32 := (List.range 8).foldl (fun c _ => crcBit c) (crc ^^^ b.toUInt32)

def computeCrc32 (bs : List UInt8) : UInt32 := ~~~ (bs.foldl crcByte 0xFFFFFFFF)

/-- LZ4 as the container uses it. A failed compression gives no bytes;
decompression is given the capacity of its output. The sizes are `int`s. -/
structure Lz4 where
  compress : List UInt8 → List UInt8
  decompressSafe : List UInt8 → Nat → Option (List UInt8)
  compress_lt : ∀ bs, (compress bs).length < 2 ^ 31
  decompress_compress : ∀ bs, compress bs ≠ [] → decompressSafe (compress bs) bs.length = some bs

/-- `LZ4_MAX_INPUT_SIZE`. -/
def lz4MaxInputSize : Nat := 0x7E000000

/-- An LZ4 block that is one run of literals, which is what the library gives
for less than thirteen bytes: the length in the high half of the token, carried
on in bytes of 255 and a rest. -/
def literalBlock (bs : List UInt8) : List UInt8 :=
  if bs.length < 15 then UInt8.ofNat (16 * bs.length) :: bs
  else 0xF0 :: (List.replicate ((bs.length - 15) / 255) 255 ++ UInt8.ofNat ((bs.length - 15) % 255) :: bs)

/-- The literals of such a block, if its length agrees with its token and fits the output. -/
def readLiteralBlock (comp : List UInt8) (capacity : Nat) : Option (List UInt8) :=
  match comp with
  | [] => none
  | token :: rest =>
    if token.toNat / 16 < 15 then
      if rest.length = token.toNat / 16 ∧ rest.length ≤ capacity then some rest else none
    else
      match rest.dropWhile (· = 255) with
      | [] => none
      | last :: literals =>
        if literals.length = 15 + 255 * (rest.takeWhile (· = 255)).length + last.toNat ∧ literals.length ≤ capacity then
          some literals
        else none

theorem length_literalBlock (bs : List UInt8) :
    (literalBlock bs).length ≤ bs.length + bs.length / 255 + 2 := by
  rw [literalBlock]
  split
  · simp only [List.length_cons]
    omega
  · simp only [List.length_cons, List.length_append, List.length_replicate]
    omega

theorem readLiteralBlock_literalBlock (bs : List UInt8) :
    readLiteralBlock (literalBlock bs) bs.length = some bs := by
  rw [literalBlock]
  split
  · next hlt =>
    have ht : (UInt8.ofNat (16 * bs.length)).toNat / 16 = bs.length := by
      rw [UInt8.toNat_ofNat_of_lt' (by simp only [UInt8.size]; omega)]
      omega
    rw [readLiteralBlock, ht, if_pos hlt]
    simp
  · next hge =>
    have hlast : (UInt8.ofNat ((bs.length - 15) % 255)).toNat = (bs.length - 15) % 255 :=
      UInt8.toNat_ofNat_of_lt' (by simp only [UInt8.size]; omega)
    have hne : UInt8.ofNat ((bs.length - 15) % 255) ≠ 255 := by
      intro he
      rw [he] at hlast
      simp only [UInt8.reduceToNat] at hlast
      omega
    have hrun : ∀ x ∈ List.replicate ((bs.length - 15) / 255) (255 : UInt8), decide (x = 255) = true := by
      simp
    have hdrop : (List.replicate ((bs.length - 15) / 255) 255 ++ UInt8.ofNat ((bs.length - 15) % 255) :: bs).dropWhile
        (· = 255) = UInt8.ofNat ((bs.length - 15) % 255) :: bs := by
      rw [List.dropWhile_append_of_pos hrun, List.dropWhile_cons_of_neg (by simpa using hne)]
    have htake : (List.replicate ((bs.length - 15) / 255) 255 ++ UInt8.ofNat ((bs.length - 15) % 255) :: bs).takeWhile
        (· = 255) = List.replicate ((bs.length - 15) / 255) 255 := by
      rw [List.takeWhile_append_of_pos hrun, List.takeWhile_cons_of_neg (by simpa using hne), List.append_nil]
    rw [readLiteralBlock, if_neg (by decide), hdrop, htake]
    dsimp only
    rw [hlast, List.length_replicate, if_pos ⟨by omega, Nat.le_refl _⟩]

/-- The codec that always emits such a block. -/
def literalCodec : Lz4 where
  compress bs := if bs = [] ∨ lz4MaxInputSize < bs.length then [] else literalBlock bs
  decompressSafe := readLiteralBlock
  compress_lt bs := by
    have := length_literalBlock bs
    split
    · decide
    · next hne =>
      simp only [not_or, lz4MaxInputSize] at hne
      omega
  decompress_compress bs hne := by
    split at hne
    · exact absurd rfl hne
    · next hb =>
      rw [if_neg hb]
      exact readLiteralBlock_literalBlock bs

end Container
