import Ubpftrace.ContainerRoundTrip

/-!
# The chunk loop on files that end early

`walk` stops where a read goes past the end of the file. The loop of
`parse_ubpf_file` does not: a short read leaves the stream failed, `tellg`
answers -1 from then on, which as a 64-bit number plus the size of a chunk
header is 63, and the loop goes on with what its uninitialised header happens
to hold. Here is the loop with its stream, for every content of that header.
-/

namespace Container

open Bytes

/-- `read` of `n` bytes into a buffer with the bytes `old`, at a position or on
a failed stream. A short read stores what there is and fails the stream. -/
def streamRead (mem : Nat → UInt8) (size : Nat) (old : Nat → UInt8) (n : Nat) :
    Option Nat → (Nat → UInt8) × Option Nat
  | none => (old, none)
  | some pos =>
    (fun i => if i < n ∧ pos + i < size then mem (pos + i) else old i, if pos + n ≤ size then some (pos + n) else none)

/-- `tellg` as a 64-bit number. -/
def tellg : Option Nat → Nat
  | some pos => pos
  | none => 2 ^ 64 - 1

/-- The left side of the loop condition. Positions in a file are far below 2⁶⁴,
so that only the sum with the -1 of a failed stream wraps. -/
def headerEnd : Option Nat → Nat
  | some pos => pos + chunkHeaderSize
  | none => (2 ^ 64 - 1 + chunkHeaderSize) % 2 ^ 64

/-- What is pushed for a header and a payload buffer. -/
def pushed (z : Lz4) (header : ChunkHeader) (comp : List UInt8) (chunkPos : Nat) : DecodedChunk :=
  { header := header
    crcValid := computeCrc32 comp = header.crc32
    fileOffset := .ofNat chunkPos
    data := decompress z comp header.uncompressedSize.toNat }

/-- The loop, `i` rounds after its start. `stack i` is what stands in the place
of `chdr` before its read; the payload buffer is a vector of zeros. -/
def chunkLoop (z : Lz4) (mem : Nat → UInt8) (size stop : Nat) (stack : Nat → Nat → UInt8) :
    Nat → Nat → Option Nat → Option (List DecodedChunk)
  | 0, _, _ => none
  | fuel + 1, i, stream =>
    if headerEnd stream ≤ stop then
      let headerRead := streamRead mem size (stack i) chunkHeaderSize stream
      let chdr := ChunkHeader.read headerRead.1 0
      if chdr.chunkMagic ≠ chunkMagic then some []
      else
        let payloadRead := streamRead mem size (fun _ => 0) chdr.compressedSize.toNat headerRead.2
        (chunkLoop z mem size stop stack fuel (i + 1) payloadRead.2).map
          (pushed z chdr (slice payloadRead.1 0 chdr.compressedSize.toNat) (tellg stream) :: ·)
    else some []

/-- `end_offset`. -/
def endOffset (file : List UInt8) : Nat :=
  match findTrailer file with
  | some t => t.indexTableOffset.toNat
  | none => file.length

/-- The chunks that `parse_ubpf_file` finds, if the loop ends within `fuel` rounds. -/
def parseChunks (z : Lz4) (file : List UInt8) (stack : Nat → Nat → UInt8) (fuel : Nat) : Option (List DecodedChunk) :=
  if file.length < fileHeaderSize then some []
  else if (FileHeader.read (ofList file) 0).magic ≠ fileMagic then some []
  else chunkLoop z (ofList file) file.length (endOffset file) stack fuel 0 (some fileHeaderSize)

def magicBytes : List UInt8 := le 4 chunkMagic.toNat

/-- Where the payload of the chunk at `pos` ends. -/
def nextChunk (mem : Nat → UInt8) (pos : Nat) : Nat :=
  pos + chunkHeaderSize + (ChunkHeader.read mem pos).compressedSize.toNat

/-- From `pos` on the loop comes to a header or a payload that the file does not
hold in full. A cut header counts if the rest of it can make it a chunk. -/
inductive Overruns (mem : Nat → UInt8) (size stop : Nat) : Nat → Prop where
  | header {pos : Nat} (enters : pos + chunkHeaderSize ≤ stop) (short : size < pos + chunkHeaderSize)
      (compatible : ∀ i (hi : i < magicBytes.length), pos + i < size → mem (pos + i) = magicBytes[i]) :
      Overruns mem size stop pos
  | payload {pos : Nat} (enters : pos + chunkHeaderSize ≤ stop) (whole : pos + chunkHeaderSize ≤ size)
      (magic : (ChunkHeader.read mem pos).chunkMagic = chunkMagic) (short : size < nextChunk mem pos) :
      Overruns mem size stop pos
  | later {pos : Nat} (enters : pos + chunkHeaderSize ≤ stop) (whole : pos + chunkHeaderSize ≤ size)
      (magic : (ChunkHeader.read mem pos).chunkMagic = chunkMagic) (fits : nextChunk mem pos ≤ size)
      (rest : Overruns mem size stop (nextChunk mem pos)) : Overruns mem size stop pos

section

variable (z : Lz4) (mem : Nat → UInt8) (size stop : Nat) (stack : Nat → Nat → UInt8)

/-- The loop ends with the chunks `ds`. -/
def Returns (i : Nat) (stream : Option Nat) (ds : List DecodedChunk) : Prop :=
  ∃ fuel, chunkLoop z mem size stop stack fuel i stream = some ds

end

variable {z : Lz4} {mem : Nat → UInt8} {size stop pos i : Nat} {stack : Nat → Nat → UInt8} {stream : Option Nat}
  {ds : List DecodedChunk}

theorem returns_iff : Returns z mem size stop stack i stream ds ↔
    ∃ fuel, chunkLoop z mem size stop stack (fuel + 1) i stream = some ds := by
  constructor
  · rintro ⟨fuel, hfuel⟩
    cases fuel with
    | zero => cases hfuel
    | succ fuel => exact ⟨fuel, hfuel⟩
  · rintro ⟨fuel, hfuel⟩
    exact ⟨fuel + 1, hfuel⟩

theorem magic_iff_holds (mem : Nat → UInt8) (a : Nat) :
    (ChunkHeader.read mem a).chunkMagic = chunkMagic ↔ Holds mem a magicBytes := by
  constructor
  · intro h
    have hread : readLe mem a 4 = chunkMagic.toNat := by
      have hlt : readLe mem a 4 < UInt32.size := readLe_lt mem a 4
      rw [← h]
      exact (UInt32.toNat_ofNat_of_lt' hlt).symm
    have hbytes := le_readLe mem a (slice mem a 4) (holds_slice mem a 4)
    rw [length_slice, hread] at hbytes
    rw [magicBytes, hbytes]
    exact holds_slice mem a 4
  · intro h
    exact readU32_of_holds mem a chunkMagic h

theorem header_congr {mem mem' : Nat → UInt8} {a b : Nat} (h : ∀ i < chunkHeaderSize, mem (a + i) = mem' (b + i)) :
    ChunkHeader.read mem a = ChunkHeader.read mem' b := by
  have hfield : ∀ o w, o + w ≤ chunkHeaderSize → readLe mem (a + o) w = readLe mem' (b + o) w := by
    intro o w how
    apply readLe_congr
    intro i hi
    rw [Nat.add_assoc, Nat.add_assoc]
    exact h (o + i) (by omega)
  have hmagic := hfield 0 4 (by decide)
  rw [Nat.add_zero, Nat.add_zero] at hmagic
  simp only [ChunkHeader.read, hmagic, hfield 4 2 (by decide), hfield 6 2 (by decide), hfield 8 4 (by decide),
    hfield 12 4 (by decide), hfield 16 8 (by decide), hfield 24 8 (by decide), hfield 32 4 (by decide),
    hfield 36 4 (by decide), hfield 40 4 (by decide)]

theorem streamRead_whole (mem old : Nat → UInt8) {n : Nat} (h : pos + n ≤ size) :
    (streamRead mem size old n (some pos)).2 = some (pos + n) ∧
      ∀ i < n, (streamRead mem size old n (some pos)).1 i = mem (pos + i) := by
  refine ⟨if_pos h, fun i hi => ?_⟩
  exact if_pos ⟨hi, by omega⟩

theorem streamRead_short (mem old : Nat → UInt8) {n : Nat} (h : size < pos + n) :
    (streamRead mem size old n (some pos)).2 = none := if_neg (by omega)

theorem read_whole_header (h : pos + chunkHeaderSize ≤ size) :
    ChunkHeader.read (streamRead mem size (stack i) chunkHeaderSize (some pos)).1 0 = ChunkHeader.read mem pos := by
  apply header_congr
  intro j hj
  rw [Nat.zero_add]
  exact (streamRead_whole mem (stack i) h).2 j hj

/-- If the header read is that of a chunk, the bytes the file has of it are those of the magic. -/
theorem compatible_of_magic
    (h : (ChunkHeader.read (streamRead mem size (stack i) chunkHeaderSize (some pos)).1 0).chunkMagic = chunkMagic) :
    ∀ j (hj : j < magicBytes.length), pos + j < size → mem (pos + j) = magicBytes[j] := by
  intro j hj hlt
  have hread := (magic_iff_holds _ 0).mp h j hj
  have hj' : j < chunkHeaderSize := Nat.lt_trans hj (by decide)
  rw [Nat.zero_add] at hread
  rw [← hread]
  exact (if_pos ⟨hj', hlt⟩).symm

theorem round_stop (h : stop < pos + chunkHeaderSize) : Returns z mem size stop stack i (some pos) ds ↔ ds = [] := by
  simp only [returns_iff, chunkLoop, headerEnd, if_neg (Nat.not_le_of_lt h), exists_const, Option.some.injEq, eq_comm]

theorem round_break {j : Nat} (hj : j < magicBytes.length) (hlt : pos + j < size)
    (hne : mem (pos + j) ≠ magicBytes[j]) : Returns z mem size stop stack i (some pos) [] := by
  use 1
  rw [chunkLoop]
  split
  · apply if_pos
    intro hmagic
    exact hne (compatible_of_magic hmagic j hj hlt)
  · rfl

theorem round_push (henters : headerEnd stream ≤ stop) {chdr : ChunkHeader} {next : Option Nat}
    (hread : ChunkHeader.read (streamRead mem size (stack i) chunkHeaderSize stream).1 0 = chdr)
    (hnext : (streamRead mem size (stack i) chunkHeaderSize stream).2 = next) (hmagic : chdr.chunkMagic = chunkMagic) :
    Returns z mem size stop stack i stream ds ↔
      ∃ ds', Returns z mem size stop stack (i + 1)
          (streamRead mem size (fun _ => 0) chdr.compressedSize.toNat next).2 ds' ∧
        pushed z chdr (slice (streamRead mem size (fun _ => 0) chdr.compressedSize.toNat next).1 0
          chdr.compressedSize.toNat) (tellg stream) :: ds' = ds := by
  subst hread hnext
  rw [returns_iff]
  simp only [chunkLoop, if_pos henters, hmagic, ne_eq, not_true, if_false, Option.map_eq_some_iff, Returns]
  rw [exists_comm]
  simp only [exists_and_right]

section

variable (henters : pos + chunkHeaderSize ≤ stop) (hwhole : pos + chunkHeaderSize ≤ size)
    (hmagic : (ChunkHeader.read mem pos).chunkMagic = chunkMagic)
include henters hwhole hmagic

theorem round_chunk (hfits : nextChunk mem pos ≤ size) :
    Returns z mem size stop stack i (some pos) ds ↔
      ∃ ds', Returns z mem size stop stack (i + 1) (some (nextChunk mem pos)) ds' ∧ chunkAt z mem pos :: ds' = ds := by
  have hheader := (streamRead_whole mem (stack i) hwhole).1
  have hpayload := streamRead_whole mem (fun _ => 0) hfits
  have hslice : slice (streamRead mem size (fun _ => 0) (ChunkHeader.read mem pos).compressedSize.toNat
      (some (pos + chunkHeaderSize))).1 0 (ChunkHeader.read mem pos).compressedSize.toNat =
      slice mem (pos + chunkHeaderSize) (ChunkHeader.read mem pos).compressedSize.toNat := by
    apply List.map_congr_left
    intro j hj
    rw [Nat.zero_add]
    exact hpayload.2 j (List.mem_range.mp hj)
  rw [round_push henters (read_whole_header hwhole) hheader hmagic, hpayload.1, hslice]
  rfl

/-- A chunk whose payload is cut is pushed all the same, and the stream has failed. -/
theorem round_cut_payload (hshort : size < nextChunk mem pos) (h : Returns z mem size stop stack i (some pos) ds) :
    ∃ d ds', Returns z mem size stop stack (i + 1) none ds' ∧ d :: ds' = ds := by
  have hheader := (streamRead_whole mem (stack i) hwhole).1
  have hpayload := streamRead_short mem (fun _ => 0) hshort
  rw [round_push henters (read_whole_header hwhole) hheader hmagic, hpayload] at h
  exact ⟨_, h⟩

end

/-- What a header in the place of `chdr` makes of a cut one. -/
theorem round_cut_header (henters : pos + chunkHeaderSize ≤ stop) (hshort : size < pos + chunkHeaderSize)
    (hcompatible : ∀ j (hj : j < magicBytes.length), pos + j < size → mem (pos + j) = magicBytes[j])
    (hstack : Holds (stack i) 0 magicBytes) (h : Returns z mem size stop stack i (some pos) ds) :
    ∃ ds', Returns z mem size stop stack (i + 1) none ds' := by
  have hheader := streamRead_short mem (stack i) hshort
  have hmagic : (ChunkHeader.read (streamRead mem size (stack i) chunkHeaderSize (some pos)).1 0).chunkMagic =
      chunkMagic := by
    rw [magic_iff_holds]
    intro j hj
    have hold := hstack j hj
    rw [Nat.zero_add] at hold ⊢
    rw [streamRead]
    dsimp only
    split
    · next hread => exact hcompatible j hj hread.2
    · exact hold
  obtain ⟨ds', hds', -⟩ := (round_push henters rfl hheader hmagic).mp h
  exact ⟨ds', hds'⟩

/-- On a failed stream the loop is in the hands of its stack. With a chunk header left there it goes on
for ever. -/
theorem failed_never_returns (hstop : chunkHeaderSize ≤ stop) (hstack : ∀ i, Holds (stack i) 0 magicBytes)
    (ds : List DecodedChunk) (i : Nat) : ¬ Returns z mem size stop stack i none ds := by
  have henters : headerEnd none ≤ stop := Nat.le_trans (by decide) hstop
  induction ds generalizing i with
  | nil =>
    rw [round_push henters rfl rfl ((magic_iff_holds _ _).mpr (hstack i))]
    rintro ⟨ds', -, hcons⟩
    cases hcons
  | cons d ds ih =>
    rw [round_push henters rfl rfl ((magic_iff_holds _ _).mpr (hstack i))]
    rintro ⟨ds', hds', hcons⟩
    obtain ⟨-, rfl⟩ := List.cons.inj hcons
    exact ih _ hds'

theorem Overruns.never_returns (h : Overruns mem size stop pos) (hstack : ∀ i, Holds (stack i) 0 magicBytes)
    (i : Nat) (ds : List DecodedChunk) : ¬ Returns z mem size stop stack i (some pos) ds := by
  induction h generalizing i ds with
  | header henters hshort hcompatible =>
    intro hreturns
    obtain ⟨ds', hfailed⟩ := round_cut_header henters hshort hcompatible (hstack i) hreturns
    exact failed_never_returns (Nat.le_trans (Nat.le_add_left _ _) henters) hstack ds' _ hfailed
  | payload henters hwhole hmagic hshort =>
    intro hreturns
    obtain ⟨-, ds', hfailed, -⟩ := round_cut_payload henters hwhole hmagic hshort hreturns
    exact failed_never_returns (Nat.le_trans (Nat.le_add_left _ _) henters) hstack ds' _ hfailed
  | later henters hwhole hmagic hfits _ ih =>
    rw [round_chunk henters hwhole hmagic hfits]
    rintro ⟨ds', hlater, -⟩
    exact ih _ _ hlater

/-- Without an overrun the loop ends, and what it returns does not depend on the stack. -/
theorem returns_of_not_overruns (h : ¬ Overruns mem size stop pos) :
    ∃ ds, ∀ stack i, Returns z mem size stop stack i (some pos) ds := by
  induction hn : stop - pos using Nat.strong_induction_on generalizing pos with
  | _ n ih =>
    by_cases henters : pos + chunkHeaderSize ≤ stop
    · by_cases hcompatible : ∀ j (hj : j < magicBytes.length), pos + j < size → mem (pos + j) = magicBytes[j]
      · have hwhole : pos + chunkHeaderSize ≤ size := by
          by_contra hshort
          exact h (.header henters (by omega) hcompatible)
        have hmagic : (ChunkHeader.read mem pos).chunkMagic = chunkMagic := by
          rw [magic_iff_holds]
          intro j hj
          have hj' : j < chunkHeaderSize := Nat.lt_trans hj (by decide)
          exact hcompatible j hj (by omega)
        have hfits : nextChunk mem pos ≤ size := by
          by_contra hshort
          exact h (.payload henters hwhole hmagic (by omega))
        have hsize : 0 < chunkHeaderSize := by decide
        have hnext : pos + chunkHeaderSize ≤ nextChunk mem pos := Nat.le_add_right _ _
        obtain ⟨ds, hrest⟩ := ih _ (by omega) (fun hlater => h (.later henters hwhole hmagic hfits hlater)) rfl
        use chunkAt z mem pos :: ds
        intro stack i
        exact (round_chunk henters hwhole hmagic hfits).mpr ⟨ds, hrest stack (i + 1), rfl⟩
      · push Not at hcompatible
        obtain ⟨j, hj, hlt, hne⟩ := hcompatible
        exact ⟨[], fun stack i => round_break hj hlt hne⟩
    · exact ⟨[], fun stack i => (round_stop (by omega)).mpr rfl⟩

/-- A container file that was closed: its chunks end to end, an index entry for
each of them, and a trailer that counts them and points to the index. -/
structure Closed (z : Lz4) (h : FileHeader) (as : List ChunkArgs) (t : Trailer) : Prop where
  magic : h.magic = fileMagic
  taken : ∀ a ∈ as, a.Taken z
  totalChunks : t.totalChunks = .ofNat as.length
  offset : t.indexTableOffset.toNat = fileHeaderSize + (chunkBytes z as).length
  trailer : t.trailerMagic = trailerMagic

/-- The chunks from `pos` on of which the first `n` bytes of a file hold every byte. -/
def contained (z : Lz4) (n : Nat) : Nat → List ChunkArgs → List ChunkArgs
  | _, [] => []
  | pos, a :: as =>
    if pos + (a.image z).length ≤ n then a :: contained z n (pos + (a.image z).length) as else []

/-- How a file may be cut after `n` bytes if its end offset is taken for `stop`.
Of a whole chunk the header has to end before `stop`, of a cut one behind it;
behind the last chunk anything will do that is no end of file before `stop`. -/
def CutOk (z : Lz4) (n stop : Nat) : Nat → List ChunkArgs → Prop
  | pos, [] => stop < pos + chunkHeaderSize ∨ pos < n
  | pos, a :: as =>
    if pos + (a.image z).length ≤ n then
      pos + chunkHeaderSize ≤ stop ∧ CutOk z n stop (pos + (a.image z).length) as
    else stop < pos + chunkHeaderSize

instance decidableCutOk (z : Lz4) (n stop : Nat) : ∀ pos as, Decidable (CutOk z n stop pos as)
  | pos, [] => inferInstanceAs (Decidable (stop < pos + chunkHeaderSize ∨ pos < n))
  | pos, a :: as =>
    have := decidableCutOk z n stop (pos + (a.image z).length) as
    inferInstanceAs (Decidable (if pos + (a.image z).length ≤ n then _ ∧ _ else _))

/-- What follows the chunks of a closed file. -/
def closing (z : Lz4) (as : List ChunkArgs) (t : Trailer) : List UInt8 :=
  (entriesFrom z fileHeaderSize as).flatMap IndexEntry.encode ++ t.encode

variable {h : FileHeader} {as : List ChunkArgs} {t : Trailer}

/-- Neither an index table nor a trailer starts like a chunk. -/
theorem Closed.closing_head (hc : Closed z h as t) :
    ∃ b bs, closing z as t = b :: bs ∧ b ≠ magicBytes.head (by decide) := by
  cases as with
  | nil =>
    have hcount : t.totalChunks.toNat = 0 := by
      rw [hc.totalChunks]
      rfl
    exact ⟨.ofNat (t.totalChunks.toNat % 256), _, rfl, by rw [hcount]; decide⟩
  | cons a as => exact ⟨128, _, rfl, by decide⟩

theorem image_magic (z : Lz4) (a : ChunkArgs) : ∃ bs, a.image z = magicBytes ++ bs :=
  ⟨_, by simp only [ChunkArgs.image, ChunkHeader.encode, List.append_assoc]; rfl⟩

/-- A chunk header left behind on the stack. -/
def magicStack : Nat → Nat → UInt8 := fun _ => ofList magicBytes

theorem holds_magicStack (i : Nat) : Holds (magicStack i) 0 magicBytes := by
  intro j hj
  simp [magicStack, ofList, hj]

theorem loop_of_cut_iff {full : Nat → UInt8} (rest : List UInt8) (hta : ∀ a ∈ as, a.Taken z)
    (hfull : Holds full pos (chunkBytes z as ++ rest)) (hagree : ∀ j < size, mem j = full j)
    (hsize : size ≤ pos + (chunkBytes z as ++ rest).length)
    (hrest : ∃ b bs, rest = b :: bs ∧ b ≠ magicBytes.head (by decide)) :
    (∀ stack, Returns z mem size stop stack i (some pos) (decodedFrom z pos (contained z size pos as))) ↔
      CutOk z size stop pos as := by
  induction as generalizing pos i with
  | nil =>
    constructor
    · intro hloop
      by_contra hcut
      simp only [CutOk, not_or] at hcut
      have hpos : 0 < chunkHeaderSize := by decide
      have hover : Overruns mem size stop pos :=
        .header (by omega) (by omega) fun j _ hlt => absurd hlt (by omega)
      exact hover.never_returns holds_magicStack i _ (hloop magicStack)
    · rintro (hstop | hmore) stack
      · exact (round_stop hstop).mpr rfl
      · obtain ⟨b, bs, rfl, hb⟩ := hrest
        have hbyte : full pos = b := by simpa [chunkBytes] using hfull 0 (by simp [chunkBytes])
        refine round_break (j := 0) (by decide) hmore ?_
        change mem pos ≠ _
        rw [hagree pos hmore, hbyte]
        exact hb
  | cons a as ih =>
    have hcons : chunkBytes z (a :: as) ++ rest = a.image z ++ (chunkBytes z as ++ rest) := by simp [chunkBytes]
    rw [hcons] at hfull hsize
    rw [List.length_append] at hsize
    obtain ⟨himage, hbehind⟩ := (holds_append _ _ _ _).mp hfull
    have hlen := length_image z a
    have hheader : pos + chunkHeaderSize ≤ size → ChunkHeader.read mem pos = a.header z := by
      intro hwhole
      apply ChunkHeader.read_of_holds
      apply holds_congr full mem pos _ _ ((holds_append _ _ _ _).mp himage).1
      intro j hj
      rw [length_chunkHeader] at hj
      exact (hagree _ (by omega)).symm
    have hnext : pos + chunkHeaderSize ≤ size → nextChunk mem pos = pos + (a.image z).length := by
      intro hwhole
      rw [nextChunk, hheader hwhole, hlen, Nat.add_assoc]
    rw [contained, CutOk]
    by_cases hfits : pos + (a.image z).length ≤ size
    · rw [if_pos hfits, if_pos hfits]
      have hwhole : pos + chunkHeaderSize ≤ size := by omega
      have hmagic : (ChunkHeader.read mem pos).chunkMagic = chunkMagic := by
        rw [hheader hwhole]
        rfl
      have hchunk : chunkAt z mem pos = ⟨a.header z, true, .ofNat pos, some a.data⟩ := by
        apply chunkAt_of_holds _ _ _ (hta a List.mem_cons_self)
        exact holds_congr full mem pos _ (fun j hj => (hagree _ (by omega)).symm) himage
      have hlater : (∀ stack, Returns z mem size stop stack (i + 1) (some (pos + (a.image z).length)) _) ↔ _ :=
        ih (fun b hb => hta b (List.mem_cons_of_mem a hb)) hbehind (by omega)
      have hround (henters : pos + chunkHeaderSize ≤ stop) {stack ds} :=
        @round_chunk z mem size stop pos i stack ds henters hwhole hmagic (by rwa [hnext hwhole])
      rw [hchunk, hnext hwhole] at hround
      constructor
      · intro hloop
        have henters : pos + chunkHeaderSize ≤ stop := by
          by_contra hstop
          cases (round_stop (by omega)).mp (hloop magicStack)
        refine ⟨henters, hlater.mp fun stack => ?_⟩
        obtain ⟨ds, hds, hcons⟩ := (hround henters).mp (hloop stack)
        rwa [(List.cons.inj hcons).2] at hds
      · rintro ⟨henters, hcut⟩ stack
        exact (hround henters).mpr ⟨_, hlater.mpr hcut stack, rfl⟩
    · rw [if_neg hfits, if_neg hfits]
      constructor
      · intro hloop
        by_contra henters
        have hover : Overruns mem size stop pos := by
          by_cases hwhole : pos + chunkHeaderSize ≤ size
          · refine .payload (by omega) hwhole ?_ ?_
            · rw [hheader hwhole]
              rfl
            · omega
          · refine .header (by omega) (by omega) ?_
            obtain ⟨bs, hbs⟩ := image_magic z a
            intro j hj hlt
            rw [hbs] at himage
            rw [hagree _ hlt]
            exact ((holds_append _ _ _ _).mp himage).1 j hj
        exact hover.never_returns holds_magicStack i _ (hloop magicStack)
      · intro hstop stack
        exact (round_stop hstop).mpr rfl

/-- A file that ends in its header is taken as the loop would take it. -/
theorem exists_parseChunks_iff {file : List UInt8}
    (hmagic : fileHeaderSize ≤ file.length → (FileHeader.read (ofList file) 0).magic = fileMagic) :
    (∃ fuel, parseChunks z file stack fuel = some ds) ↔
      Returns z (ofList file) file.length (endOffset file) stack 0 (some fileHeaderSize) ds := by
  by_cases hsmall : file.length < fileHeaderSize
  · have hstop : endOffset file < fileHeaderSize + chunkHeaderSize := by
      rw [endOffset, findTrailer, if_neg (by omega)]
      exact Nat.lt_add_right _ hsmall
    simp only [parseChunks, if_pos hsmall, round_stop hstop, exists_const, Option.some.injEq, eq_comm]
  · simp only [parseChunks, if_neg hsmall, hmagic (by omega), ne_eq, not_true, if_false, Returns]

/-- The chunk loop ends on a file, whatever its uninitialised header holds,
exactly if it comes to no header or payload that the file holds in part only.
On the first `n` bytes of a closed file it returns exactly the chunks that are
wholly among them if and only if the cut is at the right place. -/
theorem chunk_loop_exact_iff (z : Lz4) (h : FileHeader) (as : List ChunkArgs) (t : Trailer) (hc : Closed z h as t)
    (n : Nat) (hle : n ≤ (layout z h as t).length) :
    (∀ file, (∀ stack, ∃ fuel ds, parseChunks z file stack fuel = some ds) ↔
        (fileHeaderSize ≤ file.length → (FileHeader.read (ofList file) 0).magic = fileMagic →
          ¬ Overruns (ofList file) file.length (endOffset file) fileHeaderSize)) ∧
      ((∀ stack, ∃ fuel, parseChunks z ((layout z h as t).take n) stack fuel =
          some (decodedFrom z fileHeaderSize (contained z n fileHeaderSize as))) ↔
        CutOk z n (endOffset ((layout z h as t).take n)) fileHeaderSize as) := by
  constructor
  · intro file
    simp only [parseChunks]
    split
    · next hsmall => exact iff_of_true (fun _ => ⟨0, [], rfl⟩) fun hsize => absurd hsmall (Nat.not_lt_of_le hsize)
    · next hsize =>
      split
      · next hmagic => exact iff_of_true (fun _ => ⟨0, [], rfl⟩) fun _ heq => absurd heq hmagic
      · next hmagic =>
        constructor
        · intro hall _ _ hover
          obtain ⟨fuel, ds, hfuel⟩ := hall magicStack
          exact hover.never_returns holds_magicStack 0 ds ⟨fuel, hfuel⟩
        · intro hover stack
          obtain ⟨ds, hds⟩ := returns_of_not_overruns (hover (Nat.le_of_not_lt hsize) (not_not.mp hmagic))
          obtain ⟨fuel, hfuel⟩ := hds stack 0
          exact ⟨fuel, ds, hfuel⟩
  · have hlayout : layout z h as t = h.encode ++ (chunkBytes z as ++ closing z as t) ++ [] := by
      simp only [layout, closing, List.append_assoc, List.append_nil]
    have hfull : Holds (ofList (layout z h as t)) fileHeaderSize (chunkBytes z as ++ closing z as t) := by
      rw [hlayout, ← length_fileHeader h]
      exact holds_ofList _ _ _
    have hlen : ((layout z h as t).take n).length = n := by
      rw [List.length_take]
      omega
    have hagree : ∀ j < n, ofList ((layout z h as t).take n) j = ofList (layout z h as t) j := by
      intro j hj
      simp [ofList, hj]
    have hsize : n ≤ fileHeaderSize + (chunkBytes z as ++ closing z as t).length := by
      rw [hlayout, List.append_nil, List.length_append, length_fileHeader] at hle
      exact hle
    have hmagic : fileHeaderSize ≤ n → (FileHeader.read (ofList ((layout z h as t).take n)) 0).magic = fileMagic := by
      intro hn
      rw [FileHeader.read_of_holds _ 0 h, hc.magic]
      intro j hj
      rw [length_fileHeader] at hj
      rw [hagree _ (by omega), hlayout, List.append_nil]
      simpa using holds_ofList [] h.encode (chunkBytes z as ++ closing z as t) j (by rwa [length_fileHeader])
    simp only [exists_parseChunks_iff (by rwa [hlen]), hlen]
    exact loop_of_cut_iff (closing z as t) hc.taken hfull hagree hsize hc.closing_head

/-- The trailer of a file with one chunk of three bytes. -/
def sampleTrailer : Trailer := ⟨1, 1, 0, 196, trailerMagic⟩

theorem sample_closed : Closed literalCodec sampleHeader [sample] sampleTrailer where
  magic := rfl
  taken := by decide
  totalChunks := rfl
  offset := by decide
  trailer := rfl

/-- The file cut in the header of its only chunk. -/
theorem chunk_loop_exact_iff_sample :
    Closed literalCodec sampleHeader [sample] sampleTrailer ∧
      ∀ stack, ∃ fuel, parseChunks literalCodec ((layout literalCodec sampleHeader [sample] sampleTrailer).take 150)
        stack fuel = some [] := by
  have hcut := (chunk_loop_exact_iff literalCodec sampleHeader [sample] sampleTrailer sample_closed 150
    (by decide +kernel)).2
  exact ⟨sample_closed, hcut.mpr (by decide +kernel)⟩

/-- Cut one byte into its payload. -/
def cutSample : List UInt8 := (layout literalCodec sampleHeader [sample] sampleTrailer).take 193

/-- No chunk is wholly contained. With the header of the cut chunk left on the
stack the loop never ends, and it never returns the empty list. -/
theorem cut_payload_never_ends :
    contained literalCodec 193 fileHeaderSize [sample] = [] ∧
      (∀ fuel, parseChunks literalCodec cutSample (fun _ => ofList (sample.header literalCodec).encode) fuel = none) ∧
      ∀ stack fuel, parseChunks literalCodec cutSample stack fuel ≠ some [] := by
  have hsize : cutSample.length = 193 := by decide +kernel
  have hstop : endOffset cutSample = 193 := by decide +kernel
  have hmagic : (ChunkHeader.read (ofList cutSample) fileHeaderSize).chunkMagic = chunkMagic := by decide +kernel
  have hnext : nextChunk (ofList cutSample) fileHeaderSize = 196 := by decide +kernel
  have hloop (stack : Nat → Nat → UInt8) (fuel : Nat) : parseChunks literalCodec cutSample stack fuel =
      chunkLoop literalCodec (ofList cutSample) 193 193 stack fuel 0 (some fileHeaderSize) := by
    have hfile : (FileHeader.read (ofList cutSample) 0).magic = fileMagic := by decide +kernel
    simp only [parseChunks, hsize, hstop, hfile, ne_eq, not_true, if_false]
    exact if_neg (by decide)
  refine ⟨by decide +kernel, fun fuel => ?_, fun stack fuel hnil => ?_⟩
  · rw [hloop]
    have hover : Overruns (ofList cutSample) 193 193 fileHeaderSize :=
      .payload (by decide) (by decide) hmagic (by rw [hnext]; decide)
    refine Option.eq_none_iff_forall_ne_some.mpr fun ds hds => hover.never_returns ?_ 0 ds ⟨fuel, hds⟩
    intro _ j hj
    revert j
    decide +kernel
  · rw [hloop] at hnil
    obtain ⟨d, ds, -, hcons⟩ := round_cut_payload (by decide) (by decide) hmagic (by rw [hnext]; decide) ⟨fuel, hnil⟩
    cases hcons

end Container
