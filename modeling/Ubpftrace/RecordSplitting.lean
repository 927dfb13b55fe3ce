import Ubpftrace.MicroStreamer

/-!
# Two decoders of one buffer

`parse_ubpf_file` and `process_chunk` go over a buffer in the same way, from
record length to record length, but stop at different lengths, and neither
compares the payload length of a record with its record length. Here is which
records each of them finds, and which payload bytes each of them reads.
-/

namespace EventRecord

open Bytes

/-- The `record_len` field of the header at `a`. -/
def recordLenAt (mem : Nat → UInt8) (a : Nat) : Nat := (Header.read mem a).recordLen.toNat

/-- A length-driven loop over `len` bytes: the offsets of the headers it accepts,
where lengths up to `refused` end it. -/
def acceptedFrom (refused : Nat) (mem : Nat → UInt8) (len offset : Nat) : List Nat :=
  if offset + headerSize ≤ len then
    let n := recordLenAt mem offset
    if _h : n ≤ refused ∨ len < offset + n then []
    else offset :: acceptedFrom refused mem len (offset + n)
  else []
termination_by len - offset

/-- The records of the event loop of `parse_ubpf_file`. -/
def catOffsets (mem : Nat → UInt8) (len : Nat) : List Nat := acceptedFrom 0 mem len 0

/-- The header at `a` is whole and its length neither refused nor too long. -/
def Accepts (refused : Nat) (mem : Nat → UInt8) (len a : Nat) : Prop :=
  a + headerSize ≤ len ∧ refused < recordLenAt mem a ∧ a + recordLenAt mem a ≤ len

/-- The offsets that such a loop comes to. -/
inductive Comes (refused : Nat) (mem : Nat → UInt8) (len start : Nat) : Nat → Prop where
  | start : Comes refused mem len start start
  | next {a : Nat} (before : Comes refused mem len start a) (accepted : Accepts refused mem len a) :
      Comes refused mem len start (a + recordLenAt mem a)

variable {refused len start a : Nat} {mem : Nat → UInt8}

theorem acceptedFrom_of_accepts (h : Accepts refused mem len a) :
    acceptedFrom refused mem len a = a :: acceptedFrom refused mem len (a + recordLenAt mem a) := by
  obtain ⟨hroom, hlong, hfits⟩ := h
  rw [acceptedFrom, if_pos hroom]
  exact dif_neg (by omega)

theorem acceptedFrom_of_not (h : ¬ Accepts refused mem len a) : acceptedFrom refused mem len a = [] := by
  rw [acceptedFrom]
  split
  · next hroom =>
    apply dif_pos
    by_contra hn
    exact h ⟨hroom, by omega, by omega⟩
  · rfl

theorem Comes.trans {b c : Nat} (h : Comes refused mem len a b) (h' : Comes refused mem len b c) :
    Comes refused mem len a c := by
  induction h' with
  | start => exact h
  | next _ haccepted ih => exact ih.next haccepted

theorem mem_acceptedFrom_iff (x : Nat) :
    x ∈ acceptedFrom refused mem len start ↔ Comes refused mem len start x ∧ Accepts refused mem len x := by
  constructor
  · intro hx
    induction hn : len - start using Nat.strong_induction_on generalizing start with
    | _ n ih =>
      by_cases hacc : Accepts refused mem len start
      · rw [acceptedFrom_of_accepts hacc, List.mem_cons] at hx
        rcases hx with rfl | hrest
        · exact ⟨.start, hacc⟩
        · obtain ⟨hroom, hlong, hfits⟩ := id hacc
          obtain ⟨hcomes, hx⟩ := ih _ (by omega) hrest rfl
          exact ⟨(Comes.next .start hacc).trans hcomes, hx⟩
      · rw [acceptedFrom_of_not hacc] at hx
        cases hx
  · rintro ⟨hcomes, hx⟩
    have hfrom : ∀ y ∈ acceptedFrom refused mem len x, y ∈ acceptedFrom refused mem len start := by
      clear hx
      induction hcomes with
      | start => exact fun y hy => hy
      | next _ hacc ih =>
        intro y hy
        apply ih
        rw [acceptedFrom_of_accepts hacc]
        exact List.mem_cons_of_mem _ hy
    exact hfrom x (by rw [acceptedFrom_of_accepts hx]; exact List.mem_cons_self)

/-- The collecting loop refuses every length below that of a header. -/
theorem collectFrom_eq (mem : Nat → UInt8) (len offset : Nat) :
    collectFrom mem len offset = acceptedFrom (headerSize - 1) mem len offset := by
  induction hn : len - offset using Nat.strong_induction_on generalizing offset with
  | _ n ih =>
    rw [collectFrom, acceptedFrom]
    split
    · next hroom =>
      dsimp only [recordLenAt]
      have hsize : 0 < headerSize := by decide
      by_cases hstop : (Header.read mem offset).recordLen.toNat < headerSize ∨
          len < offset + (Header.read mem offset).recordLen.toNat
      · rw [dif_pos hstop, dif_pos (by omega)]
      · rw [dif_neg hstop, dif_neg (by omega), ih _ (by omega) _ rfl]
    · rfl

section Splitting

/-- Where a record starts, and what its header says. -/
structure Piece where
  offset : Nat
  eventType : UInt16
  timestampNs : UInt64
  payloadLen : UInt32
  deriving DecidableEq

def pieceAt (mem : Nat → UInt8) (a : Nat) : Piece :=
  let h := Header.read mem a
  ⟨a, h.eventType, h.timestampNs, h.payloadLen⟩

theorem pieceAt_injective (mem : Nat → UInt8) : Function.Injective (pieceAt mem) := by
  intro a b h
  exact congrArg Piece.offset h

theorem Accepts.mono {refused' : Nat} (hle : refused' ≤ refused) (h : Accepts refused mem len a) :
    Accepts refused' mem len a :=
  ⟨h.1, Nat.lt_of_le_of_lt hle h.2.1, h.2.2⟩

/-- Two loops that accept different lengths find the same records exactly if no
header that the stricter one comes to has a length between the two bounds. -/
theorem acceptedFrom_eq_iff {refused' : Nat} (hle : refused' ≤ refused) (start : Nat) :
    acceptedFrom refused' mem len start = acceptedFrom refused mem len start ↔
      ∀ a, Comes refused mem len start a → Accepts refused' mem len a → Accepts refused mem len a := by
  constructor
  · intro he a hcomes hacc
    have hcomes' : Comes refused' mem len start a := by
      clear hacc
      induction hcomes with
      | start => exact .start
      | next _ hstep ih => exact ih.next (hstep.mono hle)
    have hmem := (mem_acceptedFrom_iff a).mpr ⟨hcomes', hacc⟩
    rw [he] at hmem
    exact ((mem_acceptedFrom_iff a).mp hmem).2
  · intro h
    induction hn : len - start using Nat.strong_induction_on generalizing start with
    | _ n ih =>
      by_cases hacc : Accepts refused mem len start
      · obtain ⟨hroom, hlong, hfits⟩ := id hacc
        rw [acceptedFrom_of_accepts hacc, acceptedFrom_of_accepts (hacc.mono hle)]
        congr 1
        apply ih _ (by omega) _ _ rfl
        intro a hcomes
        exact h a ((Comes.next .start hacc).trans hcomes)
      · rw [acceptedFrom_of_not hacc, acceptedFrom_of_not fun hweak => hacc (h start .start hweak)]

/-- The offline decoder and the micro streamer split a buffer into the same
records exactly if no header that the streamer comes to has a length that is
positive and below the size of a header. -/
theorem decoders_split_alike_iff (mem : Nat → UInt8) (len : Nat) :
    (catOffsets mem len).map (pieceAt mem) = (collectFrom mem len 0).map (pieceAt mem) ↔
      ∀ a, Comes (headerSize - 1) mem len 0 a → a + headerSize ≤ len →
        recordLenAt mem a = 0 ∨ headerSize ≤ recordLenAt mem a := by
  rw [(List.map_injective_iff.mpr (pieceAt_injective mem)).eq_iff, collectFrom_eq, catOffsets,
    acceptedFrom_eq_iff (Nat.zero_le _)]
  constructor
  · intro h a hcomes hroom
    by_contra hshort
    have hacc := h a hcomes ⟨hroom, by omega, by omega⟩
    have := hacc.2.1
    omega
  · intro h a hcomes hacc
    have hlong := h a hcomes hacc.1
    have := hacc.2.1
    exact ⟨hacc.1, by omega, hacc.2.2⟩

def stunted : List UInt8 := Header.encode ⟨8, 0, 1, 0, 0, 0⟩

theorem stunted_record_only_offline :
    ((catOffsets (ofList stunted) 24).map (pieceAt (ofList stunted)) = [⟨0, 1, 0, 0⟩] ∧
      (collectFrom (ofList stunted) 24 0).map (pieceAt (ofList stunted)) = []) := by
  have hlen : recordLenAt (ofList stunted) 0 = 8 := by decide
  have hpiece : pieceAt (ofList stunted) 0 = ⟨0, 1, 0, 0⟩ := by decide
  constructor
  · rw [catOffsets, acceptedFrom_of_accepts ⟨by decide, by omega, by omega⟩, hlen,
      acceptedFrom_of_not fun h => absurd h.1 (by decide), List.map_singleton, hpiece]
  · rw [collectFrom_eq, acceptedFrom_of_not fun h => absurd h.2.1 (by rw [hlen]; decide)]
    rfl

end Splitting

section PayloadReads

/-- The test of the loop that looks for text, at index `i` of a payload of `n` bytes. -/
def textByte (p : Nat → UInt8) (n i : Nat) : Bool :=
  (p i == 0 && i == n - 1) || isPrint (p i) || p i == 10 || p i == 9 || p i == 13

/-- The indices that loop reads from `i` on. -/
def scanReads (p : Nat → UInt8) (n i : Nat) : List Nat :=
  if i < n then
    if textByte p n i then i :: scanReads p n (i + 1) else [i]
  else []
termination_by n - i

/-- The indices the loop over trailing zeros and line ends reads, from the end. -/
def trimReads (p : Nat → UInt8) : Nat → List Nat
  | 0 => []
  | n + 1 => n :: if p n == 0 || p n == 10 || p n == 13 then trimReads p n else []

/-- How long the text is after that loop. -/
def trimmedLen (p : Nat → UInt8) : Nat → Nat
  | 0 => 0
  | n + 1 => if p n == 0 || p n == 10 || p n == 13 then trimmedLen p n else n + 1

/-- The bytes of the words a binary payload of at least eight bytes is read as. -/
def wordBytes (n : Nat) : Nat := if n = 16 then 16 else if n = 24 then 24 else 8

/-- The payload indices `parse_ubpf_file` reads: the search for text, then the
text itself or the words of a binary payload. -/
def catReads (p : Nat → UInt8) (n : Nat) : List Nat :=
  if n = 0 then []
  else scanReads p n 0 ++
    if (List.range n).all (textByte p n) then trimReads p n ++ List.range (trimmedLen p n)
    else if 8 ≤ n then List.range (wordBytes n) else []

/-- The payload indices `process_chunk` reads: all of a formatted text, none of a binary event. -/
def streamerReads (h : Header) : List Nat :=
  if h.eventType = 1 ∧ 0 < h.payloadLen.toNat then List.range h.payloadLen.toNat else []

def payloadAt (mem : Nat → UInt8) (a : Nat) : Nat → UInt8 := fun i => mem (a + headerSize + i)

def payloadLenAt (mem : Nat → UInt8) (a : Nat) : Nat := (Header.read mem a).payloadLen.toNat

/-- Every payload byte that a decoder reads for a record lies inside the record. -/
def PayloadReadsInside (mem : Nat → UInt8) (len : Nat) : Prop :=
  (∀ a ∈ catOffsets mem len, ∀ i ∈ catReads (payloadAt mem a) (payloadLenAt mem a),
      a + headerSize + i < a + recordLenAt mem a) ∧
    ∀ a ∈ collectFrom mem len 0, ∀ i ∈ streamerReads (Header.read mem a),
      a + headerSize + i < a + recordLenAt mem a

/-- The first index of a payload of `n` bytes that is no text, or `n`. -/
def firstBinary (p : Nat → UInt8) (n : Nat) : Nat := (List.range n).findIdx fun i => !textByte p n i

/-- How far into the payload the offline decoder looks: to its end if it is text,
else past the first byte that is not, and at least over the words it prints. -/
def catExtent (p : Nat → UInt8) (n : Nat) : Nat :=
  if firstBinary p n = n then n
  else max (firstBinary p n + 1) (if 8 ≤ n then wordBytes n else 0)

variable {p : Nat → UInt8} {n : Nat}

theorem firstBinary_le (p : Nat → UInt8) (n : Nat) : firstBinary p n ≤ n := by
  have hle : (List.range n).findIdx (fun i => !textByte p n i) ≤ (List.range n).length := List.findIdx_le_length
  rwa [List.length_range] at hle

theorem textByte_of_lt_firstBinary {i : Nat} (h : i < firstBinary p n) : textByte p n i = true := by
  have := List.not_of_lt_findIdx h
  simpa using this

theorem firstBinary_not_text (h : firstBinary p n < n) : textByte p n (firstBinary p n) = false := by
  have hlen : (List.range n).findIdx (fun i => !textByte p n i) < (List.range n).length := by
    simpa [firstBinary] using h
  have := List.findIdx_getElem (w := hlen)
  simpa [firstBinary] using this

theorem all_text_iff : (List.range n).all (textByte p n) = true ↔ firstBinary p n = n := by
  rw [List.all_eq_true]
  constructor
  · intro h
    by_contra hne
    have hlt : firstBinary p n < n := Nat.lt_of_le_of_ne (firstBinary_le p n) hne
    exact absurd (h _ (List.mem_range.mpr hlt)) (by simp [firstBinary_not_text hlt])
  · intro h i hi
    apply textByte_of_lt_firstBinary
    rw [h]
    exact List.mem_range.mp hi

/-- The search reads up to the first byte that is no text, and that byte. -/
theorem mem_scanReads_iff {i x : Nat} (hi : i ≤ firstBinary p n) :
    x ∈ scanReads p n i ↔ i ≤ x ∧ x < n ∧ x ≤ firstBinary p n := by
  induction hk : n - i generalizing i with
  | zero =>
    rw [scanReads, if_neg (by omega)]
    constructor
    · intro h
      cases h
    · omega
  | succ k ih =>
    rw [scanReads, if_pos (by omega)]
    rcases Nat.lt_or_eq_of_le hi with hlt | heq
    · have hrest : x ∈ scanReads p n (i + 1) ↔ i + 1 ≤ x ∧ x < n ∧ x ≤ firstBinary p n := ih hlt (by omega)
      rw [if_pos (textByte_of_lt_firstBinary hlt), List.mem_cons, hrest]
      omega
    · rw [if_neg (by rw [heq, firstBinary_not_text (by omega)]; decide), List.mem_singleton]
      omega

theorem trimReads_lt {x : Nat} (h : x ∈ trimReads p n) : x < n := by
  induction n with
  | zero => cases h
  | succ n ih =>
    rw [trimReads, List.mem_cons] at h
    rcases h with rfl | h
    · exact Nat.lt_succ_self _
    · split at h
      · exact Nat.lt_succ_of_lt (ih h)
      · cases h

theorem trimmedLen_le (p : Nat → UInt8) (n : Nat) : trimmedLen p n ≤ n := by
  induction n with
  | zero => exact Nat.le_refl _
  | succ n ih =>
    rw [trimmedLen]
    split <;> omega

theorem wordBytes_pos (n : Nat) : 0 < wordBytes n := by
  rw [wordBytes]
  split_ifs <;> omega

theorem catReads_lt_iff (bound : Nat) :
    (∀ i ∈ catReads p n, i < bound) ↔ catExtent p n ≤ bound := by
  have hle := firstBinary_le p n
  by_cases hn : n = 0
  · subst hn
    have hz : firstBinary p 0 = 0 := by omega
    simp [catReads, catExtent, hz]
  rw [catReads, if_neg hn, catExtent]
  simp only [List.mem_append, mem_scanReads_iff (Nat.zero_le _)]
  by_cases htext : firstBinary p n = n
  · rw [if_pos htext, if_pos (all_text_iff.mpr htext)]
    constructor
    · intro h
      have := h (n - 1) (Or.inl (by omega))
      omega
    · intro h i hi
      rw [List.mem_append, List.mem_range] at hi
      have htrim := trimmedLen_le p n
      rcases hi with hi | hi | hi
      · omega
      · have := trimReads_lt hi
        omega
      · omega
  · rw [if_neg htext, if_neg fun hall => htext (all_text_iff.mp hall)]
    have hpos := wordBytes_pos n
    split
    · next h8 =>
      simp only [List.mem_range]
      constructor
      · intro h
        have h₁ := h (firstBinary p n) (Or.inl (by omega))
        have h₂ := h (wordBytes n - 1) (Or.inr (by omega))
        omega
      · omega
    · next h8 =>
      constructor
      · intro h
        have h₁ := h (firstBinary p n) (Or.inl (by omega))
        omega
      · intro h i hi
        rcases hi with hi | hi
        · omega
        · cases hi

theorem streamerReads_lt_iff (h : Header) (bound : Nat) :
    (∀ i ∈ streamerReads h, i < bound) ↔ (h.eventType = 1 → h.payloadLen.toNat ≤ bound) := by
  rw [streamerReads]
  split
  · next hread =>
    simp only [List.mem_range]
    constructor
    · intro hall _
      have := hall (h.payloadLen.toNat - 1) (by omega)
      omega
    · intro hle i hi
      have := hle hread.1
      omega
  · next hread =>
    constructor
    · intro _ htype
      have : ¬ 0 < h.payloadLen.toNat := fun hpos => hread ⟨htype, hpos⟩
      omega
    · intro _ i hi
      cases hi

/-- The decoders stay inside the records they read exactly if every record they
come to is long enough for what they read of its payload. A record that is
shorter than its header is fine only if its payload length is zero. -/
theorem payload_reads_inside_iff (mem : Nat → UInt8) (len : Nat) :
    PayloadReadsInside mem len ↔
      (∀ a, Comes 0 mem len 0 a → Accepts 0 mem len a →
          catExtent (payloadAt mem a) (payloadLenAt mem a) ≤ recordLenAt mem a - headerSize) ∧
        ∀ a, Comes (headerSize - 1) mem len 0 a → Accepts (headerSize - 1) mem len a →
          (Header.read mem a).eventType = 1 → payloadLenAt mem a ≤ recordLenAt mem a - headerSize := by
  have hshift : ∀ a i, a + headerSize + i < a + recordLenAt mem a ↔ i < recordLenAt mem a - headerSize := by
    omega
  simp only [PayloadReadsInside, hshift, catReads_lt_iff, streamerReads_lt_iff, catOffsets, collectFrom_eq,
    mem_acceptedFrom_iff, and_imp, payloadLenAt]

/-- A record of 24 bytes, header only, that claims a payload of one byte. -/
def overclaimed : List UInt8 := Header.encode ⟨24, 0, 1, 0, 1, 0⟩

theorem overclaimed_payload_read_outside :
    ¬ PayloadReadsInside (ofList overclaimed) overclaimed.length ∧
      overclaimed.length ∈ (streamerReads (Header.read (ofList overclaimed) 0)).map (headerSize + ·) := by
  constructor
  · rintro ⟨-, h⟩
    have hfound : 0 ∈ collectFrom (ofList overclaimed) overclaimed.length 0 := by
      rw [collectFrom_eq]
      exact (mem_acceptedFrom_iff 0).mpr ⟨.start, by decide, by decide, by decide⟩
    exact absurd (h 0 hfound 0 (by decide)) (by decide)
  · decide

end PayloadReads

end EventRecord
