import Ubpftrace.ContainerReader
import Ubpftrace.ShiftRegister

/-!
# What the checksum of a chunk detects

Writer and reader compute the same CRC bit by bit. It is a shift register of 32
bits that takes the bits of a payload in their order, the lowest bit of a byte
first, so no damage inside 32 consecutive bits goes unnoticed.
-/

namespace Container

open Bytes
open ShiftRegister

/-- The feedback word of the CRC loop. -/
def crcFeedback : BitVec 32 := 0xEDB88320#32

/-- The bits of a byte in the order in which the CRC takes them. -/
def byteBits (b : UInt8) : List Bool := (List.range 8).map fun i => b.toBitVec.getLsbD i

/-- The bits of a payload, numbered from the lowest bit of its first byte. -/
def payloadBits (bs : List UInt8) : List Bool := bs.flatMap byteBits

variable (crc : UInt32)

theorem toBitVec_crcBit : (crcBit crc).toBitVec = step crcFeedback crc.toBitVec := by
  have hone : crc.toBitVec &&& 1#32 = if crc.toBitVec.getLsbD 0 then 1#32 else 0#32 := by
    rw [BitVec.and_one_eq_setWidth_ofBool_getLsbD]
    cases crc.toBitVec.getLsbD 0 <;> rfl
  have hbit : (crcBit crc).toBitVec = (crc.toBitVec >>> 1) ^^^ (crcFeedback &&& (0#32 - (crc.toBitVec &&& 1#32))) := rfl
  rw [hbit, hone, step]
  cases crc.toBitVec.getLsbD 0 <;> rfl

theorem toBitVec_crcBits (n : Nat) (crc : UInt32) :
    ((List.range n).foldl (fun c _ => crcBit c) crc).toBitVec = steps crcFeedback n crc.toBitVec := by
  induction n with
  | zero => rfl
  | succ n ih =>
    rw [List.range_succ, List.foldl_append, List.foldl_cons, List.foldl_nil, toBitVec_crcBit, ih, steps, steps,
      Function.iterate_succ_apply']

theorem getD_byteBits (b : UInt8) (i : Nat) : (byteBits b).getD i false = b.toBitVec.getLsbD i := by
  rw [byteBits, List.getD_eq_getElem?_getD, List.getElem?_map]
  by_cases h : i < 8
  · rw [List.getElem?_range h]
    rfl
  · rw [List.getElem?_eq_none (by simpa using h), BitVec.getLsbD_of_ge _ _ (Nat.le_of_not_lt h)]
    rfl

theorem word_byteBits (b : UInt8) : word 32 (byteBits b) = b.toUInt32.toBitVec := by
  apply BitVec.eq_of_getLsbD_eq
  intro i hi
  rw [getLsbD_word _ hi, getD_byteBits, UInt8.toBitVec_toUInt32, BitVec.getLsbD_setWidth]
  simp [hi]

theorem toBitVec_crcByte (b : UInt8) : (crcByte crc b).toBitVec = feed crcFeedback crc.toBitVec (byteBits b) := by
  have hlen : (byteBits b).length = 8 := by simp [byteBits]
  rw [feed_eq_steps _ _ _ (by omega), hlen, word_byteBits, crcByte, toBitVec_crcBits, UInt32.toBitVec_xor]

theorem toBitVec_foldl_crcByte (bs : List UInt8) :
    (bs.foldl crcByte crc).toBitVec = feed crcFeedback crc.toBitVec (payloadBits bs) := by
  induction bs generalizing crc with
  | nil => rfl
  | cons b bs ih =>
    rw [List.foldl_cons, ih, toBitVec_crcByte, payloadBits, payloadBits, List.flatMap_cons, feed_append]

theorem byteBits_injective : Function.Injective byteBits := by
  intro b b' h
  apply UInt8.toBitVec_inj.mp
  apply BitVec.eq_of_getLsbD_eq
  intro i hi
  have hbit := congrArg (·.getD i false) h
  simpa only [getD_byteBits] using hbit

theorem length_payloadBits (bs : List UInt8) : (payloadBits bs).length = 8 * bs.length := by
  simp [payloadBits, byteBits, List.length_flatMap, Nat.mul_comm]

theorem payloadBits_injective {bs bs' : List UInt8} (h : payloadBits bs = payloadBits bs') : bs = bs' := by
  induction bs generalizing bs' with
  | nil =>
    have hlen := congrArg List.length h
    rw [length_payloadBits, length_payloadBits, List.length_nil] at hlen
    exact (List.length_eq_zero_iff.mp (by omega)).symm
  | cons b bs ih =>
    cases bs' with
    | nil =>
      have hlen := congrArg List.length h
      rw [length_payloadBits, length_payloadBits, List.length_cons, List.length_nil] at hlen
      omega
    | cons b' bs' =>
      obtain ⟨hbits, hrest⟩ := List.append_inj h (by simp [byteBits])
      rw [byteBits_injective hbits, ih hrest]

/-- Some bits of the payload are changed, all of them among 32 consecutive ones, where the bits
of a byte follow each other from the lowest to the highest, as the CRC takes them. -/
structure Burst (payload altered : List UInt8) : Prop where
  length_eq : altered.length = payload.length
  altered_ne : altered ≠ payload
  confined : ∃ s, ∀ n < 8 * payload.length, (payloadBits payload)[n]? ≠ (payloadBits altered)[n]? → s ≤ n ∧ n < s + 32

theorem Burst.crc_ne {payload altered : List UInt8} (h : Burst payload altered) :
    computeCrc32 payload ≠ computeCrc32 altered := by
  obtain ⟨s, hs⟩ := h.confined
  have hlen : (payloadBits payload).length = (payloadBits altered).length := by
    rw [length_payloadBits, length_payloadBits, h.length_eq]
  have hfeed : feed crcFeedback (0xFFFFFFFF : UInt32).toBitVec (payloadBits payload) ≠
      feed crcFeedback (0xFFFFFFFF : UInt32).toBitVec (payloadBits altered) := by
    apply feed_ne_of_burst rfl _ hlen (fun he => h.altered_ne (payloadBits_injective he).symm) s
    rw [length_payloadBits]
    exact hs
  intro hcrc
  have hinner := UInt32.not_inj.mp hcrc
  rw [← UInt32.toBitVec_inj, toBitVec_foldl_crcByte, toBitVec_foldl_crcByte] at hinner
  exact hfeed hinner

/-- Damage to any payload inside 32 consecutive bits changes its CRC, so that a chunk with the
header that `write_chunk` made for the payload is marked as corrupt. -/
theorem burst_marked_corrupt {payload altered : List UInt8} (h : Burst payload altered) :
    computeCrc32 payload ≠ computeCrc32 altered ∧
      ∀ (z : Lz4) (a : ChunkArgs) (mem : Nat → UInt8) (pos : Nat), a.compressed z = payload →
        Holds mem pos ((a.header z).encode ++ altered) → (chunkAt z mem pos).crcValid = false := by
  refine ⟨h.crc_ne, ?_⟩
  rintro z a mem pos rfl hholds
  obtain ⟨hheader, hpayload⟩ := (holds_append _ _ _ _).mp hholds
  have hread := ChunkHeader.read_of_holds mem pos _ hheader
  have hsize : (a.header z).compressedSize.toNat = altered.length := by
    rw [h.length_eq, compressedSize_toNat]
  have hslice : slice mem (pos + chunkHeaderSize) altered.length = altered := by
    rw [length_chunkHeader] at hpayload
    exact slice_of_holds _ _ _ hpayload
  simp only [chunkAt, hread, hsize, hslice, decide_eq_false_iff_not]
  exact fun hcrc => h.crc_ne hcrc.symm

/-- One changed bit in a payload of three bytes. -/
theorem burst_marked_corrupt_single_bit :
    Burst [1, 2, 3] [1, 3, 3] ∧ computeCrc32 [1, 2, 3] ≠ computeCrc32 [1, 3, 3] := by
  have hburst : Burst [1, 2, 3] [1, 3, 3] := ⟨rfl, by decide, 8, by decide⟩
  exact ⟨hburst, (burst_marked_corrupt hburst).1⟩

end Container
