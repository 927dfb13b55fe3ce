import Mathlib.Data.List.TakeWhile
import Ubpftrace.ByteCopies

/-!
# `bpf_probe_read_str`

The helper is built in two ways. Without `ENABLE_PROBE_READ_CHECK` it copies byte by byte
and a bad address kills the process; with it the string is read in pieces of at most 256
bytes that stay in one page, through system calls that report a bad address. A piece may
reach beyond the string, but not into another page, so the checked variant needs no more
of the source than the other one.
-/

namespace ProbeReadStr

open Bytes

/-- The address space of the process: which pages can be read and written. -/
structure Space where
  pageSize : Nat
  pageSize_pos : 0 < pageSize
  readable : Nat → Bool
  writable : Nat → Bool

namespace Space

variable (s : Space)

def canRead (address : Nat) : Bool := s.readable (address / s.pageSize)

def canWrite (address : Nat) : Bool := s.writable (address / s.pageSize)

end Space

abbrev Memory := Nat → UInt8

def EFAULT : Int64 := 14

/-! ## The variant without checks -/

section Unchecked

variable (s : Space) (buf bufsz ptr : Nat)

/-- The loop, with the number of bytes still to come; `none` if the process is killed. -/
def uncheckedLoop : Nat → Nat → Memory → Option (Int64 × Memory)
  | 0, _, mem => some (Int64.ofNat bufsz, mem)
  | rest + 1, i, mem =>
    if !s.canRead (ptr + i) || !s.canWrite (buf + i) then none
    else if mem (ptr + i) = 0 then some (Int64.ofNat i + 1, write mem (buf + i) [0])
    else if i = bufsz - 1 then some (Int64.ofNat bufsz, write mem (buf + i) [0])
    else uncheckedLoop rest (i + 1) (write mem (buf + i) [mem (ptr + i)])

def bpfProbeReadStrUnchecked (mem : Memory) : Option (Int64 × Memory) :=
  if bufsz = 0 then some (0, mem) else uncheckedLoop s buf bufsz ptr bufsz 0 mem

end Unchecked

/-! ## The variant with checks -/

section Checked

variable (s : Space)

def probeReadMemory (mem : Memory) (src size : Nat) : Option (List UInt8) :=
  if (List.range size).all fun i => s.canRead (src + i) then some (slice mem src size) else none

/-- The call goes page by page, and stops at the first that is not writable. -/
def probeWriteMemory (mem : Memory) (dst : Nat) (bytes : List UInt8) : Bool × Memory :=
  let written := ((List.range bytes.length).takeWhile fun i => s.canWrite (dst + i)).length
  (written = bytes.length, write mem dst (bytes.take written))

def probePageRemaining (address : Nat) : Nat := s.pageSize - address % s.pageSize

/-- The loop takes 256 bytes in a round, so the size is enough fuel. -/
def clearProbeMemory : Nat → Memory → Nat → Nat → Memory
  | 0, mem, _, _ => mem
  | fuel + 1, mem, output, size =>
    if size > 0 then
      let chunkSize := min size 256
      let (written, mem) := probeWriteMemory s mem output (List.replicate chunkSize 0)
      if written then clearProbeMemory fuel mem (output + chunkSize) (size - chunkSize) else mem
    else mem

/-- The bytes of `scratch` to be written, and if they are the last ones; `remaining` is what
the buffer still takes. -/
def terminate (scratch : List UInt8) (remaining : Nat) : List UInt8 × Bool :=
  match scratch.findIdx? (· = 0) with
  | some terminator => (scratch.take (terminator + 1), true)
  | none => if scratch.length = remaining then (scratch.set (scratch.length - 1) 0, true) else (scratch, false)

variable (buf bufsz ptr : Nat)

def chunkSize (copied : Nat) : Nat := min (min 256 (bufsz - copied)) (probePageRemaining s (ptr + copied))

/-- A round copies at least one byte, so the size of the buffer is enough fuel. -/
def checkedLoop : Nat → Nat → Memory → Int64 × Memory
  | 0, copied, mem => (Int64.ofNat copied, mem)
  | fuel + 1, copied, mem =>
    if copied < bufsz then
      match probeReadMemory s mem (ptr + copied) (chunkSize s bufsz ptr copied) with
      | none => (-EFAULT, clearProbeMemory s bufsz mem buf bufsz)
      | some scratch =>
        let (scratch, complete) := terminate scratch (bufsz - copied)
        let (written, mem) := probeWriteMemory s mem (buf + copied) scratch
        if !written then (-EFAULT, mem)
        else if complete then (Int64.ofNat (copied + scratch.length), mem)
        else checkedLoop fuel (copied + scratch.length) mem
    else (Int64.ofNat copied, mem)

def bpfProbeReadStrChecked (mem : Memory) : Int64 × Memory :=
  if bufsz = 0 then (0, mem) else checkedLoop s buf bufsz ptr bufsz 0 mem

end Checked

/-! ## The string -/

/-- The bytes that a call copies: the string with its terminator, or as much as fits. -/
def copyLength (mem : Memory) (ptr bufsz : Nat) : Nat :=
  min bufsz ((slice mem ptr bufsz).findIdx (· = 0) + 1)

/-- `n` is the position behind the terminator, or the size of the buffer. -/
structure Ends (mem : Memory) (ptr bufsz n : Nat) : Prop where
  pos : 0 < n
  le : n ≤ bufsz
  before : ∀ i, i + 1 < n → mem (ptr + i) ≠ 0
  last : n = bufsz ∨ mem (ptr + (n - 1)) = 0

theorem ends_copyLength (mem : Memory) (ptr : Nat) {bufsz : Nat} (h : 0 < bufsz) :
    Ends mem ptr bufsz (copyLength mem ptr bufsz) := by
  refine ⟨by rw [copyLength]; omega, Nat.min_le_left _ _, fun i hi => ?_, ?_⟩
  · rw [copyLength] at hi
    have hlt : i < (slice mem ptr bufsz).findIdx (· = 0) := by omega
    simpa [getElem_slice] using List.not_of_lt_findIdx hlt
  · rw [copyLength]
    rcases Nat.lt_or_ge ((slice mem ptr bufsz).findIdx (· = 0)) bufsz with hlt | hge
    · right
      have hlt' : (slice mem ptr bufsz).findIdx (· = 0) < (slice mem ptr bufsz).length := by rwa [length_slice]
      rw [Nat.min_eq_right (by omega)]
      simpa [getElem_slice] using List.findIdx_getElem (w := hlt')
    · omega

/-- The memory after the copy of `n` bytes, the last of which is the terminator. -/
def outcome (mem : Memory) (buf ptr n : Nat) : Memory := write (move mem buf ptr (n - 1)) (buf + (n - 1)) [0]

section Copies

variable {s : Space} {mem mem' : Memory} {buf bufsz ptr n copied k i : Nat}

theorem Ends.of_eq_zero (h : Ends mem ptr bufsz n) (hi : i < n) (hzero : mem (ptr + i) = 0) : n = i + 1 := by
  by_contra hne
  exact h.before i (by omega) hzero

theorem Ends.lt_of_ne_zero (h : Ends mem ptr bufsz n) (hi : i < n) (hne : mem (ptr + i) ≠ 0) (hsize : i + 1 ≠ bufsz) :
    i + 1 < n := by
  by_contra hge
  have hn : n = i + 1 := by omega
  rcases h.last with hlast | hlast
  · omega
  · rw [hn, Nat.add_sub_cancel] at hlast
    exact hne hlast

theorem write_move_one (mem : Memory) (buf ptr i : Nat) :
    write (move mem buf ptr i) (buf + i) [mem (ptr + i)] = move mem buf ptr (i + 1) := by
  rw [← write_move]
  simp [slice]

/-! ## The loop without checks -/

theorem uncheckedLoop_eq (h : Ends mem ptr bufsz n) (hread : ∀ i < n, s.canRead (ptr + i) = true)
    (hwrite : ∀ i < n, s.canWrite (buf + i) = true) (hapart : buf ≤ ptr ∨ ptr + n ≤ buf) {rest : Nat}
    (hrest : i + rest = bufsz) (hi : i < n) :
    uncheckedLoop s buf bufsz ptr rest i (move mem buf ptr i) = some (Int64.ofNat n, outcome mem buf ptr n) := by
  induction rest generalizing i with
  | zero => exact absurd (h.le) (by omega)
  | succ rest ih =>
    rw [uncheckedLoop, hread i hi, hwrite i hi, move_source hapart (Nat.le_refl i) hi]
    simp only [Bool.not_true, Bool.or_self, Bool.false_eq_true, if_false]
    split_ifs with hzero hlast
    · obtain rfl := h.of_eq_zero hi hzero
      rw [outcome, Nat.add_sub_cancel, Int64.ofNat_add]
      rfl
    · have hn : n = bufsz := by
        have := h.le
        omega
      rw [hlast, ← hn, outcome]
    · rw [write_move_one]
      exact ih (by omega) (h.lt_of_ne_zero hi hzero (by omega))

/-! ## The loop with checks -/

theorem canRead_add (h : s.canRead k = true) (hi : i < probePageRemaining s k) : s.canRead (k + i) = true := by
  have hpage : (k + i) / s.pageSize = k / s.pageSize := by
    have hmod := Nat.mod_add_div k s.pageSize
    rw [probePageRemaining] at hi
    rw [← hmod, Nat.add_right_comm, Nat.add_mul_div_left _ _ s.pageSize_pos, Nat.add_mul_div_left _ _ s.pageSize_pos,
      Nat.div_eq_of_lt (by omega), Nat.div_eq_of_lt (Nat.mod_lt _ s.pageSize_pos)]
  rwa [Space.canRead, hpage]

theorem chunkSize_bounds (s : Space) (ptr : Nat) (h : copied < bufsz) :
    0 < chunkSize s bufsz ptr copied ∧ chunkSize s bufsz ptr copied ≤ bufsz - copied ∧
      chunkSize s bufsz ptr copied ≤ probePageRemaining s (ptr + copied) := by
  have hpage : 0 < probePageRemaining s (ptr + copied) := Nat.sub_pos_of_lt (Nat.mod_lt _ s.pageSize_pos)
  rw [chunkSize]
  omega

theorem probeReadMemory_eq (h : s.canRead i = true) (hk : k ≤ probePageRemaining s i) :
    probeReadMemory s mem i k = some (slice mem i k) := by
  rw [probeReadMemory, if_pos]
  simp only [List.all_eq_true, List.mem_range]
  intro j hj
  exact canRead_add h (by omega)

theorem probeWriteMemory_eq {bytes : List UInt8} (h : ∀ j < bytes.length, s.canWrite (i + j) = true) :
    probeWriteMemory s mem i bytes = (true, write mem i bytes) := by
  have hall : (List.range bytes.length).takeWhile (fun j => s.canWrite (i + j)) = List.range bytes.length := by
    rw [List.takeWhile_eq_self_iff]
    intro j hj
    exact h j (List.mem_range.mp hj)
  simp [probeWriteMemory, hall]

theorem findIdx_eq_none_of_ne (h : ∀ i < k, mem (ptr + i) ≠ 0) : (slice mem ptr k).findIdx? (· = 0) = none := by
  simpa [slice] using h

theorem terminate_zero {front behind : List UInt8} (h : front.findIdx? (· = 0) = none) (remaining : Nat) :
    terminate (front ++ 0 :: behind) remaining = (front ++ [0], true) := by
  have htake : front.take (front.length + 1) = front := List.take_of_length_le (Nat.le_succ _)
  simp [terminate, List.findIdx?_append, h, List.take_append, List.findIdx?_cons, htake]

theorem terminate_full {front : List UInt8} {byte : UInt8} (h : front.findIdx? (· = 0) = none) (hbyte : byte ≠ 0) :
    terminate (front ++ [byte]) (front.length + 1) = (front ++ [0], true) := by
  simp [terminate, List.findIdx?_append, h, hbyte]

section Pieces

variable (h : Ends mem ptr bufsz n) (hsame : ∀ i, copied ≤ i → i < n → mem' (ptr + i) = mem (ptr + i))
include h hsame

theorem slice_before_end (hk : copied + k < n) : slice mem' (ptr + copied) k = slice mem (ptr + copied) k ∧
    (slice mem (ptr + copied) k).findIdx? (· = 0) = none := by
  constructor
  · refine slice_congr fun i hi => ?_
    rw [Nat.add_assoc]
    exact hsame _ (by omega) (by omega)
  · refine findIdx_eq_none_of_ne fun i hi => ?_
    rw [Nat.add_assoc]
    exact h.before _ (by omega)

theorem terminate_last (hcopied : copied < n) (hlow : n - copied ≤ k) (hhigh : k ≤ bufsz - copied) :
    terminate (slice mem' (ptr + copied) k) (bufsz - copied) =
      (slice mem (ptr + copied) (n - 1 - copied) ++ [0], true) := by
  obtain ⟨front, rfl⟩ : ∃ front, n = copied + front + 1 := ⟨n - 1 - copied, by omega⟩
  obtain ⟨behind, rfl⟩ : ∃ behind, k = front + (1 + behind) := ⟨k - front - 1, by omega⟩
  obtain ⟨hfront, hnone⟩ := slice_before_end h hsame (Nat.lt_succ_self (copied + front))
  have hat : mem' (ptr + copied + front) = mem (ptr + (copied + front)) := by
    rw [Nat.add_assoc]
    exact hsame _ (by omega) (by omega)
  have hbehind : slice mem' (ptr + copied + front) (1 + behind) =
      mem (ptr + (copied + front)) :: slice mem' (ptr + copied + front + 1) behind := by
    rw [slice_add, ← hat]
    simp [slice]
  rw [slice_add, hfront, hbehind, show copied + front + 1 - 1 - copied = front by omega]
  by_cases hzero : mem (ptr + (copied + front)) = 0
  · rw [hzero, terminate_zero hnone]
  · -- no terminator: the buffer ends here
    obtain hlast | hlast := h.last
    · obtain rfl : behind = 0 := by omega
      have hfull := terminate_full hnone hzero
      rwa [length_slice, show front + 1 = bufsz - copied by omega] at hfull
    · exact absurd hlast hzero

theorem terminate_next (hk : copied + k < n) :
    terminate (slice mem' (ptr + copied) k) (bufsz - copied) = (slice mem (ptr + copied) k, false) := by
  obtain ⟨hslice, hnone⟩ := slice_before_end h hsame hk
  have hlen : k ≠ bufsz - copied := by
    have := h.le
    omega
  simp [terminate, hslice, hnone, hlen]

end Pieces

theorem checkedLoop_eq (h : Ends mem ptr bufsz n) (hread : ∀ i < n, s.canRead (ptr + i) = true)
    (hwrite : ∀ i < n, s.canWrite (buf + i) = true) (hapart : buf ≤ ptr ∨ ptr + n ≤ buf) {fuel : Nat}
    (hfuel : bufsz ≤ copied + fuel) (hcopied : copied < n) :
    checkedLoop s buf bufsz ptr fuel copied (move mem buf ptr copied) = (Int64.ofNat n, outcome mem buf ptr n) := by
  have hle := h.le
  induction fuel generalizing copied with
  | zero => omega
  | succ fuel ih =>
    have hlt : copied < bufsz := by omega
    obtain ⟨hpos, hhigh, hpage⟩ := chunkSize_bounds s ptr hlt
    have hsame : ∀ i, copied ≤ i → i < n → move mem buf ptr copied (ptr + i) = mem (ptr + i) :=
      fun i hi hin => move_source hapart hi hin
    rw [checkedLoop, if_pos hlt, probeReadMemory_eq (hread copied hcopied) hpage]
    generalize chunkSize s bufsz ptr copied = k at hpos hhigh
    have hwritten {bytes : List UInt8} (hbytes : copied + bytes.length ≤ n) (mem : Memory) :
        probeWriteMemory s mem (buf + copied) bytes = (true, write mem (buf + copied) bytes) := by
      refine probeWriteMemory_eq fun j hj => ?_
      rw [Nat.add_assoc]
      exact hwrite _ (by omega)
    rcases Nat.lt_or_ge (copied + k) n with hnext | hend
    · simp only [terminate_next h hsame hnext]
      rw [hwritten (by rw [length_slice]; omega), write_move, length_slice]
      exact ih (by omega) hnext
    · simp only [terminate_last h hsame hcopied (by omega) hhigh]
      have hlen : (slice mem (ptr + copied) (n - 1 - copied) ++ [0]).length = n - copied := by
        rw [List.length_append, length_slice, List.length_singleton]
        omega
      rw [hwritten (by omega), hlen, write_append, write_move, length_slice, outcome, Nat.add_assoc buf,
        show copied + (n - 1 - copied) = n - 1 by omega, show copied + (n - copied) = n by omega]
      rfl

end Copies

/-- If the bytes to be copied can be read, and can be written at the destination, and the
destination does not begin inside of them, both variants copy them and return their number. -/
theorem variants_agree (s : Space) (mem : Memory) (buf bufsz ptr : Nat)
    (hread : ∀ i < copyLength mem ptr bufsz, s.canRead (ptr + i) = true)
    (hwrite : ∀ i < copyLength mem ptr bufsz, s.canWrite (buf + i) = true)
    (hapart : buf ≤ ptr ∨ ptr + copyLength mem ptr bufsz ≤ buf) :
    bpfProbeReadStrUnchecked s buf bufsz ptr mem = some (bpfProbeReadStrChecked s buf bufsz ptr mem) ∧
      bpfProbeReadStrChecked s buf bufsz ptr mem =
        (Int64.ofNat (copyLength mem ptr bufsz),
          if bufsz = 0 then mem else outcome mem buf ptr (copyLength mem ptr bufsz)) := by
  rw [bpfProbeReadStrUnchecked, bpfProbeReadStrChecked]
  split_ifs with hsize
  · subst hsize
    simp [copyLength]
  · have hends := ends_copyLength mem ptr (Nat.pos_of_ne_zero hsize)
    have hunchecked := uncheckedLoop_eq hends hread hwrite hapart (Nat.zero_add bufsz) hends.pos
    have hchecked := checkedLoop_eq hends hread hwrite hapart (Nat.le_of_eq (Nat.zero_add bufsz).symm) hends.pos
    rw [move_zero] at hunchecked hchecked
    exact ⟨by rw [hunchecked, hchecked], hchecked⟩

/-- Two pages of sixteen bytes, of which the second cannot be accessed. -/
def onePage : Space := ⟨16, by decide, (· = 0), (· = 0)⟩

/-- A string of two bytes at the end of the first page, copied to its begin. -/
theorem variants_agree_at_page_end :
    let mem : Memory := fun a => if a = 13 ∨ a = 14 then 7 else 0
    copyLength mem 13 100 = 3 ∧
      bpfProbeReadStrUnchecked onePage 0 100 13 mem = some (bpfProbeReadStrChecked onePage 0 100 13 mem) := by
  intro mem
  have hlen : copyLength mem 13 100 = 3 := by decide
  refine ⟨hlen, (variants_agree onePage mem 0 100 13 ?_ ?_ ?_).1⟩
  · rw [hlen]
    decide
  · rw [hlen]
    decide
  · exact .inl (by decide)

/-- A copy to the second byte of the string: byte by byte, the first byte is read again. -/
theorem overlap_differs :
    let mem : Memory := fun a => if a = 3 then 97 else if a = 4 then 98 else 0
    (bpfProbeReadStrUnchecked onePage 4 6 3 mem).map (fun result => (result.1, slice result.2 4 6)) =
        some (6, [97, 97, 97, 97, 97, 0]) ∧
      (bpfProbeReadStrChecked onePage 4 6 3 mem).1 = 3 ∧
      slice (bpfProbeReadStrChecked onePage 4 6 3 mem).2 4 6 = [97, 98, 0, 0, 0, 0] := by
  decide

end ProbeReadStr
