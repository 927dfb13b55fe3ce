import Ubpftrace.ByteRings
import Ubpftrace.Ringbuf

/-!
# Software perf event buffers

`software_perf_event_buffer` of `perf_event_handler.cpp`: a header page and behind it a
ring of bytes, whose positions only grow and are masked by the size of the ring. Records
are appended at `data_head` and leave at `data_tail`, whole. One byte of the ring stays
free.
-/

namespace PerfBuffer

open Bytes
open ByteRings (unrolled)

/-- `uint64_t` and `size_t`. -/
def wordSize : Nat := 2 ^ 64

inductive Errno where
  | EINVAL
  | ENOMEM
  | E2BIG
  deriving DecidableEq

/-- `software_perf_event_buffer`. The bytes of `mmap_buffer` behind the header page are
`data`; of the header, only the positions are read again. -/
structure Buffer where
  pagesize : Nat
  mmapBufferSize : Nat
  data : Nat → UInt8
  dataHead : Nat
  dataTail : Nat

def create (pagesize : Nat) : Buffer := ⟨pagesize, pagesize, fun _ => 0, 0, 0⟩

/-- `sizeof(perf_event_header)`: the type, `misc` and the size of a record. -/
def headerSize : Nat := 8

/-- `sizeof(perf_sample_raw)`: the header and the size of the sample. -/
def sampleRawSize : Nat := 12

def PERF_RECORD_SAMPLE : Nat := 9

def sizeField (record : List UInt8) : Nat := readLe (ofList record) 6 2

namespace Buffer

def mmapSize (b : Buffer) : Nat := b.mmapBufferSize - b.pagesize

/-- `ensure_mmap_buffer`, where `allocates` says whether there is memory for a `resize`. A vector
that grows is filled with zeros. -/
def ensureMmapBuffer (b : Buffer) (allocates : Bool) (bufferSize : Nat) : Except Errno Buffer :=
  if bufferSize > b.mmapBufferSize then
    if bufferSize < b.pagesize ∨ Ringbuf.popCnt 64 (bufferSize - b.pagesize) ≠ 1 then .error .EINVAL
    else if !allocates then .error .ENOMEM
    else .ok { b with
      mmapBufferSize := bufferSize
      data := fun i => if i < b.mmapSize then b.data i else 0 }
  else .ok b

def writeWrapped (b : Buffer) (offset : Nat) (src : List UInt8) : Buffer :=
  { b with data := ByteRings.writeWrapped b.data b.mmapSize (offset &&& (b.mmapSize - 1)) src }

def readWrapped (b : Buffer) (offset size : Nat) : List UInt8 :=
  ByteRings.readWrapped b.data b.mmapSize (offset &&& (b.mmapSize - 1)) size

/-- The stores of `append_record_parts`. -/
def store (b : Buffer) (first second : List UInt8) : Buffer :=
  if second.length > 0 then
    (b.writeWrapped b.dataHead first).writeWrapped ((b.dataHead + first.length) % wordSize) second
  else b.writeWrapped b.dataHead first

/-- `append_record_parts`, without a buffer where it returns false. -/
def appendRecordParts (b : Buffer) (first second : List UInt8) (paddingSize : Nat) : Option Buffer :=
  if second.length > wordSize - 1 - first.length ∨ paddingSize > wordSize - 1 - first.length - second.length then none
  else
    let recordSize := first.length + second.length + paddingSize
    if b.mmapSize = 0 ∨ recordSize > b.mmapSize then none
    else
      let usedSize := (b.dataHead + wordSize - b.dataTail) % wordSize
      if b.dataHead < b.dataTail ∨ usedSize ≥ b.mmapSize then none
      -- one byte stays empty
      else if b.mmapSize - usedSize ≤ recordSize then none
      else some { b.store first second with dataHead := (b.dataHead + recordSize) % wordSize }

def recordSize (size : Nat) : Nat := (sampleRawSize + size + 7) / 8 * 8

/-- `perf_sample_raw`. -/
def sampleHeader (size : Nat) : List UInt8 :=
  le 4 PERF_RECORD_SAMPLE ++ le 2 0 ++ le 2 (recordSize size) ++ le 4 (recordSize size - sampleRawSize)

/-- `output_data`, which returns 0 for a dropped record as well. The padding is not written. -/
def outputData (b : Buffer) (buf : List UInt8) : Except Errno Buffer :=
  if buf.length > 2 ^ 16 - 1 - sampleRawSize - 7 then .error .E2BIG
  else .ok ((b.appendRecordParts (sampleHeader buf.length) buf
    (recordSize buf.length - sampleRawSize - buf.length)).getD b)

/-- A consumer takes the record at the tail, if there is a whole one. -/
def takeRecord (b : Buffer) : Option (List UInt8 × Buffer) :=
  let size := sizeField (b.readWrapped b.dataTail headerSize)
  if b.dataTail = b.dataHead ∨ size < headerSize ∨ size > b.dataHead - b.dataTail then none
  else some (b.readWrapped b.dataTail size, { b with dataTail := (b.dataTail + size) % wordSize })

/-- The records that a consumer takes one after the other. -/
def takeRecords : Nat → Buffer → List (List UInt8)
  | 0, _ => []
  | fuel + 1, b =>
    match b.takeRecord with
    | none => []
    | some (record, b) => record :: takeRecords fuel b

/-- What a consumer will still read. A record has at least one byte. -/
def unread (b : Buffer) : List (List UInt8) := takeRecords (b.dataHead - b.dataTail) b

/-- The buffer after a call of `ensure_mmap_buffer`. -/
def ensured (b : Buffer) (allocates : Bool) (bufferSize : Nat) : Buffer :=
  match b.ensureMmapBuffer allocates bufferSize with
  | .ok b => b
  | .error _ => b

end Buffer

/-! ## What a buffer holds -/

/-- A record says its own size. -/
def WellFormed (record : List UInt8) : Prop := headerSize ≤ record.length ∧ sizeField record = record.length

/-- The buffer holds the records, from the tail to the head. -/
structure Contains (b : Buffer) (records : List (List UInt8)) : Prop where
  ring : b.mmapSize = 0 ∨ ∃ k, b.mmapSize = 2 ^ k
  head : b.dataHead = b.dataTail + records.flatten.length
  room : records.flatten.length ≤ b.mmapSize - 1
  word : b.dataHead < wordSize
  bytes : Holds (unrolled b.data b.mmapSize) b.dataTail records.flatten
  formed : ∀ r ∈ records, WellFormed r

namespace Contains

open Buffer

variable {b : Buffer} {records : List (List UInt8)} {record : List UInt8}

theorem sizeField_congr {r s : List UInt8} (h : ∀ i < headerSize, r.getD i 0 = s.getD i 0) :
    sizeField r = sizeField s := by
  apply readLe_congr
  intro i hi
  exact h (6 + i) (by unfold headerSize; omega)

theorem mask (h : Contains b records) (hpos : 0 < b.mmapSize) (offset : Nat) :
    offset &&& (b.mmapSize - 1) = offset % b.mmapSize := by
  obtain hzero | ⟨k, hk⟩ := h.ring
  · omega
  · exact ByteRings.mask_eq hk offset

theorem readWrapped_eq (h : Contains b records) {pos size : Nat} (hpos : 0 < b.mmapSize) (hsize : size ≤ b.mmapSize) :
    b.readWrapped pos size = slice (unrolled b.data b.mmapSize) pos size := by
  rw [readWrapped, h.mask hpos, ByteRings.readWrapped_eq hpos hsize]

theorem nil_iff (h : Contains b records) : b.dataTail = b.dataHead ↔ records = [] := by
  have hhead := h.head
  constructor
  · intro heq
    cases records with
    | nil => rfl
    | cons r rs =>
      have hr := (h.formed r List.mem_cons_self).1
      rw [List.flatten_cons, List.length_append] at hhead
      unfold headerSize at hr
      omega
  · rintro rfl
    rw [hhead]
    rfl

section Cons

variable (h : Contains b (record :: records))
include h

theorem cons_bounds : headerSize ≤ record.length ∧ record.length < b.mmapSize ∧
    b.dataHead = b.dataTail + record.length + records.flatten.length := by
  have hr := (h.formed record List.mem_cons_self).1
  have hhead := h.head
  have hroom := h.room
  rw [List.flatten_cons, List.length_append] at hhead hroom
  unfold headerSize at hr ⊢
  omega

theorem read_record : b.readWrapped b.dataTail record.length = record := by
  obtain ⟨-, hlt, -⟩ := h.cons_bounds
  rw [h.readWrapped_eq (by omega) (by omega)]
  exact slice_of_holds _ _ _ ((holds_append _ _ _ _).mp (List.flatten_cons ▸ h.bytes)).1

theorem sizeField_tail : sizeField (b.readWrapped b.dataTail headerSize) = record.length := by
  obtain ⟨hheader, hlt, -⟩ := h.cons_bounds
  have hbytes := ((holds_append _ _ _ _).mp (List.flatten_cons ▸ h.bytes)).1
  rw [← (h.formed record List.mem_cons_self).2, h.readWrapped_eq (by omega) (by omega)]
  apply sizeField_congr
  intro i hi
  have hlen : i < record.length := by omega
  rw [List.getD_eq_getElem _ _ (by rw [length_slice]; exact hi), List.getD_eq_getElem _ _ hlen, getElem_slice]
  exact hbytes i hlen

theorem tail : Contains { b with dataTail := b.dataTail + record.length } records := by
  obtain ⟨-, -, hhead⟩ := h.cons_bounds
  have hroom := h.room
  rw [List.flatten_cons, List.length_append] at hroom
  constructor
  · exact h.ring
  · exact hhead
  · exact Nat.le_trans (Nat.le_add_left _ _) hroom
  · exact h.word
  · exact ((holds_append _ _ _ _).mp (List.flatten_cons ▸ h.bytes)).2
  · intro r hr
    exact h.formed r (List.mem_cons_of_mem _ hr)

theorem takeRecord_eq : b.takeRecord = some (record, { b with dataTail := b.dataTail + record.length }) := by
  obtain ⟨hheader, hlt, hhead⟩ := h.cons_bounds
  have hword := h.word
  unfold takeRecord
  simp only [h.sizeField_tail]
  rw [if_neg (by unfold headerSize at *; omega), h.read_record, Nat.mod_eq_of_lt (by omega)]

end Cons

theorem takeRecord_nil (h : Contains b []) : b.takeRecord = none := by
  unfold takeRecord
  rw [if_pos (.inl (h.nil_iff.mpr rfl))]

theorem takeRecords_eq (h : Contains b records) {fuel : Nat} (hfuel : records.flatten.length ≤ fuel) :
    takeRecords fuel b = records := by
  induction records generalizing b fuel with
  | nil =>
    cases fuel with
    | zero => rfl
    | succ fuel => rw [takeRecords, h.takeRecord_nil]
  | cons r rs ih =>
    have hr := (h.formed r List.mem_cons_self).1
    rw [List.flatten_cons, List.length_append] at hfuel
    unfold headerSize at hr
    cases fuel with
    | zero => omega
    | succ fuel =>
      rw [takeRecords, h.takeRecord_eq]
      simp only
      rw [ih h.tail (by omega)]

theorem unread_eq (h : Contains b records) : b.unread = records := by
  apply h.takeRecords_eq
  have := h.head
  omega

end Contains

/-! ## Larger mappings -/

section Larger

open Buffer

variable {b : Buffer} {records : List (List UInt8)} {allocates : Bool} {bufferSize : Nat}

theorem positions_ensured (b : Buffer) (allocates : Bool) (bufferSize : Nat) :
    (b.ensured allocates bufferSize).dataHead = b.dataHead ∧
      (b.ensured allocates bufferSize).dataTail = b.dataTail := by
  unfold ensured ensureMmapBuffer
  split_ifs <;> exact ⟨rfl, rfl⟩

/-- A mapping that grows has a ring of a larger power of two, with zeros behind the old bytes. -/
theorem ensured_cases (b : Buffer) (allocates : Bool) (h : bufferSize < wordSize) :
    b.ensured allocates bufferSize = b ∨ b.mmapSize < (b.ensured allocates bufferSize).mmapSize ∧
      (∃ k, (b.ensured allocates bufferSize).mmapSize = 2 ^ k) ∧
      b.ensured allocates bufferSize = { b with
        mmapBufferSize := bufferSize
        data := fun i => if i < b.mmapSize then b.data i else 0 } := by
  unfold ensured ensureMmapBuffer
  by_cases hlarger : bufferSize > b.mmapBufferSize
  · rw [if_pos hlarger]
    by_cases hrefused : bufferSize < b.pagesize ∨ Ringbuf.popCnt 64 (bufferSize - b.pagesize) ≠ 1
    · rw [if_pos hrefused]
      exact .inl rfl
    · rw [if_neg hrefused]
      cases allocates with
      | false => exact .inl rfl
      | true =>
        obtain ⟨hpage, hbits⟩ := not_or.mp hrefused
        obtain ⟨k, hk⟩ := Ringbuf.exists_pow_of_popCnt (by unfold wordSize at h; omega) (not_not.mp hbits)
        have hpos : 0 < 2 ^ k := Nat.two_pow_pos k
        refine .inr ⟨?_, ⟨k, hk⟩, rfl⟩
        simp only [mmapSize, Bool.not_true, Bool.false_eq_true, if_false]
        omega
  · rw [if_neg hlarger]
    exact .inl rfl

/-- What a consumer takes are the bytes that stand there, whatever they are. -/
theorem holds_takeRecords (fuel : Nat) {k : Nat} (hring : b.mmapSize = 2 ^ k)
    (hroom : b.dataHead - b.dataTail ≤ b.mmapSize)
    (hword : b.dataHead < wordSize) : Holds (unrolled b.data b.mmapSize) b.dataTail (takeRecords fuel b).flatten := by
  induction fuel generalizing b with
  | zero => exact holds_nil _ _
  | succ fuel ih =>
    rw [takeRecords]
    unfold takeRecord
    by_cases hstop : b.dataTail = b.dataHead ∨ sizeField (b.readWrapped b.dataTail headerSize) < headerSize ∨
        sizeField (b.readWrapped b.dataTail headerSize) > b.dataHead - b.dataTail
    · rw [if_pos hstop]
      exact holds_nil _ _
    · simp only [if_neg hstop]
      generalize sizeField (b.readWrapped b.dataTail headerSize) = size at hstop
      have hsize : headerSize ≤ size ∧ size ≤ b.dataHead - b.dataTail := by omega
      have hpos : 0 < b.mmapSize := by rw [hring]; exact Nat.two_pow_pos k
      have hread : b.readWrapped b.dataTail size = slice (unrolled b.data b.mmapSize) b.dataTail size := by
        rw [readWrapped, ByteRings.mask_eq hring, ByteRings.readWrapped_eq hpos (by omega)]
      have htail : (b.dataTail + size) % wordSize = b.dataTail + size :=
        Nat.mod_eq_of_lt (by unfold headerSize at hsize; omega)
      rw [List.flatten_cons, holds_append, hread, length_slice, htail]
      have hroom' : b.dataHead - (b.dataTail + size) ≤ b.mmapSize := by omega
      constructor
      · exact holds_slice _ _ _
      · exact ih (b := { b with dataTail := b.dataTail + size }) hring hroom' hword

theorem unread_ensured_iff (h : Contains b records) (hsize : bufferSize < wordSize) :
    (b.ensured allocates bufferSize).unread = b.unread ↔
      ∀ p, b.dataTail ≤ p → p < b.dataHead →
        (if p % (b.ensured allocates bufferSize).mmapSize < b.mmapSize then
          b.data (p % (b.ensured allocates bufferSize).mmapSize) else 0) =
          b.data (p % b.mmapSize) := by
  have hhead := h.head
  have hroom := h.room
  obtain hsame | ⟨hlarger, ⟨k, hk⟩, hgrown⟩ := ensured_cases b allocates hsize
  · rw [hsame]
    simp only [true_iff]
    intro p hle hlt
    rw [if_pos (Nat.mod_lt _ (by omega))]
  · rw [h.unread_eq]
    -- the same positions, seen in the larger ring
    have hview : ∀ p, unrolled (b.ensured allocates bufferSize).data (b.ensured allocates bufferSize).mmapSize p =
        if p % (b.ensured allocates bufferSize).mmapSize < b.mmapSize then
          b.data (p % (b.ensured allocates bufferSize).mmapSize) else 0 := by
      intro p
      rw [hgrown]
      rfl
    have hpositions := positions_ensured b allocates bufferSize
    constructor
    · intro hunread p hle hlt
      have hnew : Holds (unrolled (b.ensured allocates bufferSize).data (b.ensured allocates bufferSize).mmapSize)
        b.dataTail records.flatten := by
        rw [← hunread, ← hpositions.2]
        apply holds_takeRecords _ hk
        · omega
        · rw [hpositions.1]
          exact h.word
      have hi : p - b.dataTail < records.flatten.length := by omega
      have hat : b.dataTail + (p - b.dataTail) = p := by omega
      have hold := h.bytes _ hi
      have hbyte := hnew _ hi
      rw [hat] at hold hbyte
      rw [← hview, hbyte, ← hold, unrolled]
    · intro hbytes
      apply Contains.unread_eq
      constructor
      · exact .inr ⟨k, hk⟩
      · rw [hpositions.1, hpositions.2]
        exact hhead
      · omega
      · rw [hpositions.1]
        exact h.word
      · rw [hpositions.2]
        intro i hi
        rw [hview, hbytes _ (by omega) (by omega)]
        exact h.bytes i hi
      · exact h.formed

/-- A larger mapping leaves the unread records as they are exactly if every unread byte stands
where it is looked for in the larger ring. In the first lap they all do. -/
theorem ensured_unread_iff (h : Contains b records) (hsize : bufferSize < wordSize) :
    ((b.ensured allocates bufferSize).unread = b.unread ↔
        ∀ p, b.dataTail ≤ p → p < b.dataHead →
          (if p % (b.ensured allocates bufferSize).mmapSize < b.mmapSize then
            b.data (p % (b.ensured allocates bufferSize).mmapSize) else 0) = b.data (p % b.mmapSize)) ∧
      (b.dataHead ≤ b.mmapSize → (b.ensured allocates bufferSize).unread = b.unread) := by
  refine ⟨unread_ensured_iff h hsize, fun hlap => (unread_ensured_iff h hsize).mpr fun p _ hlt => ?_⟩
  obtain hsame | ⟨hlarger, -, -⟩ := ensured_cases b allocates hsize
  · rw [hsame, if_pos (Nat.mod_lt _ (by omega))]
  · rw [Nat.mod_eq_of_lt (by omega), Nat.mod_eq_of_lt (by omega), if_pos (by omega)]

end Larger

/-- A ring of 32 bytes with one record of 16 bytes, at its beginning. -/
def firstLap : Buffer := (((create 4096).ensured true 4128).outputData [1, 2, 3, 4]).toOption.getD (create 4096)

theorem firstLap_contains : Contains firstLap [firstLap.readWrapped 0 16] := by
  have hslice : slice (unrolled firstLap.data firstLap.mmapSize) 0 16 = firstLap.readWrapped 0 16 := by decide +kernel
  have hholds : Holds (unrolled firstLap.data firstLap.mmapSize) 0 [firstLap.readWrapped 0 16].flatten := by
    rw [List.flatten_singleton, ← hslice]
    exact holds_slice _ _ _
  constructor
  · exact .inr ⟨5, by decide +kernel⟩
  · decide +kernel
  · decide +kernel
  · decide +kernel
  · exact hholds
  · intro r hr
    rw [List.mem_singleton.mp hr]
    exact ⟨by decide, by decide +kernel⟩

theorem ensured_unread_iff_first_lap : (firstLap.ensured true 4160).unread = firstLap.unread :=
  (ensured_unread_iff firstLap_contains (by decide)).2 (by decide +kernel)

/-- The same ring with the record in its second lap, after two records were taken. -/
def secondLap : Buffer :=
  let turn (b : Buffer) : Buffer :=
    ((b.takeRecord.map Prod.snd).bind fun b => (b.outputData [1, 2, 3, 4]).toOption).getD b
  turn (turn firstLap)

/-- The record stays at the beginning and is looked for behind the old end, where there are zeros. -/
theorem larger_mapping_loses_record :
    secondLap.unread = [secondLap.readWrapped 0 16] ∧ (secondLap.ensured true 4160).mmapSize = 64 ∧
      (secondLap.ensured true 4160).unread = [] := by
  decide +kernel

end PerfBuffer
