import Ubpftrace.Bytes

/-!
# Binary event records

The record layout of `ubpf_shm_buffer.hpp`, written by `log_event`, and the two
length-driven loops that read it back: the event loop of `parse_ubpf_file` in
`ubpftrace_cat.cpp` and the collecting loop of `process_chunk` in
`ubpf_micro_streamer.cpp`.
-/

namespace EventRecord

open Bytes

/-- `sizeof(ubpf_event_record_header)`. -/
def headerSize : Nat := 24

structure Header where
  recordLen : UInt32
  rank : UInt16
  eventType : UInt16
  timestampNs : UInt64
  payloadLen : UInt32
  reserved : UInt32
  deriving DecidableEq

def Header.encode (h : Header) : List UInt8 :=
  le 4 h.recordLen.toNat ++ le 2 h.rank.toNat ++ le 2 h.eventType.toNat ++
    le 8 h.timestampNs.toNat ++ le 4 h.payloadLen.toNat ++ le 4 h.reserved.toNat

def Header.read (mem : Nat → UInt8) (a : Nat) : Header where
  recordLen := .ofNat (readLe mem a 4)
  rank := .ofNat (readLe mem (a + 4) 2)
  eventType := .ofNat (readLe mem (a + 6) 2)
  timestampNs := .ofNat (readLe mem (a + 8) 8)
  payloadLen := .ofNat (readLe mem (a + 16) 4)
  reserved := .ofNat (readLe mem (a + 20) 4)

/-- A stamped event as `log_event` lays it into its reservation. -/
structure Record where
  rank : UInt16
  eventType : UInt16
  timestampNs : UInt64
  payload : List UInt8
  deriving DecidableEq

/-- The header `log_event` writes. Both lengths are truncated to 32 bits. -/
def Record.header (r : Record) : Header where
  recordLen := .ofNat (headerSize + r.payload.length)
  rank := r.rank
  eventType := r.eventType
  timestampNs := r.timestampNs
  payloadLen := .ofNat r.payload.length
  reserved := 0

def Record.bytes (r : Record) : List UInt8 := r.header.encode ++ r.payload

@[simp] theorem length_encode (h : Header) : h.encode.length = headerSize := by
  simp [Header.encode, headerSize]

@[simp] theorem length_bytes (r : Record) : r.bytes.length = headerSize + r.payload.length := by
  simp [Record.bytes]

theorem read_of_holds (mem : Nat → UInt8) (a : Nat) (h : Header) (hm : Holds mem a h.encode) :
    Header.read mem a = h := by
  simp only [Header.encode, holds_append, List.length_append, length_le] at hm
  obtain ⟨⟨⟨⟨⟨h₁, h₂⟩, h₃⟩, h₄⟩, h₅⟩, h₆⟩ := hm
  simp only [Header.read, readU32_of_holds _ _ _ h₁, readU16_of_holds _ _ _ h₂, readU16_of_holds _ _ _ h₃,
    readU64_of_holds _ _ _ h₄, readU32_of_holds _ _ _ h₅, readU32_of_holds _ _ _ h₆]

structure DecodedEvent where
  timestampNs : UInt64
  rank : UInt16
  eventType : UInt16
  nodeId : UInt32
  payload : String
  deriving DecidableEq

/-- `std::isprint` in the C locale. -/
def isPrint (c : UInt8) : Bool := 0x20 ≤ c.toNat && c.toNat ≤ 0x7E

/-- Text apart from an optional terminating zero. -/
def isPrintable (bs : List UInt8) : Bool :=
  (List.range bs.length).all fun i =>
    let c := bs.getD i 0
    (c == 0 && i == bs.length - 1) || isPrint c || c == 10 || c == 9 || c == 13

/-- The string loop drops trailing zeros, newlines and carriage returns. -/
def trimTrailing (bs : List UInt8) : List UInt8 :=
  (bs.reverse.dropWhile fun c => c == 0 || c == 10 || c == 13).reverse

def asText (bs : List UInt8) : String := String.ofList (bs.map fun c => Char.ofNat c.toNat)

/-- What `parse_ubpf_file` stores in `ev.payload` for the payload bytes of a record. -/
def renderPayload (bs : List UInt8) : String :=
  if bs.length = 0 then ""
  else if isPrintable bs then asText (trimTrailing bs)
  else if 8 ≤ bs.length then
    let actionId := readLe (ofList bs) 0 8
    if bs.length = 16 then
      let v0 := readLe (ofList bs) 8 8
      if actionId = 0 then "[HPC Compute] Compute time: " ++ toString v0 ++ " us"
      else if actionId = 1 then "[MPI Barrier] Barrier wait time: " ++ toString v0 ++ " us"
      else if actionId = 2 then "[MPI Allreduce] Allreduce latency: " ++ toString v0 ++ " us"
      else "[Event Action " ++ toString actionId ++ "] Value: " ++ toString v0
    else if bs.length = 24 then
      let v0 := readLe (ofList bs) 8 8
      let v1 := readLe (ofList bs) 16 8
      "[Event Action " ++ toString actionId ++ "] Args: (" ++ toString v0 ++ ", " ++ toString v1 ++ ")"
    else "[Event Action " ++ toString actionId ++ " (" ++ toString bs.length ++ " bytes)]"
  else "[Binary Payload: " ++ toString bs.length ++ " bytes]"

/-- The event pushed for the record whose header stands at `a`. The payload is
taken at the length the header states, without comparing it with `record_len`. -/
def eventAt (nodeId : UInt32) (mem : Nat → UInt8) (a : Nat) : DecodedEvent :=
  let h := Header.read mem a
  { timestampNs := h.timestampNs
    rank := h.rank
    eventType := h.eventType
    nodeId := nodeId
    payload := renderPayload (slice mem (a + headerSize) h.payloadLen.toNat) }

/-- The event loop of `parse_ubpf_file` over `len` decompressed bytes. -/
def decodeFrom (nodeId : UInt32) (mem : Nat → UInt8) (len offset : Nat) : List DecodedEvent :=
  if offset + headerSize ≤ len then
    let n := (Header.read mem offset).recordLen.toNat
    if _h : n = 0 ∨ len < offset + n then []
    else eventAt nodeId mem offset :: decodeFrom nodeId mem len (offset + n)
  else []
termination_by len - offset

/-- The collecting loop of `process_chunk`: the offsets of the accepted headers.
Unlike the loop above it rejects records shorter than a header. -/
def collectFrom (mem : Nat → UInt8) (len offset : Nat) : List Nat :=
  if offset + headerSize ≤ len then
    let n := (Header.read mem offset).recordLen.toNat
    if _h : n < headerSize ∨ len < offset + n then []
    else offset :: collectFrom mem len (offset + n)
  else []
termination_by len - offset
decreasing_by simp only [headerSize] at *; omega

def Record.event (nodeId : UInt32) (r : Record) : DecodedEvent where
  timestampNs := r.timestampNs
  rank := r.rank
  eventType := r.eventType
  nodeId := nodeId
  payload := renderPayload r.payload

/-- The lengths of the record fit their 32-bit fields. -/
def Record.Fits (r : Record) : Prop := headerSize + r.payload.length < 2 ^ 32

instance (r : Record) : Decidable r.Fits := inferInstanceAs (Decidable (_ < _))

theorem recordLen_toNat (r : Record) (hf : r.Fits) :
    r.header.recordLen.toNat = headerSize + r.payload.length := by
  exact UInt32.toNat_ofNat_of_lt' hf

variable (nodeId : UInt32)

theorem eventAt_of_holds (mem : Nat → UInt8) (a : Nat) (r : Record) (hf : r.Fits)
    (hm : Holds mem a r.bytes) : eventAt nodeId mem a = r.event nodeId := by
  obtain ⟨hh, hp⟩ := (holds_append _ _ _ _).mp hm
  have hlen : r.header.payloadLen.toNat = r.payload.length := by
    simp only [Record.header]
    exact UInt32.toNat_ofNat_of_lt' (Nat.lt_of_le_of_lt (Nat.le_add_left _ _) hf)
  rw [length_encode] at hp
  simp only [eventAt, read_of_holds _ _ _ hh, hlen, slice_of_holds _ _ _ hp]
  rfl

theorem decodeFrom_record (mem : Nat → UInt8) (len a : Nat) (r : Record) (hf : r.Fits)
    (hm : Holds mem a r.bytes) (hlen : a + r.bytes.length ≤ len) :
    decodeFrom nodeId mem len a = r.event nodeId :: decodeFrom nodeId mem len (a + r.bytes.length) := by
  obtain ⟨hh, -⟩ := (holds_append _ _ _ _).mp hm
  rw [length_bytes] at hlen ⊢
  have hn := recordLen_toNat r hf
  rw [decodeFrom]
  simp only [read_of_holds _ _ _ hh, hn, eventAt_of_holds nodeId mem a r hf hm]
  rw [if_pos (by omega), dif_neg (by simp only [headerSize] at *; omega)]

theorem decodeFrom_records (mem : Nat → UInt8) (len a : Nat) (rs : List Record)
    (hf : ∀ r ∈ rs, r.Fits) (hm : Holds mem a (rs.flatMap Record.bytes))
    (hlen : a + (rs.flatMap Record.bytes).length ≤ len) :
    decodeFrom nodeId mem len a = rs.map (Record.event nodeId) ++
      decodeFrom nodeId mem len (a + (rs.flatMap Record.bytes).length) := by
  induction rs generalizing a with
  | nil => simp
  | cons r rs ih =>
    rw [List.flatMap_cons, holds_append] at hm
    rw [List.flatMap_cons, List.length_append] at hlen ⊢
    rw [decodeFrom_record nodeId mem len a r (hf r (by simp)) hm.1 (by omega),
      ih (a + r.bytes.length) (fun q hq => hf q (by simp [hq])) hm.2 (by omega)]
    simp [Nat.add_assoc]

/-- The loop stops at `a`: no room for a header, or a length it does not accept. -/
def Stops (mem : Nat → UInt8) (len a : Nat) : Prop :=
  len < a + headerSize ∨ (Header.read mem a).recordLen = 0 ∨ len < a + (Header.read mem a).recordLen.toNat

theorem decodeFrom_eq_nil_iff (mem : Nat → UInt8) (len a : Nat) :
    decodeFrom nodeId mem len a = [] ↔ Stops mem len a := by
  have hz : (Header.read mem a).recordLen = 0 ↔ (Header.read mem a).recordLen.toNat = 0 := by
    rw [← UInt32.toNat_inj]
    rfl
  rw [decodeFrom, Stops, hz]
  dsimp only
  split
  · next h =>
    split
    · next h' => simp only [true_iff]; exact Or.inr h'
    · next h' =>
      simp only [reduceCtorEq, false_iff]
      omega
  · next h => simp only [true_iff]; omega

end EventRecord
