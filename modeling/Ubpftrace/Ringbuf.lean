import Mathlib.Data.Nat.Bitwise
import Ubpftrace.Bytes
import Ubpftrace.Runs

/-!
# The ring buffer map

`ringbuf_map.cpp`: a producer reserves a sample behind a header of eight bytes,
writes it and submits or discards it; `fetch_data` hands the submitted samples to
a callback. The data area is twice as long as the ring and not mirrored. The
producer takes the sample's address modulo the ring, the consumer takes the eight
bytes behind the header. The two differ for the header at the very end.
-/

namespace Ringbuf

open Bytes
open Runs (Reaches run reaches_of_run)

def BUSY_BIT : Nat := 2 ^ 31
def DISCARD_BIT : Nat := 2 ^ 30
def HDR_SZ : Nat := 8

def pageSize : Nat := 4096

/-- Where the data begin in the raw buffer, behind the pages of the two positions. -/
def dataStart : Nat := 2 * pageSize

/-- `unsigned long`. -/
def wordSize : Nat := 2 ^ 64

inductive Errno where
  | E2BIG
  | ENOSPC
  deriving DecidableEq

/-- `ringbuf`, with the descriptors that refer to its map. -/
structure Ring where
  maxEnt : Nat
  fds : List UInt32
  consumerPos : Nat
  producerPos : Nat
  raw : Nat → UInt8

/-- The bits of `max_entries`, counted in `map_init`. -/
def popCnt : Nat → Nat → Nat
  | 0, _ => 0
  | fuel + 1, maxEnt => if maxEnt = 0 then 0 else (maxEnt &&& 1) + popCnt fuel (maxEnt >>> 1)

def mapInit (maxEntries : Nat) (fds : List UInt32) : Option Ring :=
  if popCnt 32 maxEntries = 1 then some ⟨maxEntries, fds, 0, 0, fun _ => 0⟩ else none

namespace Ring

def masked (r : Ring) (pos : Nat) : Nat := pos &&& (r.maxEnt - 1)

/-- A `uint32_t` or `int32_t` of the data area. -/
def read32 (r : Ring) (offset : Nat) : Nat := readLe r.raw (dataStart + offset) 4

def totalSize (size : Nat) : Nat := (size + HDR_SZ + 7) / 8 * 8

def reserve (r : Ring) (size : Nat) (fd : UInt32) : Except Errno (Nat × Ring) :=
  if size &&& (BUSY_BIT ||| DISCARD_BIT) ≠ 0 then .error .E2BIG
  else if totalSize size > r.maxEnt then .error .E2BIG
  else if (r.maxEnt + wordSize - (r.producerPos + wordSize - r.consumerPos) % wordSize) % wordSize < totalSize size then
    .error .ENOSPC
  else
    .ok (r.masked (r.producerPos + HDR_SZ),
      { r with
        raw := write r.raw (dataStart + r.masked r.producerPos) (le 4 (size ||| BUSY_BIT) ++ le 4 fd.toNat)
        producerPos := (r.producerPos + totalSize size) % wordSize })

def submit (r : Ring) (sample : Nat) (discard : Bool) : Ring :=
  let hdr := r.masked (r.maxEnt + sample - HDR_SZ)
  let newLen := r.read32 hdr &&& (2 ^ 32 - 1 - BUSY_BIT)
  let newLen := if discard then newLen ||| DISCARD_BIT else newLen
  { r with raw := write r.raw (dataStart + hdr) (le 4 newLen) }

/-- The helpers `bpf_ringbuf_submit` and `bpf_ringbuf_discard` find the map by the
descriptor that stands before the sample. -/
def submitHelper (r : Ring) (sample : Nat) (discard : Bool) : Ring :=
  if UInt32.ofNat (readLe r.raw (dataStart + sample - 4) 4) ∈ r.fds then r.submit sample discard else r

def roundupLen (len : Nat) : Nat := (((len <<< 2) % 2 ^ 32) >>> 2 + HDR_SZ + 7) / 8 * 8

/-- The loop of `fetch_data`: the samples given to the callback, the result and the
ring. The callback answers the sample that follows `cnt` others with `answers cnt`. -/
def fetchLoop (answers : Nat → Int) : Nat → Nat → Ring → List (List UInt8) × Int × Ring
  | 0, cnt, r => ([], cnt, r)
  | fuel + 1, cnt, r =>
    if r.consumerPos < r.producerPos then
      let lenPtr := r.masked r.consumerPos
      let len := r.read32 lenPtr
      if len &&& BUSY_BIT ≠ 0 then ([], cnt, r)
      else
        let next := { r with consumerPos := (r.consumerPos + roundupLen len) % wordSize }
        if len &&& DISCARD_BIT = 0 then
          let sample := slice r.raw (dataStart + (lenPtr + HDR_SZ)) len
          if answers cnt < 0 then ([sample], answers cnt, next)
          else (fetchLoop answers fuel (cnt + 1) next).map (sample :: ·) id
        else fetchLoop answers fuel cnt next
    else ([], cnt, r)

/-- A round consumes at least a header, so the bytes in flight are enough fuel. -/
def fetchData (r : Ring) (answers : Nat → Int) : List (List UInt8) × Int × Ring :=
  fetchLoop answers (r.producerPos - r.consumerPos) 0 r

end Ring

/-! ## Runs -/

inductive Status where
  | reserved
  | submitted
  | discarded
  deriving DecidableEq

/-- A reservation, with the bytes its producer sees in the sample. -/
structure Rec where
  pos : Nat
  size : Nat
  sample : Nat
  status : Status
  content : List UInt8
  deriving DecidableEq

/-- The ring, as history the reservations in their order and what the callback received. -/
structure State where
  ring : Ring
  recs : List Rec
  delivered : List (List UInt8)

inductive Action where
  | reserve (size : Nat) (fd : UInt32)
  | write (i offset : Nat) (byte : UInt8)
  | commit (i : Nat) (discard helper : Bool)
  | fetch (answers : Nat → Int)

/-- A sample is written and submitted or discarded by its producer, while it is reserved. -/
def step (s : State) : Action → Option State
  | .reserve size fd =>
    if fd ∈ s.ring.fds then
      match s.ring.reserve size fd with
      | .error _ => some s
      | .ok (sample, ring) =>
        some { s with
          ring := ring
          recs := s.recs ++ [⟨s.ring.producerPos, size, sample, .reserved, slice ring.raw (dataStart + sample) size⟩] }
    else none
  | .write i offset byte =>
    match s.recs[i]? with
    | none => none
    | some rec =>
      if rec.status = .reserved ∧ offset < rec.size then
        some { s with
          ring := { s.ring with raw := write s.ring.raw (dataStart + (rec.sample + offset)) [byte] }
          recs := s.recs.set i { rec with content := rec.content.set offset byte } }
      else none
  | .commit i discard helper =>
    match s.recs[i]? with
    | none => none
    | some rec =>
      if rec.status = .reserved then
        some { s with
          ring := if helper then s.ring.submitHelper rec.sample discard else s.ring.submit rec.sample discard
          recs := s.recs.set i { rec with status := if discard then .discarded else .submitted } }
      else none
  | .fetch answers =>
    let result := s.ring.fetchData answers
    some { s with ring := result.2.2, delivered := s.delivered ++ result.1 }

def initial (ring : Ring) : State := ⟨ring, [], []⟩

/-- What a consumer is owed: the submitted samples before the first that is still reserved. -/
def owed (recs : List Rec) : List (List UInt8) :=
  ((recs.takeWhile (·.status ≠ .reserved)).filter (·.status = .submitted)).map (·.content)

/-- The sample of a header at the very end is empty, and the helpers do not read a
descriptor from before the data area; the positions do not wrap. -/
def Ok (s : State) : Action → Prop
  | .reserve size _ =>
    (s.ring.producerPos % s.ring.maxEnt + HDR_SZ = s.ring.maxEnt → size = 0) ∧
      s.ring.producerPos + Ring.totalSize size < wordSize
  | .commit i _ helper =>
    helper = true → ∀ rec ∈ s.recs[i]?, rec.pos % s.ring.maxEnt + HDR_SZ = s.ring.maxEnt → 0 ∈ s.ring.fds
  | .write _ _ _ | .fetch _ => True

instance (s : State) : ∀ a, Decidable (Ok s a)
  | .reserve _ _ => inferInstanceAs (Decidable (_ ∧ _))
  | .commit _ _ _ => inferInstanceAs (Decidable (_ → _))
  | .write _ _ _ | .fetch _ => inferInstanceAs (Decidable True)

/-! ## Bits and positions -/

theorem popCnt_eq_zero {fuel n : Nat} (hn : n < 2 ^ fuel) (h : popCnt fuel n = 0) : n = 0 := by
  induction fuel generalizing n with
  | zero => omega
  | succ fuel ih =>
    rw [popCnt] at h
    split at h
    · assumption
    · rw [Nat.and_one_is_mod, Nat.shiftRight_one] at h
      have hhalf := ih (n := n / 2) (by omega) (by omega)
      omega

theorem exists_pow_of_popCnt {fuel n : Nat} (hn : n < 2 ^ fuel) (h : popCnt fuel n = 1) : ∃ k, n = 2 ^ k := by
  induction fuel generalizing n with
  | zero => cases h
  | succ fuel ih =>
    rw [popCnt] at h
    split at h
    · cases h
    · rw [Nat.and_one_is_mod, Nat.shiftRight_one] at h
      by_cases hodd : n % 2 = 1
      · have hhalf := @popCnt_eq_zero fuel (n / 2) (by omega) (by omega)
        exact ⟨0, by omega⟩
      · obtain ⟨k, hk⟩ := ih (n := n / 2) (by omega) (by omega)
        exact ⟨k + 1, by omega⟩

theorem and_pow_eq_zero_iff (x i : Nat) : x &&& 2 ^ i = 0 ↔ x / 2 ^ i % 2 = 0 := by
  rw [Nat.and_two_pow, Nat.testBit_eq_decide_div_mod_eq]
  have hmod : x / 2 ^ i % 2 = 0 ∨ x / 2 ^ i % 2 = 1 := by omega
  rcases hmod with h | h <;> simp [h]

variable {i : Nat} {fd : UInt32} {ring : Ring}

theorem or_pow_of_lt {x : Nat} (h : x < 2 ^ i) : x ||| 2 ^ i = x + 2 ^ i := by
  have := Nat.two_pow_add_eq_or_of_lt h 1
  rw [Nat.mul_one] at this
  rw [Nat.or_comm, ← this, Nat.add_comm]

theorem size_lt {size : Nat} (hbits : size &&& (BUSY_BIT ||| DISCARD_BIT) = 0) (hlt : size < 2 ^ 31) :
    size < 2 ^ 30 := by
  have hbit : size &&& 2 ^ 30 = 0 := by
    have hsplit : size &&& BUSY_BIT ||| size &&& DISCARD_BIT = 0 := by
      rw [← Nat.and_or_distrib_left]
      exact hbits
    exact (Nat.or_eq_zero_iff.mp hsplit).2
  rw [and_pow_eq_zero_iff] at hbit
  omega

theorem masked_eq {r : Ring} {k : Nat} (h : r.maxEnt = 2 ^ k) (pos : Nat) : r.masked pos = pos % r.maxEnt := by
  rw [Ring.masked, h, Nat.and_two_pow_sub_one_eq_mod]

def Rec.len (rec : Rec) : Nat :=
  match rec.status with
  | .reserved => rec.size ||| BUSY_BIT
  | .submitted => rec.size
  | .discarded => rec.size ||| DISCARD_BIT

section Lengths

variable {rec : Rec} (h : rec.size < 2 ^ 30)
include h

theorem len_eq :
    rec.len = rec.size + match rec.status with | .reserved => 2 ^ 31 | .submitted => 0 | .discarded => 2 ^ 30 := by
  unfold Rec.len BUSY_BIT DISCARD_BIT
  cases rec.status with
  | reserved => exact or_pow_of_lt (by omega)
  | submitted => rfl
  | discarded => exact or_pow_of_lt h

theorem len_lt : rec.len < 2 ^ 32 := by
  rw [len_eq h]
  cases rec.status <;> dsimp only <;> omega

theorem busy_iff : rec.len &&& BUSY_BIT = 0 ↔ rec.status ≠ .reserved := by
  rw [len_eq h, BUSY_BIT, and_pow_eq_zero_iff]
  cases rec.status <;> simp <;> omega

theorem discard_iff (hs : rec.status ≠ .reserved) : rec.len &&& DISCARD_BIT = 0 ↔ rec.status = .submitted := by
  rw [len_eq h, DISCARD_BIT, and_pow_eq_zero_iff]
  cases hstatus : rec.status with
  | reserved => exact absurd hstatus hs
  | submitted | discarded =>
    simp
    omega

theorem len_mod : rec.len % 2 ^ 30 = rec.size := by
  rw [len_eq h]
  cases rec.status <;> dsimp only <;> omega

end Lengths

theorem roundupLen_eq (len : Nat) : Ring.roundupLen len = Ring.totalSize (len % 2 ^ 30) := by
  rw [Ring.roundupLen, Ring.totalSize, Nat.shiftLeft_eq, Nat.shiftRight_eq_div_pow,
    show len * 2 ^ 2 % 2 ^ 32 / 2 ^ 2 = len % 2 ^ 30 by omega]

theorem totalSize_bounds (size : Nat) : size + HDR_SZ ≤ Ring.totalSize size ∧ Ring.totalSize size % 8 = 0 := by
  unfold Ring.totalSize HDR_SZ
  omega

/-- A ring in which a record fits has its headers at multiples of eight. -/
theorem ring_aligned {n k size : Nat} (hk : n = 2 ^ k) (h : Ring.totalSize size ≤ n) : n % 8 = 0 := by
  have htotal := (totalSize_bounds size).1
  have h8 : 2 ^ 3 ≤ 2 ^ k := by
    unfold HDR_SZ at htotal
    omega
  rw [hk]
  exact Nat.mod_eq_zero_of_dvd (pow_dvd_pow 2 ((Nat.pow_le_pow_iff_right (by omega)).mp h8))

theorem distance_eq {p c : Nat} (hle : c ≤ p) (hlt : p - c < wordSize) :
    (p % wordSize + wordSize - c % wordSize) % wordSize = p - c := by
  unfold wordSize at *
  omega

theorem masked_mod {r : Ring} {k : Nat} (hk : r.maxEnt = 2 ^ k) (hsmall : r.maxEnt < 2 ^ 31) (pos i : Nat) :
    r.masked (pos % wordSize + i) = (pos + i) % r.maxEnt := by
  have hdvd : r.maxEnt ∣ wordSize := by
    rw [hk] at hsmall ⊢
    exact pow_dvd_pow 2 (by have := (Nat.pow_lt_pow_iff_right (by omega)).mp hsmall; omega)
  rw [masked_eq hk, Nat.add_mod, Nat.mod_mod_of_dvd _ hdvd, ← Nat.add_mod]

theorem reserve_ok {r : Ring} {size sample : Nat} (h : r.reserve size fd = .ok (sample, ring)) :
    size &&& (BUSY_BIT ||| DISCARD_BIT) = 0 ∧ Ring.totalSize size ≤ r.maxEnt ∧
      Ring.totalSize size ≤
        (r.maxEnt + wordSize - (r.producerPos + wordSize - r.consumerPos) % wordSize) % wordSize ∧
      sample = r.masked (r.producerPos + HDR_SZ) ∧
      ring =
        { r with
          raw := write r.raw (dataStart + r.masked r.producerPos) (le 4 (size ||| BUSY_BIT) ++ le 4 fd.toNat)
          producerPos := (r.producerPos + Ring.totalSize size) % wordSize } := by
  unfold Ring.reserve at h
  split_ifs at h with hbits hbig hfull
  cases h
  exact ⟨not_not.mp hbits, Nat.le_of_not_lt hbig, Nat.le_of_not_lt hfull, rfl, rfl⟩

theorem room_of_reserve {r : Ring} {p c size sample : Nat} (hle : c ≤ p) (hwindow : p ≤ c + r.maxEnt)
    (hsmall : r.maxEnt < 2 ^ 31) (hproducer : r.producerPos = p % wordSize) (hconsumer : r.consumerPos = c % wordSize)
    (hres : r.reserve size fd = .ok (sample, ring)) : p + Ring.totalSize size ≤ c + r.maxEnt := by
  obtain ⟨-, -, havail, -⟩ := reserve_ok hres
  rw [hproducer, hconsumer, distance_eq hle (by unfold wordSize; omega)] at havail
  unfold wordSize at havail
  omega

/-! ## Where the records stand -/

/-- Records stand one behind the other from `p` up to `q`. -/
abbrev Laid : Nat → List Rec → Nat → Prop := Tiles Rec.pos fun rec => Ring.totalSize rec.size

theorem Laid.length_le {p q : Nat} {recs : List Rec} (h : Laid p recs q) : recs.length ≤ q - p := by
  have hlength := Tiles.length (m := 1) h fun rec _ => Nat.le_trans (by simp [HDR_SZ]) (totalSize_bounds rec.size).1
  omega

/-- The length in the header of a record, and the bytes behind it. -/
def Ring.headerLen (r : Ring) (rec : Rec) : Nat := r.read32 (rec.pos % r.maxEnt)

def Ring.fetched (r : Ring) (rec : Rec) : List UInt8 :=
  slice r.raw (dataStart + (rec.pos % r.maxEnt + HDR_SZ)) (r.headerLen rec)

/-- The fetch loop passes records from the oldest on, by the lengths in their headers, up to a
busy one, to the end, or until the callback fails. -/
theorem fetchLoop_spec (answers : Nat → Int) {r : Ring} {c p k : Nat} {todo : List Rec} (hk : r.maxEnt = 2 ^ k)
    (hsmall : r.maxEnt < 2 ^ 31) (hproducer : r.producerPos = p % wordSize) (hconsumer : r.consumerPos = c % wordSize)
    (hlaid : Laid c todo p) (hlength : ∀ rec ∈ todo, r.headerLen rec % 2 ^ 30 = rec.size) (fuel cnt : Nat) :
    ∃ passed rest d, todo = passed ++ rest ∧ Laid c passed (c + d) ∧ Laid (c + d) rest p ∧
      (Ring.fetchLoop answers fuel cnt r).2.2 = { r with consumerPos := (c + d) % wordSize } ∧
      (∀ rec ∈ passed, r.headerLen rec &&& BUSY_BIT = 0) ∧
      (Ring.fetchLoop answers fuel cnt r).1 = (passed.filter (r.headerLen · &&& DISCARD_BIT = 0)).map r.fetched ∧
      (todo.length ≤ fuel → p < wordSize → (∀ n, 0 ≤ answers n) →
        ∀ rec ∈ rest.head?, r.headerLen rec &&& BUSY_BIT ≠ 0) := by
  have hstop : { r with consumerPos := (c + 0) % wordSize } = r := by rw [Nat.add_zero, ← hconsumer]
  induction fuel generalizing r c todo cnt with
  | zero =>
    refine ⟨[], todo, 0, rfl, rfl, hlaid, hstop.symm, by simp, rfl, fun hfuel _ _ => ?_⟩
    simp [List.eq_nil_of_length_eq_zero (Nat.le_zero.mp hfuel)]
  | succ fuel ih =>
    rw [Ring.fetchLoop]
    by_cases hlt : r.consumerPos < r.producerPos
    · cases todo with
      | nil =>
        obtain rfl : c = p := hlaid
        rw [hproducer, hconsumer] at hlt
        exact absurd hlt (lt_irrefl _)
      | cons rec todo =>
        obtain ⟨hpos, hrest⟩ := hlaid
        have hheader : r.masked r.consumerPos = rec.pos % r.maxEnt := by
          rw [hconsumer, hpos]
          exact masked_mod hk hsmall c 0
        have hlen : r.read32 (r.masked r.consumerPos) = r.headerLen rec := by rw [hheader, Ring.headerLen]
        have hsample :
          slice r.raw (dataStart + (r.masked r.consumerPos + HDR_SZ)) (r.headerLen rec) = r.fetched rec := by
          rw [hheader, Ring.fetched]
        have hnext : (r.consumerPos + Ring.roundupLen (r.headerLen rec)) % wordSize =
            (c + Ring.totalSize rec.size) % wordSize := by
          rw [roundupLen_eq, hlength rec (by simp), hconsumer, Nat.mod_add_mod]
        simp only [if_pos hlt, hlen, hsample, hnext]
        have ih' := fun cnt => ih (r := { r with consumerPos := (c + Ring.totalSize rec.size) % wordSize }) hk hsmall
          hproducer rfl hrest (fun rec' hmem => hlength rec' (by simp [hmem])) cnt rfl
        split_ifs with hbusy hdiscard hneg
        · exact ⟨[], rec :: todo, 0, rfl, rfl, ⟨hpos, hrest⟩, hstop.symm, by simp, rfl,
            fun _ _ _ => by simpa using hbusy⟩
        · refine ⟨[rec], todo, _, rfl, ⟨hpos, rfl⟩, hrest, rfl, by simpa using hbusy, by simp [hdiscard],
            fun _ _ hall => ?_⟩
          exact absurd (hall cnt) (not_le.mpr hneg)
        · obtain ⟨passed, rest, d, rfl, hpassed, hleft, hring, hfree, hout, hend⟩ := ih' (cnt + 1)
          rw [Nat.add_assoc] at hpassed hleft hring
          refine ⟨rec :: passed, rest, _, rfl, ⟨hpos, hpassed⟩, hleft, hring, ?_, ?_,
            fun hfuel => hend (by simpa using hfuel)⟩
          · exact List.forall_mem_cons.mpr ⟨not_not.mp hbusy, hfree⟩
          · rw [List.filter_cons_of_pos (by simpa using hdiscard)]
            exact congrArg (r.fetched rec :: ·) hout
        · obtain ⟨passed, rest, d, rfl, hpassed, hleft, hring, hfree, hout, hend⟩ := ih' cnt
          rw [Nat.add_assoc] at hpassed hleft hring
          refine ⟨rec :: passed, rest, _, rfl, ⟨hpos, hpassed⟩, hleft, hring, ?_, ?_,
            fun hfuel => hend (by simpa using hfuel)⟩
          · exact List.forall_mem_cons.mpr ⟨not_not.mp hbusy, hfree⟩
          · rw [List.filter_cons_of_neg (by simpa using hdiscard)]
            exact hout
    · rw [if_neg hlt]
      refine ⟨[], todo, 0, rfl, rfl, hlaid, hstop.symm, by simp, rfl, fun _ hword _ => ?_⟩
      -- the positions have not wrapped, so there is no record left
      have hle := hlaid.le
      have hlen := hlaid.length_le
      rw [hproducer, hconsumer, Nat.mod_eq_of_lt hword, Nat.mod_eq_of_lt (Nat.lt_of_le_of_lt hle hword)] at hlt
      simp [List.eq_nil_of_length_eq_zero (show todo.length = 0 by omega)]

/-- The cells of the ring that belong to a record, whichever half of the data area they lie in. -/
def Rec.Owns (n : Nat) (rec : Rec) (x : Nat) : Prop := ∃ d < Ring.totalSize rec.size, x % n = (rec.pos + d) % n

theorem not_owns_of_apart {n c x : Nat} {a b : Rec} (ha : c ≤ a.pos) (hab : a.pos + Ring.totalSize a.size ≤ b.pos)
    (hb : b.pos + Ring.totalSize b.size ≤ c + n) (hx : a.Owns n x) : ¬ b.Owns n x := by
  rintro ⟨e, he, hxe⟩
  obtain ⟨d, hd, hxd⟩ := hx
  have hmod : (b.pos + e - (a.pos + d)) % n = 0 := Nat.sub_mod_eq_zero_of_mod_eq (hxe.symm.trans hxd)
  rw [Nat.mod_eq_of_lt (by omega)] at hmod
  omega

/-- A reserved sample of a ring of `n` bytes is behind its header, modulo the ring. -/
structure Fits (n pos size sample : Nat) : Prop where
  size_lt : size < 2 ^ 30
  total_le : Ring.totalSize size ≤ n
  aligned : pos % 8 = 0
  ring_aligned : n % 8 = 0
  sample_eq : sample = (pos + HDR_SZ) % n

section Fits

variable {n p pos size sample : Nat}

theorem fits_of_reserve {r : Ring} {k : Nat} (hk : r.maxEnt = 2 ^ k) (hsmall : r.maxEnt < 2 ^ 31)
    (hproducer : r.producerPos = p % wordSize) (haligned : p % 8 = 0)
    (hres : r.reserve size fd = .ok (sample, ring)) : Fits r.maxEnt p size sample := by
  obtain ⟨hbits, htotal, -, rfl, -⟩ := reserve_ok hres
  have hbounds := (totalSize_bounds size).1
  refine ⟨size_lt hbits (by omega), htotal, haligned, ring_aligned hk htotal, ?_⟩
  rw [hproducer, masked_mod hk hsmall]

variable (h : Fits n pos size sample)
include h

theorem Fits.header_lt : pos % n < n := by
  have htotal := h.total_le
  have hbounds := (totalSize_bounds size).1
  unfold HDR_SZ at hbounds
  exact Nat.mod_lt _ (by omega)

theorem Fits.header_aligned : pos % n % 8 = 0 := by
  rw [Nat.mod_mod_of_dvd _ (Nat.dvd_of_mod_eq_zero h.ring_aligned)]
  exact h.aligned

/-- The sample lies behind its header, or it is at the start. -/
theorem Fits.sample_cases :
    (sample = pos % n + HDR_SZ ∧ pos % n + HDR_SZ < n) ∨ (sample = 0 ∧ pos % n + HDR_SZ = n) := by
  have hlt := h.header_lt
  have hmod := h.header_aligned
  have hring := h.ring_aligned
  have hsample : sample = (pos % n + HDR_SZ) % n := by rw [h.sample_eq, Nat.mod_add_mod]
  unfold HDR_SZ at *
  by_cases hend : pos % n + 8 = n
  · rw [hend, Nat.mod_self] at hsample
    exact .inr ⟨hsample, hend⟩
  · rw [Nat.mod_eq_of_lt (by omega)] at hsample
    exact .inl ⟨hsample, by omega⟩

/-- `submit` finds the header from the sample, also where the sample is behind the end. -/
theorem Fits.hdr_of_sample : (n + sample - HDR_SZ) % n = pos % n := by
  rcases h.sample_cases with ⟨rfl, -⟩ | ⟨rfl, hend⟩
  · rw [← Nat.add_assoc, Nat.add_sub_cancel, Nat.add_mod_left, Nat.mod_mod]
  · rw [show n + 0 - HDR_SZ = pos % n by omega, Nat.mod_mod]

end Fits

theorem owns_header (n : Nat) (rec : Rec) (hi : i < HDR_SZ) : rec.Owns n (rec.pos % n + i) := by
  have := (totalSize_bounds rec.size).1
  exact ⟨i, by omega, Nat.mod_add_mod _ _ _⟩

theorem Fits.owns_sample {n : Nat} {rec : Rec} (h : Fits n rec.pos rec.size rec.sample) (hi : i < rec.size) :
    rec.Owns n (rec.sample + i) := by
  have := (totalSize_bounds rec.size).1
  refine ⟨HDR_SZ + i, by omega, ?_⟩
  rw [h.sample_eq, Nat.mod_add_mod, Nat.add_assoc]

/-- The header and the content of a record are where the code looks for them. -/
structure Placed (r : Ring) (rec : Rec) : Prop where
  fits : Fits r.maxEnt rec.pos rec.size rec.sample
  header : ∃ fd ∈ r.fds, Holds r.raw (dataStart + rec.pos % r.maxEnt) (le 4 rec.len ++ le 4 fd.toNat)
  content : Holds r.raw (dataStart + rec.sample) rec.content
  content_length : rec.content.length = rec.size
  inside : rec.pos % r.maxEnt + HDR_SZ = r.maxEnt → rec.size = 0

section Placed

variable {r r' : Ring} {rec : Rec} (h : Placed r rec)
include h

/-- A change to cells of other records leaves a record where it is. -/
theorem Placed.frame (hmax : r'.maxEnt = r.maxEnt) (hfds : r'.fds = r.fds)
    (hraw : ∀ x, rec.Owns r.maxEnt x → r'.raw (dataStart + x) = r.raw (dataStart + x)) : Placed r' rec := by
  obtain ⟨fd, hfd, hheader⟩ := h.header
  refine ⟨hmax ▸ h.fits, ⟨fd, hfds ▸ hfd, ?_⟩, ?_, h.content_length, hmax ▸ h.inside⟩
  · rw [hmax]
    refine holds_congr _ _ _ _ (fun i hi => ?_) hheader
    rw [Nat.add_assoc]
    exact (hraw _ (owns_header _ _ (by simpa [HDR_SZ] using hi))).symm
  · refine holds_congr _ _ _ _ (fun i hi => ?_) h.content
    rw [Nat.add_assoc]
    exact (hraw _ (h.fits.owns_sample (h.content_length ▸ hi))).symm

theorem Placed.header_ne_sample {j : Nat} (hi : i < HDR_SZ) (hj : j < rec.size) :
    rec.pos % r.maxEnt + i ≠ rec.sample + j := by
  rcases h.fits.sample_cases with ⟨hs, -⟩ | ⟨-, hend⟩
  · omega
  · have hsize := h.inside hend
    omega

theorem Placed.read_len : r.headerLen rec = rec.len := by
  obtain ⟨fd, -, hheader⟩ := h.header
  have hlen := ((holds_append _ _ _ _).mp hheader).1
  rw [Ring.headerLen, Ring.read32, readLe_of_holds _ _ _ _ hlen]
  exact Nat.mod_eq_of_lt (len_lt h.fits.size_lt)

theorem Placed.fetched_eq (hs : rec.status = .submitted) : r.fetched rec = rec.content := by
  rw [Ring.fetched, h.read_len, Rec.len, hs]
  change slice r.raw _ rec.size = rec.content
  rw [← h.content_length]
  rcases h.fits.sample_cases with ⟨hsample, -⟩ | ⟨-, hend⟩
  · rw [← hsample]
    exact slice_of_holds _ _ _ h.content
  · rw [List.eq_nil_of_length_eq_zero (h.content_length.trans (h.inside hend))]
    rfl

end Placed

/-! ## The invariant -/

/-- The records of `done` were passed by the consumer, those of `todo` are in the ring. -/
structure Inv (s : State) (done todo : List Rec) : Prop where
  pow : ∃ k, s.ring.maxEnt = 2 ^ k
  small : s.ring.maxEnt < 2 ^ 31
  recs_eq : s.recs = done ++ todo
  laid : Laid s.ring.consumerPos todo s.ring.producerPos
  window : s.ring.producerPos ≤ s.ring.consumerPos + s.ring.maxEnt
  word : s.ring.producerPos < wordSize
  aligned : s.ring.producerPos % 8 = 0
  placed : ∀ rec ∈ todo, Placed s.ring rec
  below : ∀ a < dataStart, s.ring.raw a = 0
  done_status : ∀ rec ∈ done, rec.status ≠ .reserved
  delivered_eq : s.delivered = (done.filter (·.status = .submitted)).map (·.content)

theorem inv_initial {maxEntries : Nat} {fds : List UInt32} (h : mapInit maxEntries fds = some ring)
    (hsmall : maxEntries < 2 ^ 31) : Inv (initial ring) [] [] := by
  unfold mapInit at h
  split at h
  · next hpop =>
    cases h
    obtain ⟨k, hk⟩ := exists_pow_of_popCnt (by omega) hpop
    exact ⟨⟨k, hk⟩, hsmall, rfl, rfl, Nat.zero_le _, Nat.two_pow_pos 64, rfl, by simp, fun _ _ => rfl, by simp, rfl⟩
  · cases h

/-- A reserved record is in the ring, and replacing it touches nothing before it. -/
theorem Inv.split_at {s : State} {done todo : List Rec} (h : Inv s done todo) {rec : Rec} (hi : s.recs[i]? = some rec)
    (hres : rec.status = .reserved) :
    ∃ as bs, todo = as ++ rec :: bs ∧ ∀ rec', s.recs.set i rec' = done ++ (as ++ rec' :: bs) := by
  rw [h.recs_eq] at hi ⊢
  have hlen : done.length ≤ i := by
    by_contra hlt
    rw [List.getElem?_append_left (by omega)] at hi
    exact h.done_status rec (List.mem_of_getElem? hi) hres
  rw [List.getElem?_append_right hlen] at hi
  obtain ⟨hj, hget⟩ := List.getElem?_eq_some_iff.mp hi
  refine ⟨todo.take (i - done.length), todo.drop (i - done.length + 1), ?_, ?_⟩
  · rw [← hget, List.getElem_cons_drop, List.take_append_drop]
  · intro rec'
    rw [List.set_append_right _ _ hlen, List.set_eq_take_append_cons_drop, if_pos hj]

/-- A change to one record in the ring and to its own cells. -/
theorem Inv.replace {s : State} {done as bs : List Rec} {rec rec' : Rec} (h : Inv s done (as ++ rec :: bs))
    (raw : Nat → UInt8) (recs : List Rec) (hrecs : recs = done ++ (as ++ rec' :: bs))
    (hpos : rec'.pos = rec.pos) (hsize : rec'.size = rec.size)
    (hraw : ∀ a, raw a ≠ s.ring.raw a → ∃ x, a = dataStart + x ∧ rec.Owns s.ring.maxEnt x)
    (hplaced : Placed { s.ring with raw := raw } rec') :
    Inv { s with ring := { s.ring with raw := raw }, recs := recs } done (as ++ rec' :: bs) := by
  obtain ⟨m, hleft, hm, hright⟩ := tiles_append.mp h.laid
  dsimp only at hright
  have hrightle := hright.le
  have hcm := hleft.le
  have hkeep : ∀ other, (∀ x, other.Owns s.ring.maxEnt x → ¬ rec.Owns s.ring.maxEnt x) → Placed s.ring other →
      Placed { s.ring with raw := raw } other := by
    intro other hother hplaced
    refine hplaced.frame rfl rfl fun x hx => ?_
    by_contra hne
    obtain ⟨y, hy, howns⟩ := hraw _ hne
    obtain rfl : x = y := by omega
    exact hother x hx howns
  have hwindow := h.window
  refine { h with recs_eq := hrecs, laid := ?_, placed := ?_, below := ?_ }
  · exact tiles_append.mpr ⟨m, hleft, hpos.trans hm, by simpa only [hsize] using hright⟩
  · intro other hmem
    rcases List.mem_append.mp hmem with hmem | hmem
    · refine hkeep other (fun x hx => ?_) (h.placed other (List.mem_append_left _ hmem))
      have hb := hleft.within hmem
      exact not_owns_of_apart hb.1 (by omega) (by omega) hx
    · rcases List.mem_cons.mp hmem with rfl | hmem
      · exact hplaced
      · refine hkeep other (fun x hx howns => ?_) (h.placed other (by simp [hmem]))
        have hb := hright.within hmem
        exact not_owns_of_apart (c := s.ring.consumerPos) (by omega) (by omega) (by omega) howns hx
  · intro a ha
    by_contra hne
    have hold := h.below a ha
    obtain ⟨x, rfl, -⟩ := hraw a fun he => hne (he.trans hold)
    omega

section Steps

variable {s : State} {done todo : List Rec}

theorem Inv.reserve (h : Inv s done todo) {size sample : Nat} (hfd : fd ∈ s.ring.fds) (hok : Ok s (.reserve size fd))
    (hres : s.ring.reserve size fd = .ok (sample, ring)) :
    Inv { s with
          ring := ring
          recs := s.recs ++ [⟨s.ring.producerPos, size, sample, .reserved, slice ring.raw (dataStart + sample) size⟩] }
      done (todo ++ [⟨s.ring.producerPos, size, sample, .reserved, slice ring.raw (dataStart + sample) size⟩]) := by
  obtain ⟨hend, hword⟩ := hok
  obtain ⟨k, hk⟩ := h.pow
  have hle := h.laid.le
  obtain ⟨htotal, htotal8⟩ := totalSize_bounds size
  have hwindow := h.window
  have hsmall := h.small
  have hal := h.aligned
  have hroom := room_of_reserve hle hwindow hsmall (Nat.mod_eq_of_lt h.word).symm
    (Nat.mod_eq_of_lt (Nat.lt_of_le_of_lt hle h.word)).symm hres
  have hfits := fits_of_reserve hk hsmall (Nat.mod_eq_of_lt h.word).symm hal hres
  obtain ⟨-, -, -, rfl, rfl⟩ := reserve_ok hres
  simp only [masked_eq hk, Nat.mod_eq_of_lt hword] at hfits ⊢
  constructor
  · exact ⟨k, hk⟩
  · exact hsmall
  · rw [h.recs_eq, List.append_assoc]
  · exact tiles_append.mpr ⟨_, h.laid, rfl, rfl⟩
  · exact hroom
  · exact hword
  · change (s.ring.producerPos + Ring.totalSize size) % 8 = 0
    omega
  · intro rec hrec
    rcases List.mem_append.mp hrec with hrec | hrec
    · -- the new header lies in cells that no record in the ring owns
      have hb := h.laid.within hrec
      refine (h.placed rec hrec).frame rfl rfl fun x hx => write_of_ne _ _ _ _ fun i hi he => ?_
      have hnew := owns_header s.ring.maxEnt ⟨s.ring.producerPos, size, 0, .reserved, []⟩ hi
      rw [Nat.add_assoc] at he
      obtain rfl := Nat.add_left_cancel he
      exact not_owns_of_apart hb.1 hb.2 hroom hx hnew
    · obtain rfl := List.mem_singleton.mp hrec
      exact ⟨hfits, ⟨fd, hfd, holds_write_self _ _ _⟩, holds_slice _ _ _, length_slice _ _ _, hend⟩
  · intro a ha
    change write s.ring.raw _ _ a = 0
    rw [write_of_ne _ _ _ _ fun i _ => by omega]
    exact h.below a ha
  · exact h.done_status
  · exact h.delivered_eq

theorem Inv.write (h : Inv s done todo) {offset : Nat} {byte : UInt8} {rec : Rec} (hi : s.recs[i]? = some rec)
    (hres : rec.status = .reserved) (hoff : offset < rec.size) :
    ∃ todo', Inv { s with
          ring := { s.ring with raw := Bytes.write s.ring.raw (dataStart + (rec.sample + offset)) [byte] }
          recs := s.recs.set i { rec with content := rec.content.set offset byte } } done todo' := by
  obtain ⟨as, bs, rfl, hset⟩ := h.split_at hi hres
  have hrec := h.placed rec (by simp)
  refine ⟨_, h.replace _ _ (hset _) rfl rfl ?_ ?_⟩
  · intro a hne
    refine ⟨rec.sample + offset, ?_, hrec.fits.owns_sample hoff⟩
    by_contra hother
    exact hne (write_of_ne _ _ _ _ (by simpa using hother))
  · obtain ⟨fd, hfd, hheader⟩ := hrec.header
    refine ⟨hrec.fits, ⟨fd, hfd, ?_⟩, ?_, ?_, hrec.inside⟩
    · refine holds_write_of_disjoint _ _ _ _ _ hheader fun j hj l hl he => ?_
      have hj' : j < HDR_SZ := by simpa [HDR_SZ] using hj
      have hl' : l = 0 := by simpa using hl
      exact hrec.header_ne_sample hj' hoff (by simp only [hl'] at he; omega)
    · rw [← Nat.add_assoc]
      exact holds_write_set _ _ _ _ _ hrec.content
    · simpa using hrec.content_length

theorem newLen_eq {rec : Rec} (hsize : rec.size < 2 ^ 30) (hres : rec.status = .reserved) (discard : Bool) :
    (if discard then rec.len &&& (2 ^ 32 - 1 - BUSY_BIT) ||| DISCARD_BIT else rec.len &&& (2 ^ 32 - 1 - BUSY_BIT)) =
      Rec.len { rec with status := if discard then .discarded else .submitted } := by
  have hclear : rec.len &&& (2 ^ 32 - 1 - BUSY_BIT) = rec.size := by
    rw [Rec.len, hres]
    change (rec.size ||| 2 ^ 31) &&& (2 ^ 31 - 1) = rec.size
    rw [or_pow_of_lt (by omega), Nat.and_two_pow_sub_one_eq_mod]
    omega
  rw [hclear]
  cases discard <;> rfl

section

variable (h : Inv s done todo)
include h

theorem Inv.submit {rec : Rec} (hi : s.recs[i]? = some rec) (hres : rec.status = .reserved) (discard : Bool) :
    ∃ todo', Inv { s with
          ring := s.ring.submit rec.sample discard
          recs := s.recs.set i { rec with status := if discard then .discarded else .submitted } } done todo' := by
  obtain ⟨as, bs, rfl, hset⟩ := h.split_at hi hres
  have hrec := h.placed rec (by simp)
  obtain ⟨k, hk⟩ := h.pow
  have hraw : s.ring.submit rec.sample discard =
      { s.ring with
        raw := Bytes.write s.ring.raw (dataStart + rec.pos % s.ring.maxEnt)
          (le 4 (Rec.len { rec with status := if discard then .discarded else .submitted })) } := by
    rw [← newLen_eq hrec.fits.size_lt hres]
    have hlen : s.ring.read32 (rec.pos % s.ring.maxEnt) = rec.len := hrec.read_len
    simp only [Ring.submit, masked_eq hk, hrec.fits.hdr_of_sample, hlen]
  rw [hraw]
  refine ⟨_, h.replace _ _ (hset _) rfl rfl ?_ ?_⟩
  · intro a hne
    by_contra hother
    refine hne (write_of_ne _ _ _ _ fun j hj he => hother ⟨rec.pos % s.ring.maxEnt + j, by omega, owns_header _ _ ?_⟩)
    rw [length_le] at hj
    unfold HDR_SZ
    omega
  · obtain ⟨fd, hfd, hheader⟩ := hrec.header
    refine ⟨hrec.fits, ⟨fd, hfd, ?_⟩, ?_, hrec.content_length, hrec.inside⟩
    · refine (holds_append _ _ _ _).mpr ⟨holds_write_self _ _ _, ?_⟩
      have hfdbytes := ((holds_append _ _ _ _).mp hheader).2
      simp only [length_le] at hfdbytes ⊢
      refine holds_write_of_disjoint _ _ _ _ _ hfdbytes fun j hj l hl he => ?_
      rw [length_le] at hl
      omega
    · refine holds_write_of_disjoint _ _ _ _ _ hrec.content fun j hj l hl he => ?_
      rw [length_le] at hl
      have hl' : l < HDR_SZ := by unfold HDR_SZ; omega
      have he' : dataStart + rec.sample + j = dataStart + rec.pos % s.ring.maxEnt + l := he
      exact hrec.header_ne_sample hl' (hrec.content_length ▸ hj) (by omega)

/-- The helpers read the descriptor of the header, or zero from before the data area. -/
theorem Inv.submitHelper_eq {rec : Rec} (hi : s.recs[i]? = some rec) (hres : rec.status = .reserved) (discard : Bool)
    (hok : Ok s (.commit i discard true)) :
    s.ring.submitHelper rec.sample discard = s.ring.submit rec.sample discard := by
  obtain ⟨as, bs, rfl, -⟩ := h.split_at hi hres
  have hrec := h.placed rec (by simp)
  refine if_pos ?_
  rcases hrec.fits.sample_cases with ⟨hs, -⟩ | ⟨hs, hend⟩
  · obtain ⟨fd, hfd, hheader⟩ := hrec.header
    have hfdbytes := ((holds_append _ _ _ _).mp hheader).2
    rw [length_le] at hfdbytes
    have haddr : dataStart + rec.sample - 4 = dataStart + rec.pos % s.ring.maxEnt + 4 := by
      rw [hs]
      unfold HDR_SZ
      omega
    rw [haddr, readU32_of_holds _ _ _ hfdbytes]
    exact hfd
  · have hzero : readLe s.ring.raw (dataStart + rec.sample - 4) 4 = 0 := by
      have hbelow : ∀ a < 8192, s.ring.raw a = 0 := h.below
      rw [hs]
      simp [readLe, dataStart, pageSize, hbelow]
    rw [hzero]
    exact hok rfl rec hi hend

theorem Inv.fetch (answers : Nat → Int) :
    ∃ passed rest, todo = passed ++ rest ∧
      Inv { s with
            ring := (s.ring.fetchData answers).2.2
            delivered := s.delivered ++ (s.ring.fetchData answers).1 } (done ++ passed) rest ∧
      ((∀ n, 0 ≤ answers n) → rest.takeWhile (·.status ≠ .reserved) = []) := by
  obtain ⟨k, hk⟩ := h.pow
  have hword := Nat.lt_of_le_of_lt h.laid.le h.word
  have hwindow := h.window
  have hlen : ∀ rec ∈ todo, s.ring.headerLen rec = rec.len := fun rec hrec => (h.placed rec hrec).read_len
  have hlength : ∀ rec ∈ todo, s.ring.headerLen rec % 2 ^ 30 = rec.size := by
    intro rec hrec
    rw [hlen rec hrec, len_mod (h.placed rec hrec).fits.size_lt]
  obtain ⟨passed, rest, d, rfl, -, hlaid, hring, hfree, hout, hend⟩ := fetchLoop_spec answers hk h.small
    (Nat.mod_eq_of_lt h.word).symm (Nat.mod_eq_of_lt hword).symm h.laid hlength
    (s.ring.producerPos - s.ring.consumerPos) 0
  have hplaced : ∀ rec ∈ passed, Placed s.ring rec := fun rec hrec => h.placed rec (by simp [hrec])
  have hst : ∀ rec ∈ passed, rec.status ≠ .reserved := by
    intro rec hrec
    have hbusy := hfree rec hrec
    rw [hlen rec (by simp [hrec])] at hbusy
    exact (busy_iff (hplaced rec hrec).fits.size_lt).mp hbusy
  have hsubmitted : passed.filter (s.ring.headerLen · &&& DISCARD_BIT = 0) = passed.filter (·.status = .submitted) := by
    refine List.filter_congr fun rec hrec => decide_eq_decide.mpr ?_
    rw [hlen rec (by simp [hrec])]
    exact discard_iff (hplaced rec hrec).fits.size_lt (hst rec hrec)
  have hout' : (s.ring.fetchData answers).1 = (passed.filter (·.status = .submitted)).map (·.content) := by
    refine (hout.trans (congrArg _ hsubmitted)).trans (List.map_congr_left fun rec hrec => ?_)
    obtain ⟨hrec, hsub⟩ := List.mem_filter.mp hrec
    exact (hplaced rec hrec).fetched_eq (by simpa using hsub)
  have hring' : (s.ring.fetchData answers).2.2 = { s.ring with consumerPos := s.ring.consumerPos + d } :=
    hring.trans (by rw [Nat.mod_eq_of_lt (Nat.lt_of_le_of_lt hlaid.le h.word)])
  rw [hring', hout']
  refine ⟨passed, rest, rfl, ?_, fun hall => ?_⟩
  swap
  · cases rest with
    | nil => rfl
    | cons rec rest =>
      have hbusy := hend h.laid.length_le h.word hall rec rfl
      rw [hlen rec (by simp)] at hbusy
      simp [not_not.mp (mt (busy_iff (h.placed rec (by simp)).fits.size_lt).mpr hbusy)]
  constructor
  · exact h.pow
  · exact h.small
  · rw [h.recs_eq, List.append_assoc]
  · exact hlaid
  · change s.ring.producerPos ≤ s.ring.consumerPos + d + s.ring.maxEnt
    omega
  · exact h.word
  · exact h.aligned
  · intro rec hrec
    exact (h.placed rec (by simp [hrec])).frame rfl rfl fun _ _ => rfl
  · exact h.below
  · intro rec hrec
    rcases List.mem_append.mp hrec with hrec | hrec
    · exact h.done_status rec hrec
    · exact hst rec hrec
  · rw [h.delivered_eq, List.filter_append, List.map_append]

theorem Inv.step {a : Action} {s' : State} (hok : Ok s a) (hstep : step s a = some s') :
    ∃ done' todo', Inv s' done' todo' := by
  cases a with
  | reserve size fd =>
    simp only [Ringbuf.step] at hstep
    split_ifs at hstep with hfd
    split at hstep
    · cases hstep
      exact ⟨_, _, h⟩
    · next hres =>
      cases hstep
      exact ⟨_, _, h.reserve hfd hok hres⟩
  | write i offset byte =>
    simp only [Ringbuf.step] at hstep
    split at hstep
    · cases hstep
    · next hi =>
      split_ifs at hstep with hcond
      cases hstep
      exact ⟨_, h.write hi hcond.1 hcond.2⟩
  | commit i discard helper =>
    simp only [Ringbuf.step] at hstep
    split at hstep
    · cases hstep
    · next rec hi =>
      by_cases hres : rec.status = .reserved
      · rw [if_pos hres] at hstep
        cases hstep
        refine ⟨done, ?_⟩
        cases helper with
        | false => exact h.submit hi hres discard
        | true =>
          rw [if_pos rfl, h.submitHelper_eq hi hres discard hok]
          exact h.submit hi hres discard
      · rw [if_neg hres] at hstep
        cases hstep
  | fetch answers =>
    cases hstep
    obtain ⟨passed, rest, -, hinv, -⟩ := h.fetch answers
    exact ⟨_, _, hinv⟩

theorem Inv.owed_eq :
    owed s.recs =
      s.delivered ++ ((todo.takeWhile (·.status ≠ .reserved)).filter (·.status = .submitted)).map (·.content) := by
  have htake : (done ++ todo).takeWhile (·.status ≠ .reserved) = done ++ todo.takeWhile (·.status ≠ .reserved) :=
    List.takeWhile_append_of_pos fun rec hrec => by simpa using h.done_status rec hrec
  rw [owed, h.recs_eq, htake, h.delivered_eq, List.filter_append, List.map_append]

end

end Steps

/-- In every run that keeps to the conditions the callback has received the oldest of
the samples it is owed, with the bytes of their producers, and all of them after a
fetch in which it does not fail. -/
theorem fetch_delivers_owed (maxEntries : Nat) (fds : List UInt32) (ring : Ring)
    (hinit : mapInit maxEntries fds = some ring) (hsmall : maxEntries < 2 ^ 31) (s : State)
    (h : Reaches step Ok (initial ring) s) :
    s.delivered <+: owed s.recs ∧
      ∀ answers s', (∀ n, 0 ≤ answers n) → step s (.fetch answers) = some s' → s'.delivered = owed s'.recs := by
  have hinv : ∃ done todo, Inv s done todo := by
    refine h.invariant (fun s => ∃ done todo, Inv s done todo) ⟨[], [], inv_initial hinit hsmall⟩ ?_
    rintro t a u ⟨done, todo, ht⟩ hok hstep
    exact ht.step hok hstep
  obtain ⟨done, todo, hinv⟩ := hinv
  constructor
  · rw [hinv.owed_eq]
    exact List.prefix_append _ _
  · intro answers s' hall hstep
    cases hstep
    obtain ⟨passed, rest, -, hinv', hdrain⟩ := hinv.fetch answers
    rw [hinv'.owed_eq, hdrain hall]
    simp

/-- A sample that is written, submitted by the helper and fetched. -/
theorem fetch_delivers_owed_of_one_sample :
    ∃ ring s, mapInit 64 [5] = some ring ∧ Reaches step Ok (initial ring) s ∧ s.delivered = [[7]] ∧
      s.delivered <+: owed s.recs := by
  have h : (run step Ok (initial ⟨64, [5], 0, 0, fun _ => 0⟩)
      [.reserve 1 5, .write 0 0 7, .commit 0 false true, .fetch fun _ => 0]).map (·.delivered) = some [[7]] := by
    decide +kernel
  obtain ⟨s, hs, hdelivered⟩ := Option.map_eq_some_iff.mp h
  have hreach := reaches_of_run _ hs
  exact ⟨_, s, rfl, hreach, hdelivered, (fetch_delivers_owed 64 [5] _ rfl (by decide) s hreach).1⟩

/-- A sample behind a header in the last eight bytes is fetched from elsewhere. -/
theorem header_at_end_delivers_other_bytes :
    ∃ ring s, mapInit 16 [5] = some ring ∧ Reaches step (fun _ _ => True) (initial ring) s ∧
      s.delivered = [[], [0]] ∧ owed s.recs = [[], [7]] := by
  have h : (run step (fun _ _ => True) (initial ⟨16, [5], 0, 0, fun _ => 0⟩)
      [.reserve 0 5, .commit 0 false true, .fetch fun _ => 0, .reserve 1 5, .write 1 0 7, .commit 1 false false,
        .fetch fun _ => 0]).map (fun s => (s.delivered, owed s.recs)) = some ([[], [0]], [[], [7]]) := by
    decide +kernel
  obtain ⟨s, hs, hobs⟩ := Option.map_eq_some_iff.mp h
  obtain ⟨hdelivered, howed⟩ := Prod.mk.inj hobs
  exact ⟨_, s, rfl, reaches_of_run _ hs, hdelivered, howed⟩

end Ringbuf
