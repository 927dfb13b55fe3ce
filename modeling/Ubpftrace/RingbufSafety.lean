import Ubpftrace.Ringbuf

/-!
# What ring buffer records occupy

For runs in which a sample may be submitted or discarded any number of times, also long
after it was consumed: such a call changes no more than the two flags of a length. So the
consumer always finds the lengths that were reserved, and the records it has not passed
lie in one revolution of the ring. The positions may wrap; the state counts the bytes
reserved and consumed since the start beside them.

The raw buffer has `getpagesize() * 2 + max_ent * 2` bytes, computed in 32 bits: for
`max_ent = 2³¹` nothing is left for the data.
-/

namespace RingbufSafety

open Bytes Ringbuf
open Runs (Reaches)
open Ringbuf.Ring (totalSize)

def rawSize (maxEnt : Nat) : Nat := (pageSize * 2 + maxEnt * 2) % 2 ^ 32

/-- A reservation: how many bytes were reserved before it, and the offsets in the data
area of its header and of the sample its producer was given. -/
structure Record where
  start : Nat
  size : Nat
  header : Nat
  sample : Nat
  deriving DecidableEq

namespace Record

/-- The bytes of the header and of the sample, where the producer writes it and where the
consumer looks for it. -/
def Covers (rec : Record) (x : Nat) : Prop :=
  (rec.header ≤ x ∧ x < rec.header + totalSize rec.size) ∨ (rec.sample ≤ x ∧ x < rec.sample + rec.size)

/-- The bytes of the endless sequence of positions. -/
def extent (rec : Record) : Rec := ⟨rec.start, rec.size, rec.sample, .reserved, []⟩

end Record

structure State where
  ring : Ring
  produced : Nat
  consumed : Nat
  records : List Record

namespace State

def initial (ring : Ring) : State := ⟨ring, 0, 0, []⟩

/-- The records that the consumer has not passed. -/
def pending (s : State) : List Record := s.records.filter (s.consumed ≤ ·.start)

/-- The counts follow the positions. -/
def advance (s : State) (ring : Ring) : State :=
  { s with
    ring := ring
    produced := s.produced + (ring.producerPos + wordSize - s.ring.producerPos) % wordSize
    consumed := s.consumed + (ring.consumerPos + wordSize - s.ring.consumerPos) % wordSize }

def record (s : State) (size sample : Nat) : Record := ⟨s.produced, size, s.ring.masked s.ring.producerPos, sample⟩

end State

/-- Any sample that was ever returned can be submitted or discarded, by its offset or through
the helpers, and a sample can be written until it is consumed. -/
def step (s : State) : Action → Option State
  | .reserve size fd =>
    match s.ring.reserve size fd with
    | .error _ => some s
    | .ok (sample, ring) => some { s.advance ring with records := s.records ++ [s.record size sample] }
  | .write i offset byte =>
    match s.records[i]? with
    | none => none
    | some rec =>
      if s.consumed ≤ rec.start ∧ offset < rec.size then
        some (s.advance { s.ring with raw := write s.ring.raw (dataStart + (rec.sample + offset)) [byte] })
      else none
  | .commit i discard helper =>
    match s.records[i]? with
    | none => none
    | some rec =>
      some (s.advance (if helper then s.ring.submitHelper rec.sample discard else s.ring.submit rec.sample discard))
  | .fetch answers => some (s.advance (s.ring.fetchData answers).2.2)

/-- The state has what the ring buffer promises, and so has the next reservation. -/
structure Safe (s : State) : Prop where
  distance : (s.ring.producerPos + wordSize - s.ring.consumerPos) % wordSize ≤ s.ring.maxEnt
  disjoint : s.pending.Pairwise fun a b => ∀ x, a.Covers x → ¬ b.Covers x
  inside : ∀ rec ∈ s.pending, ∀ x, rec.Covers x → dataStart + x < rawSize s.ring.maxEnt
  reserve : ∀ size fd sample ring, s.ring.reserve size fd = .ok (sample, ring) →
    ∀ rec ∈ s.pending, ∀ x, (s.record size sample).Covers x → ¬ rec.Covers x

/-! ## Lengths -/

theorem submit_length (len : Nat) (discard : Bool) :
    (if discard then len &&& (2 ^ 32 - 1 - BUSY_BIT) ||| DISCARD_BIT else len &&& (2 ^ 32 - 1 - BUSY_BIT)) % 2 ^ 30 =
      len % 2 ^ 30 := by
  have hclear : len &&& (2 ^ 32 - 1 - BUSY_BIT) = len % 2 ^ 31 := Nat.and_two_pow_sub_one_eq_mod len 31
  rw [hclear]
  cases discard
  · change len % 2 ^ 31 % 2 ^ 30 = len % 2 ^ 30
    omega
  · change (len % 2 ^ 31 ||| 2 ^ 30) % 2 ^ 30 = len % 2 ^ 30
    rw [Nat.or_mod_two_pow]
    simp only [Nat.mod_self, Nat.or_zero]
    omega

/-! ## Positions -/

theorem mod_ne_of_lt {u v n : Nat} (huv : u < v) (hvu : v < u + n) : u % n ≠ v % n := by
  intro h
  have hzero : (v - u) % n = 0 := Nat.sub_mod_eq_zero_of_mod_eq h.symm
  rw [Nat.mod_eq_of_lt (by omega)] at hzero
  omega

theorem Laid.eq_or_apart {p q : Nat} {recs : List Rec} (h : Laid p recs q) {a b : Rec} (ha : a ∈ recs)
    (hb : b ∈ recs) : a = b ∨ a.pos + totalSize a.size ≤ b.pos ∨ b.pos + totalSize b.size ≤ a.pos := by
  have hpair := h.pairwise
  refine List.Pairwise.forall_of_forall_of_flip 
    (R := fun a b => a = b ∨ a.pos + totalSize a.size ≤ b.pos ∨ b.pos + totalSize b.size ≤ a.pos) ?_ ?_ ?_ ha hb
  · exact fun _ _ => .inl rfl
  · exact hpair.imp fun hab => .inr (.inl hab)
  · exact hpair.imp fun hab => .inr (.inr hab)

/-- The offsets of a record are those of its position, and it fits in the ring. -/
structure Placed (maxEnt : Nat) (rec : Record) : Prop where
  header_eq : rec.header = rec.start % maxEnt
  fits : Fits maxEnt rec.start rec.size rec.sample

section Placed

variable {n : Nat} {rec : Record} (h : Placed n rec)
include h

omit h in
theorem covers_header (rec : Record) {i : Nat} (hi : i < HDR_SZ) : rec.Covers (rec.header + i) := by
  have := (totalSize_bounds rec.size).1
  exact .inl ⟨by omega, by omega⟩

theorem Placed.owns {x : Nat} (hx : rec.Covers x) : rec.extent.Owns n x := by
  rcases hx with ⟨hle, hlt⟩ | ⟨hle, hlt⟩ <;> obtain ⟨d, rfl⟩ := Nat.exists_eq_add_of_le hle
  · refine ⟨d, Nat.lt_of_add_lt_add_left hlt, ?_⟩
    rw [h.header_eq, Nat.mod_add_mod]
    rfl
  · exact @Fits.owns_sample _ n rec.extent h.fits (Nat.lt_of_add_lt_add_left hlt)

theorem Placed.lt_of_covers {x : Nat} (hx : rec.Covers x) : x < 2 * n := by
  have hheader : rec.header < n := h.header_eq ▸ h.fits.header_lt
  have hsample := h.fits.sample_cases
  have htotal := (totalSize_bounds rec.size).1
  have hfits := h.fits.total_le
  rcases hx with hx | hx <;> omega

end Placed

/-! ## The invariant -/

/-- The records of `done` were passed by the consumer, those of `todo` are in the ring. -/
structure Inv (s : State) (done todo : List Record) : Prop where
  pow : ∃ k, s.ring.maxEnt = 2 ^ k
  small : s.ring.maxEnt < 2 ^ 31
  producer : s.ring.producerPos = s.produced % wordSize
  consumer : s.ring.consumerPos = s.consumed % wordSize
  window : s.produced ≤ s.consumed + s.ring.maxEnt
  aligned : s.produced % 8 = 0
  records_eq : s.records = done ++ todo
  passed : ∀ rec ∈ done, rec.start < s.consumed
  laid : Laid s.consumed (todo.map Record.extent) s.produced
  placed : ∀ rec ∈ s.records, Placed s.ring.maxEnt rec
  length : ∀ rec ∈ todo, s.ring.read32 rec.header % 2 ^ 30 = rec.size

section Inv

variable {s : State} {done todo : List Record}

variable {ring : Ring}

theorem inv_initial {maxEntries : Nat} {fds : List UInt32} (h : mapInit maxEntries fds = some ring)
    (hsmall : maxEntries < 2 ^ 31) : Inv (.initial ring) [] [] := by
  unfold mapInit at h
  split_ifs at h with hpop
  cases h
  obtain ⟨k, hk⟩ := exists_pow_of_popCnt (by omega) hpop
  exact ⟨⟨k, hk⟩, hsmall, rfl, rfl, Nat.zero_le _, rfl, rfl, by simp, rfl, by simp [State.initial], by simp⟩

theorem Inv.le (h : Inv s done todo) : s.consumed ≤ s.produced := h.laid.le

variable {rec : Record}

section

variable (h : Inv s done todo)
include h

theorem Inv.bounds (hrec : rec ∈ todo) :
    s.consumed ≤ rec.start ∧ rec.start + totalSize rec.size ≤ s.produced :=
  h.laid.within (List.mem_map_of_mem hrec)

theorem Inv.placed_todo (hrec : rec ∈ todo) : Placed s.ring.maxEnt rec :=
  h.placed rec (by rw [h.records_eq]; exact List.mem_append_right _ hrec)

theorem Inv.pending_eq : s.pending = todo := by
  rw [State.pending, h.records_eq, List.filter_append, List.filter_eq_nil_iff.mpr, List.filter_eq_self.mpr,
    List.nil_append]
  · intro rec hrec
    simpa using (h.bounds hrec).1
  · intro rec hrec
    simpa using h.passed rec hrec

theorem Inv.distance : (s.ring.producerPos + wordSize - s.ring.consumerPos) % wordSize = s.produced - s.consumed := by
  have hwindow := h.window
  have hsmall := h.small
  rw [h.producer, h.consumer]
  exact distance_eq h.le (by unfold wordSize; omega)

end

/-! ## Reservations -/

variable {size sample : Nat} {fd : UInt32}

section

variable (h : Inv s done todo) (hres : s.ring.reserve size fd = .ok (sample, ring))
include h hres

theorem Inv.room :
    s.produced + totalSize size ≤ s.consumed + s.ring.maxEnt :=
  room_of_reserve h.le h.window h.small h.producer h.consumer hres

theorem Inv.placed_record : Placed s.ring.maxEnt (s.record size sample) := by
  obtain ⟨k, hk⟩ := h.pow
  refine ⟨?_, fits_of_reserve hk h.small h.producer h.aligned hres⟩
  change s.ring.masked s.ring.producerPos = s.produced % s.ring.maxEnt
  rw [h.producer]
  exact masked_mod hk h.small s.produced 0

theorem Inv.not_owns_record (hrec : rec ∈ todo) {x : Nat} (hx : rec.extent.Owns s.ring.maxEnt x) :
    ¬ (s.record size sample).extent.Owns s.ring.maxEnt x :=
  not_owns_of_apart (h.bounds hrec).1 (h.bounds hrec).2 (h.room hres) hx

end

theorem rawSize_eq {n k : Nat} (hk : n = 2 ^ k) (hsmall : n < 2 ^ 31) : rawSize n = dataStart + 2 * n := by
  have hle : n ≤ 2 ^ 30 := by
    rw [hk] at hsmall ⊢
    exact Nat.pow_le_pow_right (by omega) (Nat.le_of_lt_succ ((Nat.pow_lt_pow_iff_right (by omega)).mp hsmall))
  unfold rawSize dataStart pageSize
  omega

theorem Inv.safe (h : Inv s done todo) : Safe s := by
  obtain ⟨k, hk⟩ := h.pow
  have hwindow := h.window
  constructor
  · rw [h.distance]
    omega
  · rw [h.pending_eq]
    have hapart := List.pairwise_map.mp h.laid.pairwise
    refine hapart.imp_of_mem fun ha hb hab x hx hx' => ?_
    have hend := (h.bounds hb).2
    exact not_owns_of_apart (h.bounds ha).1 hab (Nat.le_trans hend hwindow) ((h.placed_todo ha).owns hx)
      ((h.placed_todo hb).owns hx')
  · intro rec hrec x hx
    rw [h.pending_eq] at hrec
    have := (h.placed_todo hrec).lt_of_covers hx
    rw [rawSize_eq hk h.small]
    omega
  · intro size fd sample ring hres rec hrec x hx hx'
    rw [h.pending_eq] at hrec
    exact h.not_owns_record hres hrec ((h.placed_todo hrec).owns hx') ((h.placed_record hres).owns hx)

/-! ## Steps -/

theorem Inv.advance_eq (h : Inv s done todo) (ring : Ring) {p c : Nat}
    (hp : ring.producerPos = (s.produced + p) % wordSize)
    (hc : ring.consumerPos = (s.consumed + c) % wordSize) (hpw : p < wordSize) (hcw : c < wordSize) :
    s.advance ring = { s with ring := ring, produced := s.produced + p, consumed := s.consumed + c } := by
  have hproduced := distance_eq (Nat.le_add_right s.produced p) (by omega)
  have hconsumed := distance_eq (Nat.le_add_right s.consumed c) (by omega)
  rw [State.advance, hp, hc, h.producer, h.consumer, hproduced, hconsumed, Nat.add_sub_cancel_left,
    Nat.add_sub_cancel_left]

theorem read32_write_of_ne (r : Ring) (x a : Nat) (bs : List UInt8) (h : ∀ i < 4, ∀ j < bs.length, x + i ≠ a + j) :
    Ring.read32 { r with raw := write r.raw (dataStart + a) bs } x = r.read32 x := by
  refine readLe_congr 4 fun i hi => write_of_ne _ _ _ _ fun j hj he => h i hi j hj ?_
  omega

section

variable (h : Inv s done todo)
include h

theorem Inv.raw (raw : Nat → UInt8)
    (hlength : ∀ rec ∈ todo, Ring.read32 { s.ring with raw := raw } rec.header % 2 ^ 30 = rec.size) :
    Inv (s.advance { s.ring with raw := raw }) done todo := by
  have hadvance : s.advance { s.ring with raw := raw } = { s with ring := { s.ring with raw := raw } } :=
    h.advance_eq _ (p := 0) (c := 0) h.producer h.consumer (Nat.two_pow_pos 64) (Nat.two_pow_pos 64)
  rw [hadvance]
  exact { h with length := hlength }

theorem Inv.write (hrec : rec ∈ todo) {offset : Nat} (hoffset : offset < rec.size) (byte : UInt8) :
    Inv (s.advance { s.ring with raw := write s.ring.raw (dataStart + (rec.sample + offset)) [byte] }) done todo := by
  have hplaced := h.placed_todo hrec
  have htotal := (totalSize_bounds rec.size).1
  have hfits := hplaced.fits.total_le
  have howns : rec.extent.Owns s.ring.maxEnt (rec.sample + offset) := hplaced.owns (.inr ⟨by omega, by omega⟩)
  refine h.raw _ fun other hother => ?_
  rw [read32_write_of_ne, h.length other hother]
  intro i hi j hj he
  obtain rfl : j = 0 := by simpa using hj
  have hheader := (h.placed_todo hother).owns (covers_header other (i := i) (by unfold HDR_SZ; omega))
  rw [he, Nat.add_zero] at hheader
  have hend := (h.bounds hrec).2
  have hend' := (h.bounds hother).2
  have hwindow := h.window
  rcases Laid.eq_or_apart h.laid (List.mem_map_of_mem hrec) (List.mem_map_of_mem hother) with heq | hapart | hapart
  · -- the header of the record itself
    have hstart : rec.start = other.start := congrArg Rec.pos heq
    have hmod : (rec.start + i) % s.ring.maxEnt = (rec.start + (HDR_SZ + offset)) % s.ring.maxEnt := by
      rw [hstart, ← Nat.mod_add_mod, ← (h.placed_todo hother).header_eq, he, hplaced.fits.sample_eq, hstart,
        Nat.add_zero, Nat.mod_add_mod, Nat.add_assoc]
    unfold HDR_SZ at *
    exact mod_ne_of_lt (by omega) (by omega) hmod
  · exact not_owns_of_apart (h.bounds hrec).1 hapart (Nat.le_trans hend' hwindow) howns hheader
  · exact not_owns_of_apart (h.bounds hother).1 hapart (Nat.le_trans hend hwindow) hheader howns

theorem Inv.submit (hrec : rec ∈ s.records) (discard : Bool) :
    Inv (s.advance (s.ring.submit rec.sample discard)) done todo := by
  obtain ⟨k, hk⟩ := h.pow
  have hplaced := h.placed rec hrec
  have hhdr : s.ring.masked (s.ring.maxEnt + rec.sample - HDR_SZ) = rec.header := by
    rw [masked_eq hk, hplaced.fits.hdr_of_sample, hplaced.header_eq]
  rw [Ring.submit]
  simp only [hhdr]
  refine h.raw _ fun other hother => ?_
  by_cases hsame : other.header = rec.header
  · rw [hsame, Ring.read32, readLe_of_holds _ _ _ _ (holds_write_self _ _ _), show 256 ^ 4 = 2 ^ 32 by decide,
      Nat.mod_mod_of_dvd _ (by decide), submit_length, ← hsame]
    exact h.length other hother
  · rw [read32_write_of_ne, h.length other hother]
    intro i hi j hj he
    rw [length_le] at hj
    have haligned := hplaced.header_eq ▸ hplaced.fits.header_aligned
    have haligned' := (h.placed_todo hother).header_eq ▸ (h.placed_todo hother).fits.header_aligned
    omega

theorem Inv.reserve (hres : s.ring.reserve size fd = .ok (sample, ring)) :
    Inv { s.advance ring with records := s.records ++ [s.record size sample] } done
      (todo ++ [s.record size sample]) := by
  have hroom := h.room hres
  have hplaced := h.placed_record hres
  have hsmall := h.small
  have htotal : totalSize size ≤ s.ring.maxEnt := hplaced.fits.total_le
  have hdisjoint : ∀ rec ∈ todo, ∀ {x}, rec.extent.Owns s.ring.maxEnt x →
      ¬ (s.record size sample).extent.Owns s.ring.maxEnt x := fun rec hrec x => h.not_owns_record hres hrec
  obtain ⟨-, -, -, -, hring⟩ := reserve_ok hres
  have hproducer : ring.producerPos = (s.produced + totalSize size) % wordSize := by
    rw [hring, h.producer, Nat.mod_add_mod]
  have hconsumer : ring.consumerPos = (s.consumed + 0) % wordSize := by
    rw [hring, h.consumer, Nat.add_zero]
  rw [h.advance_eq ring hproducer hconsumer (by unfold wordSize; omega) (Nat.two_pow_pos 64)]
  subst hring
  constructor
  · exact h.pow
  · exact hsmall
  · exact hproducer
  · exact hconsumer
  · exact hroom
  · change (s.produced + totalSize size) % 8 = 0
    have haligned := h.aligned
    have := (totalSize_bounds size).2
    omega
  · rw [h.records_eq, List.append_assoc]
  · exact h.passed
  · rw [List.map_append]
    exact tiles_append.mpr ⟨_, h.laid, rfl, rfl⟩
  · intro rec hrec
    rcases List.mem_append.mp hrec with hrec | hrec
    · exact h.placed rec hrec
    · obtain rfl := List.mem_singleton.mp hrec
      exact hplaced
  · intro rec hrec
    rcases List.mem_append.mp hrec with hrec | hrec
    · -- the new header is written to cells that no record in the ring has
      refine Eq.trans (congrArg (· % 2 ^ 30) (read32_write_of_ne s.ring _ _ _ ?_)) (h.length rec hrec)
      intro i hi j hj he
      have hj' : j < HDR_SZ := by simpa [HDR_SZ] using hj
      have howns := (h.placed_todo hrec).owns (covers_header rec (i := i) (by unfold HDR_SZ; omega))
      rw [he] at howns
      exact hdisjoint rec hrec howns (hplaced.owns (covers_header _ hj'))
    · obtain rfl := List.mem_singleton.mp hrec
      have hsize : size < 2 ^ 30 := hplaced.fits.size_lt
      have hheader := ((holds_append _ _ _ _).mp (holds_write_self s.ring.raw
        (dataStart + s.ring.masked s.ring.producerPos) (Bytes.le 4 (size ||| BUSY_BIT) ++ Bytes.le 4 fd.toNat))).1
      have hread := readLe_of_holds _ _ _ _ hheader
      refine Eq.trans (congrArg (· % 2 ^ 30) hread) ?_
      change (size ||| 2 ^ 31) % 256 ^ 4 % 2 ^ 30 = size
      rw [or_pow_of_lt (by omega)]
      omega

theorem Inv.fetch (answers : Nat → Int) :
    ∃ done' todo', Inv (s.advance (s.ring.fetchData answers).2.2) done' todo' := by
  obtain ⟨k, hk⟩ := h.pow
  have hwindow := h.window
  have hsmall := h.small
  have hlength : ∀ rec ∈ todo.map Record.extent, s.ring.headerLen rec % 2 ^ 30 = rec.size := by
    intro _ hmem
    obtain ⟨rec, hrec, rfl⟩ := List.mem_map.mp hmem
    have hlen := h.length rec hrec
    rw [(h.placed_todo hrec).header_eq] at hlen
    exact hlen
  obtain ⟨_, _, d, hsplit, hpassed, hrest, hring, -⟩ := fetchLoop_spec answers hk hsmall h.producer h.consumer
    h.laid hlength (s.ring.producerPos - s.ring.consumerPos) 0
  obtain ⟨passed, rest, rfl, rfl, rfl⟩ := List.map_eq_append_iff.mp hsplit
  have hle := hrest.le
  have hfetch : (s.ring.fetchData answers).2.2 = { s.ring with consumerPos := (s.consumed + d) % wordSize } := hring
  rw [h.advance_eq (p := 0) (c := d) (s.ring.fetchData answers).2.2 (by rw [hfetch]; exact h.producer) (by rw [hfetch])
    (Nat.two_pow_pos 64) (by unfold wordSize; omega), hfetch]
  refine ⟨done ++ passed, rest, h.pow, hsmall, h.producer, rfl, ?_, h.aligned, ?_, ?_, hrest, h.placed, ?_⟩
  · change s.produced ≤ s.consumed + d + s.ring.maxEnt
    omega
  · rw [h.records_eq, List.append_assoc]
  · intro rec hrec
    change rec.start < s.consumed + d
    rcases List.mem_append.mp hrec with hrec | hrec
    · have := h.passed rec hrec
      omega
    · have hend : rec.start + totalSize rec.size ≤ s.consumed + d := (hpassed.within (List.mem_map_of_mem hrec)).2
      have := (totalSize_bounds rec.size).1
      unfold HDR_SZ at this
      omega
  · intro rec hrec
    exact h.length rec (List.mem_append_right _ hrec)

theorem Inv.step {a : Action} {s' : State} (hstep : step s a = some s') : ∃ done' todo', Inv s' done' todo' := by
  cases a with
  | reserve size fd =>
    simp only [RingbufSafety.step] at hstep
    split at hstep
    · cases hstep
      exact ⟨_, _, h⟩
    · next hres =>
      cases hstep
      exact ⟨_, _, h.reserve hres⟩
  | write i offset byte =>
    simp only [RingbufSafety.step] at hstep
    split at hstep
    · cases hstep
    · next rec hi =>
      split_ifs at hstep with hcond
      cases hstep
      have hmem : rec ∈ s.pending := List.mem_filter.mpr ⟨List.mem_of_getElem? hi, by simpa using hcond.1⟩
      rw [h.pending_eq] at hmem
      exact ⟨_, _, h.write hmem hcond.2 byte⟩
  | commit i discard helper =>
    simp only [RingbufSafety.step] at hstep
    split at hstep
    · cases hstep
    · next rec hi =>
      cases hstep
      have hsubmit := h.submit (List.mem_of_getElem? hi) discard
      cases helper with
      | false => exact ⟨_, _, hsubmit⟩
      | true =>
        rw [if_pos rfl, Ring.submitHelper]
        split_ifs
        · exact ⟨_, _, hsubmit⟩
        · exact ⟨_, _, h.raw s.ring.raw h.length⟩
  | fetch answers =>
    cases hstep
    exact h.fetch answers

end

end Inv

theorem rawSize_of_no_data : rawSize (2 ^ 31) = dataStart := by decide

theorem reserve_outside {r : Ring} (hmax : r.maxEnt = 2 ^ 31) (hproducer : r.producerPos = 0)
    (hconsumer : r.consumerPos = 0) :
    ∃ s, step (.initial r) (.reserve 1 0) = some s ∧ ⟨0, 1, 0, 8⟩ ∈ s.pending ∧ ¬ Safe s := by
  have hres : ∃ ring, r.reserve 1 0 = .ok (8, ring) ∧ ring.maxEnt = 2 ^ 31 ∧ ring.consumerPos = 0 := by
    unfold Ring.reserve Ring.masked
    rw [hmax, hproducer, hconsumer, if_neg (by decide), if_neg (by decide), if_neg (by decide)]
    exact ⟨_, rfl, rfl, rfl⟩
  obtain ⟨ring, hring, hmax', hconsumer'⟩ := hres
  have hmem : ⟨0, 1, 0, 8⟩ ∈ State.pending { State.advance (.initial r) ring with records := [⟨0, 1, 0, 8⟩] } := by
    simp [State.pending, State.advance, State.initial, hconsumer, hconsumer']
  have hstep : step (.initial r) (.reserve 1 0) =
      some { State.advance (.initial r) ring with records := [⟨0, 1, 0, 8⟩] } := by
    have hrecord : State.record (.initial r) 1 8 = ⟨0, 1, 0, 8⟩ := by
      simp [State.record, State.initial, Ring.masked, hproducer]
    simp only [step, State.initial] at hring ⊢
    rw [hring]
    exact congrArg some (by rw [← hrecord]; rfl)
  refine ⟨_, hstep, hmem, fun h => ?_⟩
  have hinside := h.inside _ hmem 0 (.inl (by decide))
  change dataStart + 0 < rawSize ring.maxEnt at hinside
  rw [hmax', rawSize_of_no_data] at hinside
  exact absurd hinside (lt_irrefl _)

/-- The ring buffer keeps its promises in all runs, unless it has 2³¹ bytes. -/
theorem ring_safe_iff (maxEntries : UInt32) (fds : List UInt32) (ring : Ring)
    (hinit : mapInit maxEntries.toNat fds = some ring) :
    (∀ s, Reaches step (fun _ _ => True) (.initial ring) s → Safe s) ↔ maxEntries.toNat < 2 ^ 31 := by
  constructor
  · intro h
    by_contra hbig
    unfold mapInit at hinit
    split_ifs at hinit with hpop
    cases hinit
    have hlt := maxEntries.toNat_lt
    obtain ⟨k, hk⟩ := exists_pow_of_popCnt hlt hpop
    have hk31 : k = 31 := by
      rw [hk] at hbig hlt
      have hlow := (Nat.pow_le_pow_iff_right (by omega)).mp (Nat.le_of_not_lt hbig)
      have hhigh := (Nat.pow_lt_pow_iff_right (by omega)).mp hlt
      omega
    rw [hk, hk31] at h
    obtain ⟨s, hstep, -, hunsafe⟩ := reserve_outside (r := ⟨2 ^ 31, fds, 0, 0, fun _ => 0⟩) rfl rfl rfl
    exact hunsafe (h s (.single trivial hstep))
  · intro hsmall s h
    have hinv : ∃ done todo, Inv s done todo := by
      refine h.invariant (fun s => ∃ done todo, Inv s done todo) ⟨[], [], inv_initial hinit hsmall⟩ ?_
      rintro t a u ⟨done, todo, ht⟩ - hstep
      exact ht.step hstep
    obtain ⟨done, todo, hinv⟩ := hinv
    exact hinv.safe

theorem ring_safe_iff_sixteen : ∃ ring, mapInit 16 [5] = some ring ∧
    ∀ s, Reaches step (fun _ _ => True) (.initial ring) s → Safe s :=
  ⟨_, rfl, (ring_safe_iff 16 [5] _ rfl).mpr (by decide)⟩

/-- `max_entries = 2³¹` is accepted, and the reservation of one byte covers bytes behind the buffer. -/
theorem ring_without_data_area : rawSize (2 ^ 31) = dataStart ∧ ∃ ring s, mapInit (2 ^ 31) [5] = some ring ∧
    step (.initial ring) (.reserve 1 0) = some s ∧ ⟨0, 1, 0, 8⟩ ∈ s.pending ∧ ¬ Safe s :=
  ⟨rawSize_of_no_data, ⟨2 ^ 31, [5], 0, 0, fun _ => 0⟩,
    (reserve_outside rfl rfl rfl).imp fun _ h => ⟨if_pos (by decide), h⟩⟩

end RingbufSafety
