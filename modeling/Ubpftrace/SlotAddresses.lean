import Ubpftrace.PerCpuHash
import Ubpftrace.QueueStack

/-!
# Where the slots of arrays and queues lie

Array, per-CPU array and queue maps allocate one vector of bytes at construction and
compute the place of a slot in it anew in every operation. The size of the vector is
a product of 32-bit numbers and wraps. The offsets are 32-bit products in the array
and in the queue, and 64-bit ones in the per-CPU array.
-/

namespace SlotAddresses

open QueueStack
open HashMapVariants (Errno BPF_NOEXIST BPF_EXIST BPF_ANY)
open PerCpu (checkUpdateFlags)
open Runs (Always after always_append)

/-- Bytes of the vector, as an offset and a length. -/
structure Range where
  offset : Nat
  length : Nat
  deriving DecidableEq

def Range.Inside (r : Range) (allocated : Nat) : Prop := r.offset + r.length ≤ allocated

/-! ## Arrays -/

/-- `array_map_impl` without the contents of `data`. -/
structure ArrayMap where
  valueSize : BitVec 32
  maxEntries : BitVec 32

namespace ArrayMap

variable (m : ArrayMap)

def allocated : Nat := (m.valueSize * m.maxEntries).toNat

def slot (key : BitVec 32) : Range := ⟨(key * m.valueSize).toNat, m.valueSize.toNat⟩

/-- The slot that is pointed to. -/
def elemLookup (key : BitVec 32) : Except Errno Range :=
  if key ≥ m.maxEntries then .error .ENOENT else .ok (m.slot key)

/-- The slot that is copied to. -/
def elemUpdate (key : BitVec 32) (flags : UInt64) : Except Errno Range :=
  if !checkUpdateFlags flags then .error .EINVAL
  else if key < m.maxEntries ∧ flags = BPF_NOEXIST then .error .EEXIST
  else if key ≥ m.maxEntries then .error .E2BIG
  else .ok (m.slot key)

def Computes (r : Range) : Prop := (∃ key, m.elemLookup key = .ok r) ∨ ∃ key flags, m.elemUpdate key flags = .ok r

end ArrayMap

/-! ## Per-CPU arrays -/

/-- `per_cpu_array_map_impl` without the contents of `data`; the number of processors is
given to the constructor as `uint32_t` and kept as `int`. -/
structure PerCpuArrayMap where
  valueSize : BitVec 32
  maxEnt : BitVec 32
  ncpu : BitVec 32

namespace PerCpuArrayMap

variable (m : PerCpuArrayMap)

def allocated : Nat := (m.maxEnt * m.ncpu * m.valueSize).toNat

def dataAt (idx cpu : BitVec 64) : Nat :=
  (idx * m.valueSize.setWidth 64 * m.ncpu.signExtend 64 + cpu * m.valueSize.setWidth 64).toNat

/-- The key may be a null pointer; `cpu` is the current processor. -/
def elemLookup (key : Option (BitVec 32)) (cpu : BitVec 64) : Except Errno Range :=
  match key with
  | none => .error .ENOENT
  | some key =>
    if key ≥ m.maxEnt then .error .ENOENT else .ok ⟨m.dataAt (key.setWidth 64) cpu, m.valueSize.toNat⟩

/-- The check of the flags and of the key in both updates, before a range is copied to. -/
def updateAt (key : Option (BitVec 32)) (flags : UInt64) (range : BitVec 32 → Range) : Except Errno Range :=
  if !checkUpdateFlags flags then .error .EINVAL
  else
    match key with
    | none => .error .ENOENT
    | some key =>
      if key < m.maxEnt ∧ flags = BPF_NOEXIST then .error .EEXIST
      else if key ≥ m.maxEnt then .error .E2BIG
      else .ok (range key)

def elemUpdate (key : Option (BitVec 32)) (flags : UInt64) (cpu : BitVec 64) : Except Errno Range :=
  m.updateAt key flags fun key => ⟨m.dataAt (key.setWidth 64) cpu, m.valueSize.toNat⟩

/-- The slots of all processors. -/
def allSlots (key : BitVec 32) : Range := ⟨m.dataAt (key.setWidth 64) 0, (m.ncpu * m.valueSize).toNat⟩

def elemLookupUserspace (key : Option (BitVec 32)) : Except Errno Range :=
  match key with
  | none => .error .ENOENT
  | some key => if key ≥ m.maxEnt then .error .ENOENT else .ok (m.allSlots key)

def elemUpdateUserspace (key : Option (BitVec 32)) (flags : UInt64) : Except Errno Range :=
  m.updateAt key flags m.allSlots

/-- The ranges that operations compute, on a processor that the map knows of. -/
def Computes (r : Range) : Prop :=
  (∃ key cpu, cpu.toNat < m.ncpu.toNat ∧ m.elemLookup key cpu = .ok r) ∨
    (∃ key flags cpu, cpu.toNat < m.ncpu.toNat ∧ m.elemUpdate key flags cpu = .ok r) ∨
    (∃ key, m.elemLookupUserspace key = .ok r) ∨ ∃ key flags, m.elemUpdateUserspace key flags = .ok r

end PerCpuArrayMap

/-! ## Queues -/

section Queues

variable {valueSize : Nat} (q : Queue valueSize)

def queueAllocated : Nat := q.maxEntries * valueSize % 2 ^ 32

def queueSlot (valueSize index : Nat) : Range := ⟨Queue.slotOffset valueSize index, valueSize⟩

/-- The slot that an accepted value is copied to. -/
def pushed (flags : UInt64) : Option Range :=
  if q.count ≥ q.maxEntries ∧ flags ≠ BPF_EXIST then none else some (queueSlot valueSize q.tail)

/-- The slot that a call reads or copies to, if it gets that far. -/
def touched : Call (Vector UInt8 valueSize) → Option Range
  | .lookup | .pop false | .peek false => if q.count = 0 then none else some (queueSlot valueSize q.head)
  | .update (some _) flags => pushed q flags
  | .push (some _) flags => if flags ≠ 0 ∧ flags ≠ BPF_ANY ∧ flags ≠ BPF_EXIST then none else pushed q flags
  | .update none _ | .push none _ | .delete | .pop true | .peek true => none

end Queues

/-! ## Products that wrap -/

theorem exists_slot_beyond (valueSize n : Nat) (h : 2 ^ 32 ≤ n * valueSize) :
    ∃ j < n, j * valueSize < 2 ^ 32 ∧ 2 ^ 32 ≤ j * valueSize + valueSize := by
  have hpos : 0 < valueSize := by
    rcases Nat.eq_zero_or_pos valueSize with rfl | hpos
    · simp at h
    · exact hpos
  have hle : (2 ^ 32 - 1) / valueSize * valueSize ≤ 2 ^ 32 - 1 := Nat.div_mul_le_self _ _
  refine ⟨(2 ^ 32 - 1) / valueSize, ?_, by omega, ?_⟩
  · exact lt_of_mul_lt_mul_right (lt_of_le_of_lt hle (by omega)) (Nat.zero_le valueSize)
  · have := Nat.lt_div_mul_add hpos (a := 2 ^ 32 - 1)
    omega

theorem slot_end_le (valueSize : Nat) {n j : Nat} (hj : j < n) : j * valueSize + valueSize ≤ n * valueSize := by
  rw [← Nat.succ_mul]
  exact Nat.mul_le_mul_right _ hj

/-- The array: all slots are inside the vector exactly if its size does not wrap. -/
theorem array_inside_iff (m : ArrayMap) :
    (∀ r, m.Computes r → r.Inside m.allocated) ↔ m.valueSize.toNat * m.maxEntries.toNat < 2 ^ 32 := by
  constructor
  · intro h
    by_contra hbig
    obtain ⟨j, hj, hlt, hbeyond⟩ := exists_slot_beyond m.valueSize.toNat m.maxEntries.toNat
      (by rw [Nat.mul_comm]; omega)
    have hj32 : j < 2 ^ 32 := hj.trans m.maxEntries.isLt
    have hkey : (BitVec.ofNat 32 j).toNat = j := by rw [BitVec.toNat_ofNat, Nat.mod_eq_of_lt hj32]
    have hlookup : m.elemLookup (BitVec.ofNat 32 j) = .ok (m.slot (BitVec.ofNat 32 j)) := by
      refine if_neg (BitVec.not_le.mpr ?_)
      rwa [BitVec.lt_def, hkey]
    have hinside := h _ (.inl ⟨_, hlookup⟩)
    have hoffset : (m.slot (BitVec.ofNat 32 j)).offset = j * m.valueSize.toNat := by
      rw [ArrayMap.slot, BitVec.toNat_mul, hkey, Nat.mod_eq_of_lt hlt]
    have hall : m.allocated < 2 ^ 32 := BitVec.isLt _
    rw [Range.Inside, hoffset] at hinside
    have hlength : (m.slot (BitVec.ofNat 32 j)).length = m.valueSize.toNat := rfl
    omega
  · intro hsmall
    have hslot (key : BitVec 32) (hkey : ¬ key ≥ m.maxEntries) : (m.slot key).Inside m.allocated := by
      have hlt : key.toNat < m.maxEntries.toNat := BitVec.lt_def.mp (BitVec.not_le.mp hkey)
      have hend := slot_end_le m.valueSize.toNat hlt
      rw [Nat.mul_comm m.maxEntries.toNat] at hend
      rw [Range.Inside, ArrayMap.slot, ArrayMap.allocated, BitVec.toNat_mul, BitVec.toNat_mul,
        Nat.mod_eq_of_lt hsmall, Nat.mod_eq_of_lt (by omega)]
      exact hend
    rintro r (⟨key, hr⟩ | ⟨key, flags, hr⟩)
    · rw [ArrayMap.elemLookup] at hr
      split_ifs at hr with hkey
      cases hr
      exact hslot key hkey
    · rw [ArrayMap.elemUpdate] at hr
      split_ifs at hr with _ _ hkey
      cases hr
      exact hslot key hkey

/-! ## The per-CPU array -/

section PerCpu

variable {m : PerCpuArrayMap}

/-- The number of processors as `size_t`: negative numbers of type `int` become huge. -/
theorem toNat_ncpu (m : PerCpuArrayMap) : (m.ncpu.signExtend 64).toNat =
    if m.ncpu.toNat < 2 ^ 31 then m.ncpu.toNat else m.ncpu.toNat + (2 ^ 64 - 2 ^ 32) := by
  rw [BitVec.toNat_signExtend, BitVec.msb_eq_decide, BitVec.toNat_setWidth, Nat.mod_eq_of_lt (by omega)]
  simp only [decide_eq_true_eq]
  split_ifs <;> omega

theorem dataAt_eq (idx : BitVec 32) (cpu : BitVec 64)
    (h : idx.toNat * m.valueSize.toNat * (m.ncpu.signExtend 64).toNat + cpu.toNat * m.valueSize.toNat < 2 ^ 64) :
    m.dataAt (idx.setWidth 64) cpu =
      idx.toNat * m.valueSize.toNat * (m.ncpu.signExtend 64).toNat + cpu.toNat * m.valueSize.toNat := by
  have hwidth (x : BitVec 32) : (x.setWidth 64).toNat = x.toNat := by
    rw [BitVec.toNat_setWidth, Nat.mod_eq_of_lt (by omega)]
  rw [PerCpuArrayMap.dataAt, BitVec.toNat_add, BitVec.toNat_mul, BitVec.toNat_mul, BitVec.toNat_mul, hwidth, hwidth,
    Nat.mod_mul_mod, Nat.mod_add_mod, Nat.add_mod_mod, Nat.mod_eq_of_lt h]

theorem allocated_eq (h : m.maxEnt.toNat * m.ncpu.toNat * m.valueSize.toNat < 2 ^ 32) :
    m.allocated = m.maxEnt.toNat * m.ncpu.toNat * m.valueSize.toNat := by
  rw [PerCpuArrayMap.allocated, BitVec.toNat_mul, BitVec.toNat_mul, Nat.mod_mul_mod, Nat.mod_eq_of_lt h]

/-- The slot of a processor is one of `max_entries * ncpu` slots in a row, where the number of
processors is not negative or not used. -/
theorem dataAt_row {idx : BitVec 32} {cpu : BitVec 64}
    (hrow : m.ncpu.toNat < 2 ^ 31 ∨ idx.toNat * m.valueSize.toNat = 0)
    (hlt : (idx.toNat * m.ncpu.toNat + cpu.toNat) * m.valueSize.toNat < 2 ^ 64) :
    m.dataAt (idx.setWidth 64) cpu = (idx.toNat * m.ncpu.toNat + cpu.toNat) * m.valueSize.toNat := by
  have hstride :
    idx.toNat * m.valueSize.toNat * (m.ncpu.signExtend 64).toNat = idx.toNat * m.ncpu.toNat * m.valueSize.toNat := by
    rcases hrow with hsmall | hzero
    · rw [toNat_ncpu, if_pos hsmall, Nat.mul_right_comm]
    · rw [hzero, Nat.mul_right_comm, hzero, Nat.zero_mul, Nat.zero_mul]
  rw [Nat.add_mul] at hlt ⊢
  rw [dataAt_eq _ _ (by rwa [hstride]), hstride]

theorem row_lt {idx cpu n ncpu : Nat} (hidx : idx < n) (hcpu : cpu < ncpu) : idx * ncpu + cpu < n * ncpu :=
  calc idx * ncpu + cpu < idx * ncpu + ncpu := Nat.add_lt_add_left hcpu _
    _ = (idx + 1) * ncpu := (Nat.succ_mul _ _).symm
    _ ≤ n * ncpu := Nat.mul_le_mul_right _ hidx

/-- More than 2^31 processors leave room for one slot each. -/
theorem row_cases (hsmall : m.maxEnt.toNat * m.ncpu.toNat * m.valueSize.toNat < 2 ^ 32) {idx : BitVec 32}
    (hidx : idx.toNat < m.maxEnt.toNat) : m.ncpu.toNat < 2 ^ 31 ∨ idx.toNat * m.valueSize.toNat = 0 := by
  by_contra hnot
  rw [not_or] at hnot
  obtain ⟨hidx0, hvalue0⟩ := Nat.mul_ne_zero_iff.mp hnot.2
  have hge : 2 * 2 ^ 31 * 1 ≤ m.maxEnt.toNat * m.ncpu.toNat * m.valueSize.toNat :=
    Nat.mul_le_mul (Nat.mul_le_mul (by omega) (by omega)) (by omega)
  omega

theorem perCpu_slots_inside (hsmall : m.maxEnt.toNat * m.ncpu.toNat * m.valueSize.toNat < 2 ^ 32) (key : BitVec 32)
    (hkey : key.toNat < m.maxEnt.toNat) :
    (∀ cpu : BitVec 64, cpu.toNat < m.ncpu.toNat →
      (Range.mk (m.dataAt (key.setWidth 64) cpu) m.valueSize.toNat).Inside m.allocated) ∧
    (m.allSlots key).Inside m.allocated := by
  have hrow := row_cases hsmall hkey
  constructor
  · intro cpu hcpu
    have hend := slot_end_le m.valueSize.toNat (row_lt hkey hcpu)
    rw [Range.Inside, allocated_eq hsmall, dataAt_row hrow (by omega)]
    exact hend
  · have hkeys : (key.toNat * m.ncpu.toNat + m.ncpu.toNat) * m.valueSize.toNat ≤
        m.maxEnt.toNat * m.ncpu.toNat * m.valueSize.toNat := Nat.mul_le_mul_right _ (slot_end_le m.ncpu.toNat hkey)
    have hzero : (0 : BitVec 64).toNat = 0 := rfl
    have hall : (m.ncpu * m.valueSize).toNat ≤ m.ncpu.toNat * m.valueSize.toNat := by
      exact Nat.mod_le _ _
    rw [Nat.add_mul] at hkeys
    rw [Range.Inside, allocated_eq hsmall, PerCpuArrayMap.allSlots,
      dataAt_row hrow (by rw [hzero, Nat.add_zero]; omega), hzero, Nat.add_zero]
    exact (Nat.add_le_add_left hall _).trans hkeys

/-- If the slots together do not fit, some slot begins or ends outside the vector. -/
theorem exists_perCpu_slot_outside (hbig : 2 ^ 32 ≤ m.maxEnt.toNat * m.ncpu.toNat * m.valueSize.toNat) :
    ∃ (key : BitVec 32) (cpu : BitVec 64), key.toNat < m.maxEnt.toNat ∧ cpu.toNat < m.ncpu.toNat ∧
      2 ^ 32 ≤ m.dataAt (key.setWidth 64) cpu + m.valueSize.toNat := by
  have hncpu := m.ncpu.isLt
  have hmax := m.maxEnt.isLt
  have hkey {j : Nat} (hj : j < m.maxEnt.toNat) : (BitVec.ofNat 32 j).toNat = j := by
    rw [BitVec.toNat_ofNat, Nat.mod_eq_of_lt (hj.trans hmax)]
  have hcpu {j : Nat} (hj : j < m.ncpu.toNat) : (BitVec.ofNat 64 j).toNat = j := by
    rw [BitVec.toNat_ofNat, Nat.mod_eq_of_lt (by omega)]
  by_cases hneg : m.ncpu.toNat < 2 ^ 31
  · obtain ⟨j, hj, hlt, hbeyond⟩ := exists_slot_beyond m.valueSize.toNat (m.maxEnt.toNat * m.ncpu.toNat) hbig
    have hpos : 0 < m.ncpu.toNat := Nat.pos_of_ne_zero fun hz => by simp [hz] at hj
    have hidx : j / m.ncpu.toNat < m.maxEnt.toNat := Nat.div_lt_of_lt_mul (by rwa [Nat.mul_comm])
    have hmod : j % m.ncpu.toNat < m.ncpu.toNat := Nat.mod_lt _ hpos
    have hj' : j / m.ncpu.toNat * m.ncpu.toNat + j % m.ncpu.toNat = j := Nat.div_add_mod' _ _
    refine ⟨BitVec.ofNat 32 (j / m.ncpu.toNat), BitVec.ofNat 64 (j % m.ncpu.toNat), by rwa [hkey hidx],
      by rwa [hcpu hmod], ?_⟩
    rw [dataAt_row (.inl hneg) (by rw [hkey hidx, hcpu hmod, hj']; omega), hkey hidx, hcpu hmod, hj']
    exact hbeyond
  · by_cases hfirst : 2 ^ 32 ≤ m.ncpu.toNat * m.valueSize.toNat
    · -- the slots of the first key alone are too many
      obtain ⟨j, hj, hlt, hbeyond⟩ := exists_slot_beyond m.valueSize.toNat m.ncpu.toNat hfirst
      have hpos : 0 < m.maxEnt.toNat := Nat.pos_of_ne_zero fun hz => by simp [hz] at hbig
      refine ⟨BitVec.ofNat 32 0, BitVec.ofNat 64 j, by rwa [hkey hpos], by rwa [hcpu hj], ?_⟩
      rw [dataAt_row (.inr (by simp)) (by simp [hcpu hj]; omega), hkey hpos, hcpu hj, Nat.zero_mul, Nat.zero_add]
      exact hbeyond
    · -- a slot is one byte, and the slots of the second key lie a negative distance away
      have hone : m.valueSize.toNat = 1 := by
        have hne : m.valueSize.toNat ≠ 0 := fun hz => by simp [hz] at hbig
        by_contra hne1
        have := Nat.mul_le_mul (show 2 ^ 31 ≤ m.ncpu.toNat by omega) (show 2 ≤ m.valueSize.toNat by omega)
        omega
      have htwo : 1 < m.maxEnt.toNat := by
        by_contra hle
        have := Nat.mul_le_mul_right m.ncpu.toNat (show m.maxEnt.toNat ≤ 1 by omega)
        rw [hone] at hbig
        omega
      have hzero : 0 < m.ncpu.toNat := by omega
      refine ⟨BitVec.ofNat 32 1, BitVec.ofNat 64 0, by rwa [hkey htwo], by rwa [hcpu hzero], ?_⟩
      have hoffset := dataAt_eq (m := m) (BitVec.ofNat 32 1) (BitVec.ofNat 64 0)
      rw [hkey htwo, hcpu hzero, hone, toNat_ncpu, if_neg hneg] at hoffset
      omega

theorem perCpu_inside_iff (m : PerCpuArrayMap) :
    (∀ r, m.Computes r → r.Inside m.allocated) ↔ m.maxEnt.toNat * m.ncpu.toNat * m.valueSize.toNat < 2 ^ 32 := by
  constructor
  · intro h
    by_contra hbig
    obtain ⟨key, cpu, hkey, hcpu, hbeyond⟩ := exists_perCpu_slot_outside (m := m) (by omega)
    have hlookup : m.elemLookup (some key) cpu = .ok ⟨m.dataAt (key.setWidth 64) cpu, m.valueSize.toNat⟩ :=
      if_neg (BitVec.not_le.mpr hkey)
    have hinside : m.dataAt (key.setWidth 64) cpu + m.valueSize.toNat ≤ m.allocated :=
      h _ (.inl ⟨_, cpu, hcpu, hlookup⟩)
    have hall : m.allocated < 2 ^ 32 := BitVec.isLt _
    omega
  · intro hsmall
    have hlt {key : BitVec 32} (hkey : ¬ key ≥ m.maxEnt) : key.toNat < m.maxEnt.toNat :=
      BitVec.lt_def.mp (BitVec.not_le.mp hkey)
    have hupdate {key : Option (BitVec 32)} {flags : UInt64} {range : BitVec 32 → Range} {r : Range}
        (hr : m.updateAt key flags range = .ok r) : ∃ key, key.toNat < m.maxEnt.toNat ∧ r = range key := by
      unfold PerCpuArrayMap.updateAt at hr
      split_ifs at hr
      cases key with
      | none => cases hr
      | some key =>
        simp only at hr
        split_ifs at hr with _ hkey
        cases hr
        exact ⟨key, hlt hkey, rfl⟩
    rintro r (⟨key, cpu, hcpu, hr⟩ | ⟨key, flags, cpu, hcpu, hr⟩ | ⟨key, hr⟩ | ⟨key, flags, hr⟩)
    · cases key with
      | none => cases hr
      | some key =>
        rw [PerCpuArrayMap.elemLookup] at hr
        split_ifs at hr with hkey
        cases hr
        exact (perCpu_slots_inside hsmall key (hlt hkey)).1 cpu hcpu
    · obtain ⟨key, hkey, rfl⟩ := hupdate hr
      exact (perCpu_slots_inside hsmall key hkey).1 cpu hcpu
    · cases key with
      | none => cases hr
      | some key =>
        rw [PerCpuArrayMap.elemLookupUserspace] at hr
        split_ifs at hr with hkey
        cases hr
        exact (perCpu_slots_inside hsmall key (hlt hkey)).2
    · obtain ⟨key, hkey, rfl⟩ := hupdate hr
      exact (perCpu_slots_inside hsmall key hkey).2

end PerCpu

/-! ## The queue -/

section Queue

variable {valueSize : Nat}

/-- Every slot that calls touch, in a run from a state on. -/
def TouchesInside (q : Queue valueSize) (calls : List (Call (Vector UInt8 valueSize))) : Prop :=
  Always (step (Queue.storage valueSize))
    (fun q c => ∀ r, touched q c = some r → r.Inside (queueAllocated q)) q calls

/-- Head and tail are indices of slots. -/
structure Indexed (maxEntries : Nat) (q : Queue valueSize) : Prop where
  maxEntries_eq : q.maxEntries = maxEntries
  head_lt : q.head < maxEntries
  tail_lt : q.tail < maxEntries

theorem Indexed.nextIndex_lt {maxEntries : Nat} {q : Queue valueSize} (h : Indexed maxEntries q) (i : Nat) :
    q.nextIndex i < maxEntries := by
  rw [Queue.nextIndex, h.maxEntries_eq]
  exact Nat.mod_lt _ (Nat.zero_lt_of_lt h.head_lt)

theorem Indexed.step {maxEntries : Nat} {q : Queue valueSize} (h : Indexed maxEntries q)
    (c : Call (Vector UInt8 valueSize)) : Indexed maxEntries (step (Queue.storage valueSize) q c).2 := by
  have hdequeue (q : Queue valueSize) (h : Indexed maxEntries q) : Indexed maxEntries q.dequeue :=
    ⟨h.maxEntries_eq, h.nextIndex_lt _, h.tail_lt⟩
  exact step_preserves _ hdequeue hdequeue
    (fun q _ h => ⟨h.maxEntries_eq, h.head_lt, h.nextIndex_lt _⟩) c h

theorem touched_eq {q : Queue valueSize} {c : Call (Vector UInt8 valueSize)} {r : Range} (hr : touched q c = some r) :
    r = queueSlot valueSize q.head ∨ r = queueSlot valueSize q.tail := by
  have hpushed {flags : UInt64} (hr : pushed q flags = some r) : r = queueSlot valueSize q.tail := by
    rw [pushed] at hr
    split_ifs at hr
    exact (Option.some.inj hr).symm
  unfold touched at hr
  split at hr
  case h_4 => exact .inr (hpushed hr)
  case h_5 =>
    split_ifs at hr
    exact .inr (hpushed hr)
  all_goals
    first
    | cases hr
    | split_ifs at hr
      exact .inl (Option.some.inj hr).symm

theorem after_pushes (maxEntries : Nat) (hmax : maxEntries < 2 ^ 32) (value : Vector UInt8 valueSize) {n : Nat}
    (hn : n < maxEntries) :
    let q := after (step (Queue.storage valueSize)) ⟨maxEntries, 0, 0, 0, fun _ => 0⟩
      (List.replicate n (.push (some value) 0))
    q.maxEntries = maxEntries ∧ q.tail = n ∧ q.count = n := by
  induction n with
  | zero => exact ⟨rfl, rfl, rfl⟩
  | succ n ih =>
    obtain ⟨hmaxEntries, htail, hcount⟩ := ih (by omega)
    intro q
    have hq : q = (after (step (Queue.storage valueSize)) ⟨maxEntries, 0, 0, 0, fun _ => 0⟩
        (List.replicate n (.push (some value) 0))).enqueue value := by
      simp only [q, List.replicate_succ', Runs.after_append]
      generalize after (step (Queue.storage valueSize)) ⟨maxEntries, 0, 0, 0, fun _ => 0⟩
        (List.replicate n (.push (some value) 0)) = q at hmaxEntries htail hcount
      have hfull : ¬ q.count ≥ q.maxEntries := by omega
      simp [after, step, mapPushElem, pushChecked, Queue.storage, hfull]
    rw [hq]
    refine ⟨hmaxEntries, ?_, ?_⟩
    · rw [Queue.enqueue, Queue.nextIndex, hmaxEntries, htail, Nat.mod_eq_of_lt (show n + 1 < 2 ^ 32 by omega),
        Nat.mod_eq_of_lt hn]
    · rw [Queue.enqueue, hcount]

theorem queue_inside_iff (maxEntries : Nat) (hmax : maxEntries < 2 ^ 32) (q : Queue valueSize)
    (hq : Queue.new valueSize maxEntries = some q) :
    (∀ calls, TouchesInside q calls) ↔ valueSize * maxEntries < 2 ^ 32 := by
  rw [Queue.new] at hq
  split_ifs at hq with hzero
  cases hq
  constructor
  · intro h
    by_contra hbig
    obtain ⟨j, hj, hlt, hbeyond⟩ := exists_slot_beyond valueSize maxEntries (by rw [Nat.mul_comm]; omega)
    have hlast := (always_append.mp
      (h (List.replicate j (.push (some (Vector.replicate _ 0)) 0) ++ [.push (some (Vector.replicate _ 0)) 0]))).2.1
    obtain ⟨hmaxEntries, htail, hcount⟩ := after_pushes maxEntries hmax (Vector.replicate valueSize 0) hj
    have hpushed : touched (after (step (Queue.storage valueSize)) ⟨maxEntries, 0, 0, 0, fun _ => 0⟩
        (List.replicate j (.push (some (Vector.replicate _ 0)) 0))) (.push (some (Vector.replicate _ 0)) 0) =
          some (queueSlot valueSize j) := by
      rw [touched, if_neg (by simp), pushed, if_neg (by omega), htail]
    have hinside : Queue.slotOffset valueSize j + valueSize ≤ _ := hlast _ hpushed
    have hall : queueAllocated (after (step (Queue.storage valueSize)) ⟨maxEntries, 0, 0, 0, fun _ => 0⟩
        (List.replicate j (.push (some (Vector.replicate _ 0)) 0))) < 2 ^ 32 := Nat.mod_lt _ (by decide)
    rw [Queue.slotOffset, Nat.mod_eq_of_lt hlt] at hinside
    omega
  · intro hsmall calls
    have hpos : 0 < maxEntries := by omega
    refine Always.imp (P := fun _ _ => True) (Indexed maxEntries) (fun q c h _ => ⟨fun r hr => ?_, h.step c⟩)
      ⟨rfl, hpos, hpos⟩ (Runs.always_of_forall (fun _ _ => trivial) _ calls)
    have hslot {i : Nat} (hi : i < maxEntries) : (queueSlot valueSize i).Inside (queueAllocated q) := by
      have hend := slot_end_le valueSize hi
      rw [Nat.mul_comm valueSize] at hsmall
      rw [Range.Inside, queueSlot, queueAllocated, h.maxEntries_eq, Queue.slotOffset, Nat.mod_eq_of_lt hsmall,
        Nat.mod_eq_of_lt (by omega)]
      exact hend
    rcases touched_eq hr with rfl | rfl
    · exact hslot h.head_lt
    · exact hslot h.tail_lt

end Queue

/-- For all sizes that the constructors accept: every slot that an array map, a per-CPU array map
or, in any run, a queue map computes lies in the vector allocated for it exactly if the
product that gives the size of the vector is below 2^32. -/
theorem slots_inside_iff (valueSize maxEntries ncpu : BitVec 32) :
    ((∀ r, (ArrayMap.mk valueSize maxEntries).Computes r → r.Inside (ArrayMap.mk valueSize maxEntries).allocated) ↔
      valueSize.toNat * maxEntries.toNat < 2 ^ 32) ∧
    ((∀ r, (PerCpuArrayMap.mk valueSize maxEntries ncpu).Computes r →
        r.Inside (PerCpuArrayMap.mk valueSize maxEntries ncpu).allocated) ↔
      maxEntries.toNat * ncpu.toNat * valueSize.toNat < 2 ^ 32) ∧
    ∀ q, Queue.new valueSize.toNat maxEntries.toNat = some q →
      ((∀ calls, TouchesInside q calls) ↔ valueSize.toNat * maxEntries.toNat < 2 ^ 32) :=
  ⟨array_inside_iff ⟨valueSize, maxEntries⟩, perCpu_inside_iff ⟨valueSize, maxEntries, ncpu⟩,
    fun q hq => queue_inside_iff maxEntries.toNat maxEntries.isLt q hq⟩

/-- With 2^16 values of 2^16 bytes nothing is allocated, and every slot is outside. -/
theorem nothing_allocated :
    let m : ArrayMap := ⟨65536, 65536⟩
    m.allocated = 0 ∧ m.elemLookup 0 = .ok ⟨0, 65536⟩ ∧
      (PerCpuArrayMap.mk 65536 65536 1).allocated = 0 ∧
      (PerCpuArrayMap.mk 65536 65536 1).elemLookup (some 0) 0 = .ok ⟨0, 65536⟩ ∧
      ∃ q, Queue.new 65536 65536 = some q ∧ queueAllocated q = 0 ∧
        touched q (.push (some (Vector.replicate _ 0)) 0) = some ⟨0, 65536⟩ := by
  refine ⟨by decide, by decide, by decide, by decide, _, rfl, by decide, ?_⟩
  rfl

end SlotAddresses
