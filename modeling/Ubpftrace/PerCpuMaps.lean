import Ubpftrace.Snapshots

/-!
# Per-CPU maps and their export

`per_cpu_hash_map.cpp` and `per_cpu_array_map.cpp` keep the slots of all processors
of a key end to end, `value_size` bytes apart. The snapshot provider of the agent
walks over them in words of eight bytes, `value_size / 8` words apart, so it adds up
the slots exactly if the size is a multiple of eight.
-/

namespace PerCpu

open Bytes (readLe ofList le)
open HandlerTable.MapType
open NumberStrings (Str)
open Snapshots (MapView Entry mem_walk mem_arrayEntries)

variable {keySize valueSize ncpu : Nat}

/-- The slots of all processors for one key. -/
abbrev Slots (valueSize ncpu : Nat) := Vector UInt8 (valueSize * ncpu)

/-- The memory from an offset into a vector on. -/
def pointer {n : Nat} (bytes : Vector UInt8 n) (offset : Nat) : Nat → UInt8 := fun i => ofList bytes.toList (offset + i)

/-- The bytes with a value copied over them at an offset. -/
def copyInto {n : Nat} (bytes : Vector UInt8 n) (offset : Nat) (value : Vector UInt8 valueSize) : Vector UInt8 n :=
  Vector.ofFn fun i => if offset ≤ i ∧ i < offset + valueSize then value.toList.getD (i - offset) 0 else bytes[i]

/-- `per_cpu_hash_map_impl`; the keys stand in the order in which `impl` is iterated over. -/
structure HashMap (keySize valueSize ncpu : Nat) where
  maxEntries : BitVec 32
  impl : AList fun _ : Vector UInt8 keySize => Slots valueSize ncpu

namespace HashMap

variable (m : HashMap keySize valueSize ncpu)

def elemLookup (cpu : Nat) (key : Vector UInt8 keySize) : Option (Nat → UInt8) :=
  (m.impl.lookup key).map fun slots => pointer slots (valueSize * cpu)

/-- `elem_update` with valid flags, which it does not look at. -/
def elemUpdate (cpu : Nat) (key : Vector UInt8 keySize) (value : Vector UInt8 valueSize) :
    HashMap keySize valueSize ncpu :=
  match m.impl.lookup key with
  | some slots => { m with impl := m.impl.replace key (copyInto slots (cpu * valueSize) value) }
  | none => { m with impl := m.impl.insert key (copyInto (Vector.replicate _ 0) (cpu * valueSize) value) }

def elemLookupUserspace (key : Vector UInt8 keySize) : Option (Nat → UInt8) :=
  (m.impl.lookup key).map fun slots => pointer slots 0

def mapGetNextKey : Option (Vector UInt8 keySize) → Option (Vector UInt8 keySize)
  | none => m.impl.keys.head?
  | some key =>
    if key ∈ m.impl.keys then (m.impl.keys.dropWhile (· ≠ key)).tail.head?
    else m.impl.keys.head?

/-- The map as the snapshot provider sees it. -/
def view (name : Str) : MapView where
  type := PERCPU_HASH
  name := name
  keySize := keySize
  valueSize := valueSize
  maxEntries := m.maxEntries
  elem := fun _ => none
  nextKey := m.mapGetNextKey
  lookup := m.elemLookupUserspace

end HashMap

/-- `per_cpu_array_map_impl`. -/
structure ArrayMap (valueSize ncpu : Nat) where
  maxEnt : BitVec 32
  data : Vector UInt8 (maxEnt.toNat * ncpu * valueSize)

namespace ArrayMap

variable (m : ArrayMap valueSize ncpu)

def dataAt (idx cpu : Nat) : Nat → UInt8 := pointer m.data (idx * valueSize * ncpu + cpu * valueSize)

def elemLookupUserspace (idx : Nat) : Option (Nat → UInt8) :=
  if idx ≥ m.maxEnt.toNat then none else some (m.dataAt idx 0)

def view (name : Str) : MapView where
  type := PERCPU_ARRAY
  name := name
  keySize := 4
  valueSize := valueSize
  maxEntries := m.maxEnt
  elem := m.elemLookupUserspace
  nextKey := fun _ => none
  lookup := fun _ => none

end ArrayMap

/-! ## Sums over the slots -/

/-- The sum over all processors of the 64-bit value at the start of the processor's slot, which
`slot` gives, modulo 2^64. -/
def slotSum (ncpu : Nat) (slot : Nat → Nat → UInt8) : Nat :=
  ((List.range ncpu).map fun cpu => readLe (slot cpu) 0 8).sum % 2 ^ 64

/-- Every number exported for a key is the sum over the slots of the key. -/
def HashMap.ExportsSums (m : HashMap keySize valueSize ncpu) (name : Str) : Prop :=
  ∀ k e, (k, e) ∈ (m.view name).entries ncpu → ∃ key slots, m.impl.lookup key = some slots ∧ e.source = key.toList ∧
    e.value = slotSum ncpu fun cpu => pointer slots (valueSize * cpu)

def ArrayMap.ExportsSums (m : ArrayMap valueSize ncpu) (name : Str) : Prop :=
  ∀ k e, (k, e) ∈ (m.view name).entries ncpu → ∃ idx < m.maxEnt.toNat, e.source = le 4 idx ∧
    e.value = slotSum ncpu fun cpu => m.dataAt idx cpu

theorem readLe_shift (mem : Nat → UInt8) (a b w : Nat) : readLe (fun i => mem (a + i)) b w = readLe mem (a + b) w := by
  induction w generalizing b with
  | zero => rfl
  | succ w ih => rw [readLe, readLe, ih, Nat.add_assoc]

theorem pointer_add {n : Nat} (bytes : Vector UInt8 n) (a b i : Nat) :
    pointer bytes a (b + i) = pointer bytes (a + b) i := by
  rw [pointer, pointer, Nat.add_assoc]

theorem percpuTotal_eq_slotSum (mem : Nat → UInt8) (h : 8 ∣ valueSize ∨ ncpu ≤ 1) :
    MapView.percpuTotal ncpu 8 (valueSize / 8) mem = slotSum ncpu fun cpu i => mem (valueSize * cpu + i) := by
  have hword : ∀ cpu ∈ List.range ncpu, readLe mem (8 * (cpu * (valueSize / 8))) 8 =
      readLe (fun i => mem (valueSize * cpu + i)) 0 8 := by
    intro cpu hcpu
    rw [List.mem_range] at hcpu
    have hoffset : 8 * (cpu * (valueSize / 8)) = valueSize * cpu := by
      rcases h with ⟨q, rfl⟩ | hone
      · rw [Nat.mul_div_cancel_left q (by decide), Nat.mul_left_comm, Nat.mul_comm cpu, Nat.mul_assoc]
      · obtain rfl : cpu = 0 := by omega
        simp
    rw [readLe_shift, hoffset, Nat.add_zero]
  rw [MapView.percpuTotal, slotSum, List.map_congr_left hword]

/-! ## A one at the start of the second slot -/

def spike (p : Nat) : Nat → UInt8 := fun i => if i = p then 1 else 0

theorem readLe_spike (p a w : Nat) : readLe (spike p) a w = if a ≤ p ∧ p < a + w then 256 ^ (p - a) else 0 := by
  induction w generalizing a with
  | zero =>
    rw [readLe, if_neg (by omega)]
  | succ w ih =>
    rw [readLe, ih, spike]
    rcases Nat.lt_trichotomy a p with hlt | rfl | hgt
    · rw [if_neg (by omega)]
      by_cases hin : p < a + (w + 1)
      · rw [if_pos (by omega), if_pos (by omega), show p - a = p - (a + 1) + 1 by omega, Nat.pow_succ, Nat.mul_comm]
        exact Nat.zero_add _
      · rw [if_neg (by omega), if_neg (by omega)]
        rfl
    · rw [if_pos rfl, if_neg (by omega), if_pos (by omega), Nat.sub_self]
      rfl
    · rw [if_neg (by omega), if_neg (by omega), if_neg (by omega)]
      rfl

theorem sum_range_only_one (f : Nat → Nat) (n : Nat) (h0 : f 0 = 0) (hrest : ∀ i, f (i + 2) = 0) :
    ((List.range (n + 2)).map f).sum = f 1 := by
  rw [List.range_succ_eq_map, List.range_succ_eq_map]
  simp [h0, Function.comp_def, hrest]

/-- The provider finds it in the wrong place of its second word. -/
theorem spike_totals (h8 : 8 ≤ valueSize) (hd : ¬ 8 ∣ valueSize) (n : Nat) :
    MapView.percpuTotal (n + 2) 8 (valueSize / 8) (spike valueSize) = 256 ^ (valueSize % 8) ∧
      (slotSum (n + 2) fun cpu i => spike valueSize (valueSize * cpu + i)) = 1 := by
  constructor
  · rw [MapView.percpuTotal, sum_range_only_one]
    · rw [readLe_spike, Nat.one_mul, if_pos (by omega), show valueSize - 8 * (valueSize / 8) = valueSize % 8 by omega]
      apply Nat.mod_eq_of_lt
      calc 256 ^ (valueSize % 8) ≤ 256 ^ 7 := Nat.pow_le_pow_right (by decide) (by omega)
        _ < 2 ^ (8 * 8) := by decide
    · rw [readLe_spike, if_neg (by omega)]
    · intro i
      have hfar : 2 * (valueSize / 8) ≤ (i + 2) * (valueSize / 8) := Nat.mul_le_mul_right _ (by omega)
      rw [readLe_spike, if_neg (by omega)]
  · simp only [slotSum, readLe_shift, Nat.add_zero]
    rw [sum_range_only_one]
    · rw [readLe_spike, Nat.mul_one, if_pos (by omega), Nat.sub_self]
      rfl
    · rw [readLe_spike, if_neg (by omega)]
    · intro i
      have hfar : valueSize * 2 ≤ valueSize * (i + 2) := Nat.mul_le_mul_left _ (by omega)
      rw [readLe_spike, if_neg (by omega)]

theorem spike_total_ne (h8 : 8 ≤ valueSize) (hd : ¬ 8 ∣ valueSize) (n : Nat) :
    MapView.percpuTotal (n + 2) 8 (valueSize / 8) (spike valueSize) ≠
      slotSum (n + 2) fun cpu i => spike valueSize (valueSize * cpu + i) := by
  obtain ⟨htotal, hsum⟩ := spike_totals h8 hd n
  rw [htotal, hsum]
  exact (Nat.one_lt_pow (fun h => hd (Nat.dvd_of_mod_eq_zero h)) (by decide)).ne'

def spikeVector (n p : Nat) : Vector UInt8 n := Vector.ofFn fun i => spike p i

theorem pointer_spikeVector {n p : Nat} (hp : p < n) (offset : Nat) :
    pointer (spikeVector n p) offset = fun i => spike p (offset + i) := by
  funext i
  by_cases h : offset + i < n
  · simp [pointer, ofList, spikeVector, h]
  · have hne : offset + i ≠ p := by omega
    simp [pointer, ofList, spikeVector, h, spike, hne]

/-! ## The exported numbers -/

theorem elemValue_percpu {v : MapView} (hpercpu : v.isPercpu = true) (h8 : 8 ≤ v.valueSize) (ncpu : Nat)
    (mem : Nat → UInt8) : v.elemValue ncpu mem = some (MapView.percpuTotal ncpu 8 (v.valueSize / 8) mem) := by
  rw [MapView.elemValue, if_pos h8, if_pos hpercpu]

section

variable (h8 : 8 ≤ valueSize)
include h8

theorem hash_entry_iff {m : HashMap keySize valueSize ncpu} {name k : Str} {e : Entry} :
    (k, e) ∈ (m.view name).entries ncpu ↔
      ∃ i < m.maxEntries.toNat, ∃ key slots, (m.view name).keyAfter none i = some key ∧ m.impl.lookup key = some slots ∧
        k = (m.view name).keyStr i key ∧
        e = ⟨MapView.percpuTotal ncpu 8 (valueSize / 8) (pointer slots 0), key.toList⟩ := by
  have hvalue (mem : Nat → UInt8) := elemValue_percpu (v := m.view name) rfl h8 ncpu mem
  refine (mem_walk (m := m.view name)).trans (exists_congr fun i => and_congr_right fun _ => exists_congr fun key => ?_)
  have hlookup : (m.view name).lookup key = (m.impl.lookup key).map fun slots => pointer slots 0 := rfl
  rw [MapView.keyEntry, hlookup, Nat.zero_add]
  cases m.impl.lookup key with
  | none => simp
  | some slots =>
    have hentry : (⟨((m.view name).elemValue ncpu (pointer slots 0)).getD 1, key.toList⟩ : Entry) =
        ⟨MapView.percpuTotal ncpu 8 (valueSize / 8) (pointer slots 0), key.toList⟩ := by
      rw [hvalue]
      rfl
    simp only [Option.map_some, Option.some.injEq, Prod.mk.injEq, hentry]
    constructor
    · rintro ⟨hkey, rfl, rfl⟩
      exact ⟨slots, hkey, rfl, rfl, rfl⟩
    · rintro ⟨slots', hkey, rfl, rfl, rfl⟩
      exact ⟨hkey, rfl, rfl⟩

theorem array_entry_iff {m : ArrayMap valueSize ncpu} {name k : Str} {e : Entry} :
    (k, e) ∈ (m.view name).entries ncpu ↔
      ∃ idx < m.maxEnt.toNat, e.value = MapView.percpuTotal ncpu 8 (valueSize / 8) (m.dataAt idx 0) ∧ e.value ≠ 0 ∧
        k = NumberStrings.toStr idx ∧ e.source = le 4 idx := by
  have hvalue (mem : Nat → UInt8) := elemValue_percpu (v := m.view name) rfl h8 ncpu mem
  refine (mem_arrayEntries (m := m.view name)).trans (exists_congr fun idx => and_congr_right fun hidx => ?_)
  have helem : (m.view name).elem idx = some (m.dataAt idx 0) := if_neg (Nat.not_le_of_lt hidx)
  rw [MapView.arrayValue, helem, Option.bind_some, hvalue, Option.filter_eq_some_iff, Option.some.injEq, eq_comm,
    decide_eq_true_iff, and_assoc]
  rfl

theorem hash_exports_sums (h : 8 ∣ valueSize ∨ ncpu ≤ 1) (m : HashMap keySize valueSize ncpu) (name : Str) :
    m.ExportsSums name := by
  intro k e he
  obtain ⟨i, -, key, slots, -, hlookup, -, rfl⟩ := (hash_entry_iff h8).mp he
  refine ⟨key, slots, hlookup, rfl, ?_⟩
  rw [percpuTotal_eq_slotSum _ h]
  simp only [pointer_add, Nat.zero_add]

theorem array_exports_sums (h : 8 ∣ valueSize ∨ ncpu ≤ 1) (m : ArrayMap valueSize ncpu) (name : Str) :
    m.ExportsSums name := by
  intro k e he
  obtain ⟨idx, hidx, hvalue, -, -, hsource⟩ := (array_entry_iff h8).mp he
  refine ⟨idx, hidx, hsource, ?_⟩
  rw [hvalue, percpuTotal_eq_slotSum _ h]
  simp only [ArrayMap.dataAt, pointer_add, Nat.zero_mul, Nat.add_zero, Nat.mul_comm valueSize]

end

def spikeHash (valueSize ncpu : Nat) : HashMap 8 valueSize ncpu :=
  ⟨1, AList.singleton (Vector.replicate 8 0) (spikeVector _ valueSize)⟩

def spikeArray (valueSize ncpu : Nat) : ArrayMap valueSize ncpu := ⟨1, spikeVector _ valueSize⟩

theorem second_slot_inside (h8 : 8 ≤ valueSize) (n : Nat) : valueSize < valueSize * (n + 2) := by
  have := Nat.mul_le_mul_left valueSize (show 2 ≤ n + 2 by omega)
  omega

theorem spikeHash_misses (h8 : 8 ≤ valueSize) (hd : ¬ 8 ∣ valueSize) (n : Nat) :
    ¬ (spikeHash valueSize (n + 2)).ExportsSums [] := by
  have hlookup (key : Vector UInt8 8) : (spikeHash valueSize (n + 2)).impl.lookup key =
      if key = Vector.replicate 8 0 then some (spikeVector _ valueSize) else none := by
    by_cases h : key = Vector.replicate 8 0
    · rw [if_pos h, h]
      exact List.dlookup_cons_eq _ _ _
    · rw [if_neg h]
      exact List.dlookup_cons_ne _ _ h
  intro hsums
  obtain ⟨key, slots, hkey, -, hvalue⟩ := hsums _ _ ((hash_entry_iff h8).mpr
    ⟨0, Nat.one_pos, Vector.replicate 8 0, spikeVector _ valueSize, rfl, (hlookup _).trans (if_pos rfl), rfl, rfl⟩)
  rw [hlookup, Option.ite_none_right_eq_some, Option.some.injEq] at hkey
  obtain ⟨-, rfl⟩ := hkey
  have hinside := second_slot_inside h8 n
  simp only [pointer_spikeVector hinside, Nat.zero_add] at hvalue
  exact spike_total_ne h8 hd n hvalue

theorem spikeArray_misses (h8 : 8 ≤ valueSize) (hd : ¬ 8 ∣ valueSize) (n : Nat) :
    ¬ (spikeArray valueSize (n + 2)).ExportsSums [] := by
  have hinside : valueSize < (1 : BitVec 32).toNat * (n + 2) * valueSize := by
    have := second_slot_inside h8 n
    rw [Nat.mul_comm valueSize] at this
    simpa using this
  have hdata (cpu : Nat) :
    (spikeArray valueSize (n + 2)).dataAt 0 cpu = fun i => spike valueSize (valueSize * cpu + i) := by
    rw [ArrayMap.dataAt, spikeArray, pointer_spikeVector hinside, Nat.zero_mul, Nat.zero_mul, Nat.zero_add,
      Nat.mul_comm cpu]
  have hdata0 : (spikeArray valueSize (n + 2)).dataAt 0 0 = spike valueSize := by
    rw [hdata]
    simp
  have hne : MapView.percpuTotal (n + 2) 8 (valueSize / 8) (spike valueSize) ≠ 0 := by
    rw [(spike_totals h8 hd n).1]
    exact (Nat.pow_pos (by decide)).ne'
  intro hsums
  obtain ⟨idx, hidx, -, hvalue⟩ := hsums _ ⟨_, _⟩ ((array_entry_iff h8).mpr
    ⟨0, Nat.one_pos, rfl, by rw [hdata0]; exact hne, rfl, rfl⟩)
  obtain rfl : idx = 0 := Nat.lt_one_iff.mp hidx
  rw [hdata0] at hvalue
  simp only [hdata] at hvalue
  exact spike_total_ne h8 hd n hvalue

theorem exact_of_spike {P : Nat → Prop} (hmiss : ∀ n, ¬ 8 ∣ valueSize → ¬ P (n + 2)) (h : P ncpu) :
    8 ∣ valueSize ∨ ncpu ≤ 1 := by
  by_contra hnot
  rw [not_or, not_le] at hnot
  obtain ⟨n, rfl⟩ := Nat.exists_eq_add_of_le' hnot.2
  exact hmiss n hnot.1 h

end PerCpu
