import Ubpftrace.HashMapVariants
import Ubpftrace.PerCpuMaps

/-!
# Updates and deletes of the per-CPU hash map

Programs call `elem_update` and `elem_delete`, user space `elem_update_userspace`,
`elem_delete_userspace` and `lookup_and_delete_userspace`, on one table. The checks
of flags and capacity stand in `elem_update_userspace` only, and the delete of a
program takes no key out of the table.
-/

namespace PerCpu

open HashMapVariants (Errno BPF_NOEXIST BPF_EXIST)
open Runs (Always)

variable {keySize valueSize ncpu : Nat}

/-- The upper half of the flags is left to operations of bpftime. -/
def checkUpdateFlags (flags : UInt64) : Bool :=
  let baseFlags := flags &&& 0xFFFFFFFF
  baseFlags = 0 ∨ baseFlags = 1 ∨ baseFlags = 2

namespace HashMap

variable (m : HashMap keySize valueSize ncpu)

def size : Nat := m.impl.keys.length

/-- `elem_update` on processor `cpu`, with its check of the flags. -/
def elemUpdateWithFlags (cpu : Nat) (key : Vector UInt8 keySize) (value : Vector UInt8 valueSize) (flags : UInt64) :
    Option Errno × HashMap keySize valueSize ncpu :=
  if !checkUpdateFlags flags then (some .EINVAL, m) else (none, m.elemUpdate cpu key value)

/-- `std::fill` over the bytes before an offset. -/
def fillBefore {n : Nat} (bytes : Vector UInt8 n) (offset : Nat) : Vector UInt8 n :=
  Vector.ofFn fun i => if i < offset then 0 else bytes.get i

/-- `elem_delete` on processor `cpu`, which always returns zero: the slots of the processors
before it are filled with zeros. -/
def elemDelete (cpu : Nat) (key : Vector UInt8 keySize) : HashMap keySize valueSize ncpu :=
  match m.impl.lookup key with
  | some slots => { m with impl := m.impl.replace key (fillBefore slots (cpu * valueSize)) }
  | none => m

def insertOrAssign (key : Vector UInt8 keySize) (slots : Slots valueSize ncpu) : HashMap keySize valueSize ncpu :=
  if key ∈ m.impl then { m with impl := m.impl.replace key slots } else { m with impl := m.impl.insert key slots }

def elemUpdateUserspace (key : Vector UInt8 keySize) (slots : Slots valueSize ncpu) (flags : UInt64) :
    Option Errno × HashMap keySize valueSize ncpu :=
  if !checkUpdateFlags flags then (some .EINVAL, m)
  else if flags = BPF_NOEXIST ∧ key ∈ m.impl then (some .EEXIST, m)
  else if flags = BPF_EXIST ∧ key ∉ m.impl then (some .ENOENT, m)
  else if key ∉ m.impl ∧ m.size = m.maxEntries.toNat then (some .E2BIG, m)
  else (none, m.insertOrAssign key slots)

def elemDeleteUserspace (key : Vector UInt8 keySize) : Option Errno × HashMap keySize valueSize ncpu :=
  if key ∈ m.impl then (none, { m with impl := m.impl.erase key }) else (some .ENOENT, m)

/-- The value that is copied out, or an error. -/
def lookupAndDeleteUserspace (key : Vector UInt8 keySize) :
    Except Errno (Slots valueSize ncpu) × HashMap keySize valueSize ncpu :=
  match m.impl.lookup key with
  | some slots => (.ok slots, { m with impl := m.impl.erase key })
  | none => (.error .ENOENT, m)

end HashMap

inductive Call (keySize valueSize ncpu : Nat) where
  | update (cpu : Nat) (key : Vector UInt8 keySize) (value : Vector UInt8 valueSize) (flags : UInt64)
  | delete (cpu : Nat) (key : Vector UInt8 keySize)
  | updateUserspace (key : Vector UInt8 keySize) (slots : Slots valueSize ncpu) (flags : UInt64)
  | deleteUserspace (key : Vector UInt8 keySize)
  | lookupAndDelete (key : Vector UInt8 keySize)

def step (m : HashMap keySize valueSize ncpu) : Call keySize valueSize ncpu →
    Option Errno × HashMap keySize valueSize ncpu
  | .update cpu key value flags => m.elemUpdateWithFlags cpu key value flags
  | .delete cpu key => (none, m.elemDelete cpu key)
  | .updateUserspace key slots flags => m.elemUpdateUserspace key slots flags
  | .deleteUserspace key => m.elemDeleteUserspace key
  | .lookupAndDelete key =>
    match m.lookupAndDeleteUserspace key with
    | (.ok _, m) => (none, m)
    | (.error e, m) => (some e, m)

/-! ## Deletes -/

/-- No lookup on any processor or from user space finds the key, and no iteration comes to it. -/
structure Absent (m : HashMap keySize valueSize ncpu) (key : Vector UInt8 keySize) : Prop where
  lookup : ∀ cpu, m.elemLookup cpu key = none
  lookupUserspace : m.elemLookupUserspace key = none
  nextKey : ∀ previous, m.mapGetNextKey previous ≠ some key

section Deletes

variable (m : HashMap keySize valueSize ncpu) (key : Vector UInt8 keySize)

theorem absent_iff : Absent m key ↔ key ∉ m.impl := by
  constructor
  · intro h hmem
    have hsome := AList.lookup_isSome.mpr hmem
    have hnone := h.lookupUserspace
    rw [HashMap.elemLookupUserspace, Option.map_eq_none_iff] at hnone
    rw [hnone] at hsome
    cases hsome
  · intro h
    have hnone : m.impl.lookup key = none := AList.lookup_eq_none.mpr h
    refine ⟨fun cpu => by rw [HashMap.elemLookup, hnone]; rfl, by rw [HashMap.elemLookupUserspace, hnone]; rfl, ?_⟩
    intro previous hnext
    have hmem : key ∈ m.impl.keys := by
      cases previous with
      | none => exact List.mem_of_mem_head? hnext
      | some k =>
        rw [HashMap.mapGetNextKey] at hnext
        split_ifs at hnext
        · exact (List.dropWhile_sublist _).subset (List.mem_of_mem_tail (List.mem_of_mem_head? hnext))
        · exact List.mem_of_mem_head? hnext
    exact h hmem

theorem keys_elemDelete (cpu : Nat) : (m.elemDelete cpu key).impl.keys = m.impl.keys := by
  rw [HashMap.elemDelete]
  split
  · exact AList.keys_replace _ _ _
  · rfl

theorem absent_elemDeleteUserspace : Absent (m.elemDeleteUserspace key).2 key := by
  rw [absent_iff, HashMap.elemDeleteUserspace]
  split_ifs with h
  · simp
  · exact h

/-- The delete from user space leaves the key absent. The delete of a program does, and leaves
the same map, exactly if the key was absent before. -/
theorem helper_delete_iff (cpu : Nat) :
    Absent (m.elemDeleteUserspace key).2 key ∧
      (Absent (m.elemDelete cpu key) key ∧ m.elemDelete cpu key = (m.elemDeleteUserspace key).2 ↔ key ∉ m.impl) := by
  refine ⟨absent_elemDeleteUserspace m key, ?_⟩
  constructor
  · rintro ⟨habsent, -⟩ hmem
    refine (absent_iff _ _).mp habsent ?_
    change key ∈ (m.elemDelete cpu key).impl.keys
    rwa [keys_elemDelete]
  · intro h
    have hnone : m.impl.lookup key = none := AList.lookup_eq_none.mpr h
    have hsame : m.elemDelete cpu key = m := by rw [HashMap.elemDelete, hnone]
    rw [hsame, HashMap.elemDeleteUserspace, if_neg h]
    exact ⟨(absent_iff m key).mpr h, rfl⟩

end Deletes

/-- A key that is deleted on the first processor is still there, with its value. -/
theorem deleted_key_still_found :
    let m := ((⟨4, ∅⟩ : HashMap 1 1 2).elemUpdate 0 #v[7] #v[5]).elemDelete 0 #v[7]
    (m.elemLookup 0 #v[7]).map (fun slot => slot 0) = some 5 ∧ m.mapGetNextKey none = some #v[7] := by
  decide +kernel

/-! ## Flags and capacity -/

/-- What the flags and the capacity of the map demand of an update. -/
def HashMap.verdict (m : HashMap keySize valueSize ncpu) (key : Vector UInt8 keySize) (flags : UInt64) : Option Errno :=
  if !checkUpdateFlags flags then some .EINVAL
  else if flags = BPF_NOEXIST ∧ key ∈ m.impl then some .EEXIST
  else if flags = BPF_EXIST ∧ key ∉ m.impl then some .ENOENT
  else if key ∉ m.impl ∧ m.maxEntries.toNat ≤ m.size then some .E2BIG
  else none

/-- An update is answered by the verdict, on whichever path it comes, and the call leaves no
more keys than there is room for. -/
def Honoured (m : HashMap keySize valueSize ncpu) (c : Call keySize valueSize ncpu) : Prop :=
  (step m c).2.size ≤ m.maxEntries.toNat ∧
    match c with
    | .update _ key _ flags | .updateUserspace key _ flags => (step m c).1 = m.verdict key flags
    | .delete _ _ | .deleteUserspace _ | .lookupAndDelete _ => True

/-- An update of a program that the flags and the capacity allow, unless its flags are invalid. -/
def Allowed (m : HashMap keySize valueSize ncpu) : Call keySize valueSize ncpu → Prop
  | .update _ key _ flags =>
    checkUpdateFlags flags → (flags = BPF_NOEXIST → key ∉ m.impl) ∧ (flags = BPF_EXIST → key ∈ m.impl) ∧
      (key ∉ m.impl → m.size < m.maxEntries.toNat)
  | .delete _ _ | .updateUserspace _ _ _ | .deleteUserspace _ | .lookupAndDelete _ => True

section Updates

variable (m : HashMap keySize valueSize ncpu) (key : Vector UInt8 keySize) {flags : UInt64}
    {value : Vector UInt8 valueSize}

theorem length_keys_insert {m : HashMap keySize valueSize ncpu} {key : Vector UInt8 keySize} (hmem : key ∉ m.impl)
    (slots : Slots valueSize ncpu) : (m.impl.insert key slots).keys.length = m.impl.keys.length + 1 := by
  rw [AList.keys, AList.entries_insert_of_notMem hmem]
  rfl

theorem size_elemUpdate (cpu : Nat) (value : Vector UInt8 valueSize) :
    (m.elemUpdate cpu key value).size = m.size + if key ∈ m.impl then 0 else 1 := by
  rw [HashMap.elemUpdate]
  cases hlookup : m.impl.lookup key with
  | some slots =>
    have hmem : key ∈ m.impl := AList.lookup_isSome.mp (hlookup ▸ rfl)
    simp [HashMap.size, hmem]
  | none =>
    have hmem : key ∉ m.impl := AList.lookup_eq_none.mp hlookup
    simp only [HashMap.size, if_neg hmem]
    exact length_keys_insert hmem _

theorem size_insertOrAssign (slots : Slots valueSize ncpu) :
    (m.insertOrAssign key slots).size = m.size + if key ∈ m.impl then 0 else 1 := by
  rw [HashMap.insertOrAssign]
  split_ifs with hmem
  · simp [HashMap.size]
  · exact length_keys_insert hmem _

theorem size_erase_le : (m.impl.erase key).keys.length ≤ m.size := by
  have hsub : (m.impl.erase key).entries.Sublist m.impl.entries := List.kerase_sublist key m.impl.entries
  exact (hsub.map Sigma.fst).length_le

theorem maxEntries_step (c : Call keySize valueSize ncpu) : (step m c).2.maxEntries = m.maxEntries := by
  cases c with
  | update cpu key value flags =>
    simp only [step, HashMap.elemUpdateWithFlags, HashMap.elemUpdate]
    split_ifs
    · rfl
    · split <;> rfl
  | delete cpu key =>
    simp only [step, HashMap.elemDelete]
    split <;> rfl
  | updateUserspace key slots flags =>
    simp only [step, HashMap.elemUpdateUserspace, HashMap.insertOrAssign]
    split_ifs <;> rfl
  | deleteUserspace key =>
    simp only [step, HashMap.elemDeleteUserspace]
    split_ifs <;> rfl
  | lookupAndDelete key =>
    simp only [step, HashMap.lookupAndDeleteUserspace]
    cases m.impl.lookup key <;> rfl

theorem elemUpdateUserspace_eq (hsize : m.size ≤ m.maxEntries.toNat) (slots : Slots valueSize ncpu) (flags : UInt64) :
    m.elemUpdateUserspace key slots flags =
      match m.verdict key flags with
      | some e => (some e, m)
      | none => (none, m.insertOrAssign key slots) := by
  have hfull : m.size = m.maxEntries.toNat ↔ m.maxEntries.toNat ≤ m.size := by omega
  simp only [HashMap.elemUpdateUserspace, HashMap.verdict, hfull]
  split_ifs <;> rfl

/-- The verdict allows a new key only where there is room for it. -/
theorem room_of_verdict (h : m.verdict key flags = none) : key ∈ m.impl ∨ m.size < m.maxEntries.toNat := by
  rw [HashMap.verdict] at h
  split_ifs at h with _ _ _ hroom
  by_cases hmem : key ∈ m.impl
  · exact .inl hmem
  · exact .inr (Nat.lt_of_not_le fun hle => hroom ⟨hmem, hle⟩)

theorem verdict_eq_of_allowed {cpu : Nat} (h : Allowed m (.update cpu key value flags)) :
    m.verdict key flags = if checkUpdateFlags flags then none else some .EINVAL := by
  rw [HashMap.verdict]
  by_cases hflags : checkUpdateFlags flags
  · obtain ⟨hno, hex, hroom⟩ := h hflags
    have hroom' : ¬ (key ∉ m.impl ∧ m.maxEntries.toNat ≤ m.size) := fun hfull => by
      have := hroom hfull.1
      omega
    rw [if_neg (by simp [hflags]), if_neg fun hboth => hno hboth.1 hboth.2, if_neg fun hboth => hboth.2 (hex hboth.1),
      if_neg hroom', if_pos hflags]
  · simp [hflags]

theorem allowed_of_verdict {cpu : Nat} (h : (step m (.update cpu key value flags)).1 = m.verdict key flags) :
    Allowed m (.update cpu key value flags) := by
  intro hflags
  have hnone : m.verdict key flags = none := by
    rw [← h]
    simp [step, HashMap.elemUpdateWithFlags, hflags]
  have hroom := room_of_verdict m key hnone
  rw [HashMap.verdict] at hnone
  split_ifs at hnone with hbad hno hex hfull
  exact ⟨fun hf hmem => hno ⟨hf, hmem⟩, fun hf => by_contra fun hmem => hex ⟨hf, hmem⟩, hroom.resolve_left⟩

/-- One call keeps the bound and the verdict, if a program's update is allowed. -/
theorem honoured_of_allowed {c : Call keySize valueSize ncpu} (hsize : m.size ≤ m.maxEntries.toNat)
    (h : Allowed m c) : Honoured m c := by
  have hgrow (key : Vector UInt8 keySize) (hroom : key ∈ m.impl ∨ m.size < m.maxEntries.toNat) :
      m.size + (if key ∈ m.impl then 0 else 1) ≤ m.maxEntries.toNat := by
    split_ifs with hmem
    · exact hsize
    · exact hroom.resolve_left hmem
  cases c with
  | update cpu key value flags =>
    have hverdict := verdict_eq_of_allowed m key h
    by_cases hflags : checkUpdateFlags flags
    · rw [if_pos hflags] at hverdict
      have hstep : step m (.update cpu key value flags) = (none, m.elemUpdate cpu key value) := by
        simp [step, HashMap.elemUpdateWithFlags, hflags]
      rw [Honoured, hstep, hverdict, size_elemUpdate]
      exact ⟨hgrow key (room_of_verdict m key hverdict), rfl⟩
    · have hstep : step m (.update cpu key value flags) = (some .EINVAL, m) := by
        simp [step, HashMap.elemUpdateWithFlags, hflags]
      rw [Honoured, hstep, hverdict, if_neg hflags]
      exact ⟨hsize, rfl⟩
  | delete cpu key =>
    refine ⟨?_, trivial⟩
    rw [step, HashMap.size, keys_elemDelete]
    exact hsize
  | updateUserspace key slots flags =>
    rw [Honoured, step, elemUpdateUserspace_eq m key hsize]
    cases hverdict : m.verdict key flags with
    | some e => exact ⟨hsize, rfl⟩
    | none =>
      refine ⟨?_, rfl⟩
      rw [size_insertOrAssign]
      exact hgrow key (room_of_verdict m key hverdict)
  | deleteUserspace key =>
    refine ⟨?_, trivial⟩
    rw [step, HashMap.elemDeleteUserspace]
    split_ifs
    · exact (size_erase_le m key).trans hsize
    · exact hsize
  | lookupAndDelete key =>
    refine ⟨?_, trivial⟩
    simp only [step, HashMap.lookupAndDeleteUserspace]
    cases m.impl.lookup key with
    | none => exact hsize
    | some slots => exact (size_erase_le m key).trans hsize

end Updates

/-- From an empty map on, all calls keep to the bound and every update is answered by its flags
and the capacity alone, exactly if programs make only updates that these allow. -/
theorem updates_honoured_iff (keySize valueSize ncpu : Nat) (maxEntries : BitVec 32)
    (calls : List (Call keySize valueSize ncpu)) :
    Always step Honoured ⟨maxEntries, ∅⟩ calls ↔ Always step Allowed ⟨maxEntries, ∅⟩ calls := by
  constructor
  · refine Always.imp (fun _ => True) (fun m c _ h => ⟨?_, trivial⟩) trivial
    cases c with
    | update cpu key value flags => exact allowed_of_verdict m key h.2
    | delete _ _ | updateUserspace _ _ _ | deleteUserspace _ | lookupAndDelete _ => trivial
  · refine Always.imp (fun m => m.size ≤ m.maxEntries.toNat) (fun m c hsize h => ?_) (Nat.zero_le _)
    have hc := honoured_of_allowed m hsize h
    refine ⟨hc, ?_⟩
    rw [maxEntries_step]
    exact hc.1

/-- Two updates of a program in a map of one entry, the second with `BPF_EXIST` for a key that
is not there. -/
theorem update_beyond_capacity :
    let calls : List (Call 1 1 1) := [.update 0 #v[1] #v[5] 0, .update 0 #v[2] #v[5] BPF_EXIST]
    let m := Runs.after step ⟨1, ∅⟩ calls
    m.size = 2 ∧ m.maxEntries = 1 ∧ (Runs.trace step ⟨1, ∅⟩ calls).map Prod.snd = [none, none] := by
  decide +kernel

end PerCpu
