import Ubpftrace.HashMapVariants
import Ubpftrace.KeyWalks

/-!
# The walk over the keys of the hash map of fixed size

`map_get_next_key` of `fix_hash_map.cpp` looks the last key up, takes the index of its
bucket from the pointer to the value, and scans on behind it. A value of no bytes ends
where its bucket ends: its pointer is the one to the next bucket.
-/

namespace BpftimeHashMap

variable {ks vs : Nat}

def getElemOffset (_m : BpftimeHashMap ks vs) (index : Nat) : Nat := index * (4 + ks + vs)

/-- The pointer as an offset into the data buffer. -/
def getValue (m : BpftimeHashMap ks vs) (index : Nat) : Nat := m.getElemOffset index + 4 + ks

variable (m : BpftimeHashMap ks vs)

def isEmpty (index : Nat) : Bool := (m.buckets index).state ≠ .filled

def getIndexOfValue (value : Nat) : Int :=
  if value ≥ m.numBuckets * (4 + ks + vs) then -1 else (value / (4 + ks + vs) : Nat)

/-- The loop of `elem_lookup` with the pointer that it returns. -/
def elemLookupPtrLoop (key : Key ks) : List Nat → Option Nat
  | [] => none
  | index :: rest =>
    if (m.buckets index).state = .empty then none
    else if (m.buckets index).state = .filled ∧ (m.buckets index).key = key then some (m.getValue index)
    else elemLookupPtrLoop key rest

def elemLookupPtr (key : Key ks) : Option Nat := m.elemLookupPtrLoop key (m.probes key)

theorem elemLookupPtrLoop_eq (key : Key ks) (is : List Nat) :
    m.elemLookupPtrLoop key is = (m.found key is).map m.getValue := by
  induction is with
  | nil => rfl
  | cons i is ih =>
    simp only [elemLookupPtrLoop, found_cons, slots, slot_eq_empty_iff, slot_eq_filled_iff]
    split
    · rfl
    split
    · rfl
    · exact ih

variable {m}

theorem getIndexOfValue_getValue (hvs : 0 < vs) {i : Nat} (hi : i < m.numBuckets) :
    m.getIndexOfValue (m.getValue i) = i := by
  have hend : (i + 1) * (4 + ks + vs) ≤ m.numBuckets * (4 + ks + vs) := Nat.mul_le_mul_right _ hi
  rw [Nat.succ_mul] at hend
  have hdiv : m.getValue i / (4 + ks + vs) = i := by
    rw [getValue, getElemOffset, Nat.add_assoc, Nat.mul_comm, Nat.mul_add_div (by omega),
      Nat.div_eq_of_lt (by omega), Nat.add_zero]
  rw [getIndexOfValue, if_neg (by simp only [getValue, getElemOffset]; omega), hdiv]

/-- With values of no bytes the pointer leads to the next bucket, or out of the buffer. -/
theorem getIndexOfValue_getValue_zero (m : BpftimeHashMap ks 0) (i : Nat) :
    m.getIndexOfValue (m.getValue i) = if i + 1 < m.numBuckets then ((i + 1 : Nat) : Int) else -1 := by
  have hnext : m.getValue i = (i + 1) * (4 + ks + 0) := by
    rw [getValue, getElemOffset, Nat.succ_mul]
    omega
  rw [getIndexOfValue, hnext, Nat.mul_div_cancel _ (by omega)]
  by_cases hin : i + 1 < m.numBuckets
  · rw [if_pos hin, if_neg (Nat.not_le.mpr (Nat.mul_lt_mul_of_pos_right hin (by omega)))]
  · rw [if_neg hin, if_pos (Nat.mul_le_mul_right _ (Nat.le_of_not_lt hin))]

end BpftimeHashMap

namespace HashMapVariants.FixSizeHashMap

open BpftimeHashMap (Key Value Refines slot_eq_filled_iff)
open KeyWalks
open Runs (after)

variable {ks vs : Nat} (m : FixSizeHashMap ks vs)

/-- The loop over the buckets from `start` on. -/
def firstKeyFrom (start : Nat) : Except Errno (Key ks) :=
  scan (fun i => (m.mapImpl.buckets i).key) .ENOENT m.mapImpl.numBuckets (fun i => !m.mapImpl.isEmpty i) start

/-- `map_get_next_key`; no key stands for a null pointer. -/
def mapGetNextKey : Option (Key ks) → Except Errno (Key ks)
  | none => m.firstKeyFrom 0
  | some key =>
    match m.mapImpl.elemLookupPtr key with
    | none => m.firstKeyFrom 0
    | some valuePtr => m.firstKeyFrom (m.mapImpl.getIndexOfValue valuePtr + 1).toNat

variable {m}

theorem refines_after (n ks vs : Nat) (calls : List (Call ks vs)) :
    ∃ a : BoundedMap (Key ks) (Value vs) n, Refines (after step (init n ks vs) calls).mapImpl a := by
  induction calls using List.reverseRecOn with
  | nil => exact ⟨_, BpftimeHashMap.refines_init n⟩
  | append_singleton calls c ih =>
    obtain ⟨a, ha⟩ := ih
    rw [Runs.after_append]
    cases c with
    | lookup k => exact ⟨a, ha⟩
    | update k v flags => exact ⟨_, (ha.elemUpdate k v).2⟩
    | delete k => exact ⟨_, (ha.elemDelete k).2⟩

section Walk

variable {n : Nat} {a : BoundedMap (Key ks) (Value vs) n} (h : Refines m.mapImpl a)
include h

section

variable {i : Nat} (hi : i < m.mapImpl.numBuckets) (hf : (m.mapImpl.buckets i).state = .filled)
include hi hf

theorem elemLookupPtr_key :
    m.mapImpl.elemLookupPtr (m.mapImpl.buckets i).key = some (m.mapImpl.getValue i) := by
  have hhit := h.probed.hit_eq_some_iff.mpr ⟨hi, (slot_eq_filled_iff _ _).mpr ⟨hf, rfl⟩⟩
  rw [BpftimeHashMap.elemLookupPtr, BpftimeHashMap.elemLookupPtrLoop_eq, BpftimeHashMap.found_probes h.probed, hhit]
  rfl

theorem mapGetNextKey_key :
    m.mapGetNextKey (some (m.mapImpl.buckets i).key) =
      m.firstKeyFrom (m.mapImpl.getIndexOfValue (m.mapImpl.getValue i) + 1).toNat := by
  rw [mapGetNextKey, elemLookupPtr_key h hi hf]

end

theorem elemLookup_isSome_iff (k : Key ks) :
    (m.elemLookup k).isSome ↔ ∃ i < m.mapImpl.numBuckets, (!m.mapImpl.isEmpty i) = true ∧
      (m.mapImpl.buckets i).key = k := by
  rw [elemLookup, h.elemLookup_eq, BoundedMap.lookup, Finmap.lookup_isSome, h.mem_iff]
  simp [BpftimeHashMap.slots, slot_eq_filled_iff, BpftimeHashMap.isEmpty]

theorem firstKeyFrom_eq_key {start i : Nat} (hi : i < m.mapImpl.numBuckets)
    (hf : (m.mapImpl.buckets i).state = .filled) (heq : m.firstKeyFrom start = .ok (m.mapImpl.buckets i).key) :
    start ≤ i ∧ ∀ j, start ≤ j → j < i → (m.mapImpl.buckets j).state ≠ .filled := by
  rw [firstKeyFrom, scan] at heq
  split at heq
  · next j hfirst =>
    obtain ⟨hs, hj, hp, hno⟩ := firstFrom_eq_some.mp hfirst
    have hjf : (m.mapImpl.buckets j).state = .filled := by simpa [BpftimeHashMap.isEmpty] using hp
    -- the key that was found stands in one bucket only
    obtain rfl : j = i := h.probed.distinct j hj i hi _ ((slot_eq_filled_iff _ _).mpr ⟨hjf, Except.ok.inj heq⟩)
      ((slot_eq_filled_iff _ _).mpr ⟨hf, rfl⟩)
    exact ⟨hs, fun l hl hlj => by simpa [BpftimeHashMap.isEmpty] using hno l hl hlj⟩
  · cases heq

/-- If each scan finds what a scan behind the bucket finds, the walk is right. -/
theorem enumerates_of_resume
    (hresume : ∀ i < m.mapImpl.numBuckets, (m.mapImpl.buckets i).state = .filled →
      m.firstKeyFrom (m.mapImpl.getIndexOfValue (m.mapImpl.getValue i) + 1).toNat = m.firstKeyFrom (i + 1)) :
    Enumerates m.mapGetNextKey .ENOENT fun k => (m.elemLookup k).isSome := by
  have hfilled : ∀ i, (!m.mapImpl.isEmpty i) = true ↔ (m.mapImpl.buckets i).state = .filled := by
    simp [BpftimeHashMap.isEmpty]
  have hwalk : Enumerates m.mapGetNextKey .ENOENT _ :=
    enumerates_taken (p := fun i => !m.mapImpl.isEmpty i) (fun i => (m.mapImpl.buckets i).key) rfl
      (fun i hi hp => (mapGetNextKey_key h hi ((hfilled i).mp hp)).trans (hresume i hi ((hfilled i).mp hp)))
      (fun i hi j hj hip hjp heq => h.probed.distinct i hi j hj _
        ((slot_eq_filled_iff _ _).mpr ⟨(hfilled i).mp hip, heq⟩)
          ((slot_eq_filled_iff _ _).mpr ⟨(hfilled j).mp hjp, rfl⟩))
  simpa only [elemLookup_isSome_iff h] using hwalk

end Walk

/-- With values of no bytes the walk is right as long as it has nothing to pass over:
behind each filled bucket stands one that is not. -/
theorem enumerates_iff_spaced {ks n : Nat} {m : FixSizeHashMap ks 0} {a : BoundedMap (Key ks) (Value 0) n}
    (h : Refines m.mapImpl a) :
    Enumerates m.mapGetNextKey .ENOENT (fun k => (m.elemLookup k).isSome) ↔
      ∀ i < m.mapImpl.numBuckets, (m.mapImpl.buckets i).state = .filled →
        i + 1 < m.mapImpl.numBuckets ∧ (m.mapImpl.buckets (i + 1)).state ≠ .filled := by
  have hlive : ∀ i < m.mapImpl.numBuckets, (m.mapImpl.buckets i).state = .filled →
      ((m.elemLookup (m.mapImpl.buckets i).key).isSome = true) := fun i hi hf =>
    (elemLookup_isSome_iff h _).mpr ⟨i, hi, by simpa [BpftimeHashMap.isEmpty] using hf, rfl⟩
  constructor
  · intro henum
    -- a filled bucket is not the last one: from there the walk would begin again
    have hlast : ∀ i < m.mapImpl.numBuckets, (m.mapImpl.buckets i).state = .filled → i + 1 < m.mapImpl.numBuckets := by
      intro i hi hf
      by_contra hout
      have hback : m.mapGetNextKey (some (m.mapImpl.buckets i).key) = m.mapGetNextKey none := by
        rw [mapGetNextKey_key h hi hf, BpftimeHashMap.getIndexOfValue_getValue_zero, if_neg hout]
        rfl
      obtain ⟨k, hk⟩ := henum.first (hlive i hi hf)
      exact henum.next_ne_first hk (hlive i hi hf) (hback.trans hk)
    -- of the first two neighbours the second is not reached
    have hfree : ∀ i, i + 1 < m.mapImpl.numBuckets → (m.mapImpl.buckets i).state = .filled →
        (m.mapImpl.buckets (i + 1)).state ≠ .filled := by
      intro i
      induction i using Nat.strongRecOn with
      | ind i ih =>
        intro hi hf hf'
        rcases henum.reached (hlive (i + 1) hi hf') with hok | ⟨k, hk, hok⟩
        · exact (firstKeyFrom_eq_key h hi hf' hok).2 i (Nat.zero_le i) (by omega) hf
        · obtain ⟨b, hb, hbf, rfl⟩ := (elemLookup_isSome_iff h k).mp hk
          have hbf : (m.mapImpl.buckets b).state = .filled := by simpa [BpftimeHashMap.isEmpty] using hbf
          rw [mapGetNextKey_key h hb hbf, BpftimeHashMap.getIndexOfValue_getValue_zero, if_pos (hlast b hb hbf)] at hok
          obtain ⟨hle, hno⟩ := firstKeyFrom_eq_key h hi hf' hok
          have hover : ¬ (b + 2 ≤ i) := fun hin => hno i (by omega) (by omega) hf
          obtain rfl : i = b + 1 := by omega
          exact ih b (by omega) (by omega) hbf hf
    exact fun i hi hf => ⟨hlast i hi hf, hfree i (hlast i hi hf) hf⟩
  · intro hspaced
    refine enumerates_of_resume h fun i hi hf => ?_
    obtain ⟨hin, hfree⟩ := hspaced i hi hf
    have hskip :=
      firstFrom_of_not (p := fun i => !m.mapImpl.isEmpty i) hin (by simpa [BpftimeHashMap.isEmpty] using hfree)
    rw [BpftimeHashMap.getIndexOfValue_getValue_zero, if_pos hin, firstKeyFrom, firstKeyFrom, scan, scan, hskip]
    rfl

end HashMapVariants.FixSizeHashMap
