import Ubpftrace.BpftimeHashMap

/-!
# The two implementations of `BPF_MAP_TYPE_HASH`

`hash_map_impl` is `fix_size_hash_map_impl` or, with `BPFTIME_USE_VAR_HASH_MAP`,
`var_size_hash_map_impl`. The first hands every call to the hash map of fixed
size, drops the flags and the result, and returns zero; the second checks flags,
permissions and room. They agree on the calls that the second accepts, and on no
others.
-/

namespace HashMapVariants

open BoundedMap
open BpftimeHashMap (Key Value Refines)

abbrev BPF_ANY : UInt64 := 0
abbrev BPF_NOEXIST : UInt64 := 1
abbrev BPF_EXIST : UInt64 := 2

abbrev BPF_F_RDONLY : UInt32 := 8
abbrev BPF_F_WRONLY : UInt32 := 16

theorem updateFlags_distinct : BPF_ANY ≠ BPF_NOEXIST ∧ BPF_ANY ≠ BPF_EXIST ∧ BPF_EXIST ≠ BPF_NOEXIST := by decide

inductive Errno where
  | EPERM
  | ENOENT
  | E2BIG
  | EEXIST
  | EINVAL
  deriving DecidableEq

inductive Call (ks vs : Nat) where
  | lookup (key : Key ks)
  | update (key : Key ks) (value : Value vs) (flags : UInt64)
  | delete (key : Key ks)
  deriving DecidableEq

/-- A pointer to a value or null, or a code. -/
inductive Answer (vs : Nat) where
  | pointer (value : Option (Value vs))
  | code (c : Int)
  deriving DecidableEq

variable {ks vs : Nat}

structure FixSizeHashMap (ks vs : Nat) where
  mapImpl : BpftimeHashMap ks vs

namespace FixSizeHashMap

def init (numBuckets ks vs : Nat) : FixSizeHashMap ks vs := ⟨.init numBuckets ks vs⟩

def elemLookup (m : FixSizeHashMap ks vs) (key : Key ks) : Option (Value vs) := m.mapImpl.elemLookup key

def elemUpdate (m : FixSizeHashMap ks vs) (key : Key ks) (value : Value vs) (_flags : UInt64) :
    Int × FixSizeHashMap ks vs :=
  (0, ⟨(m.mapImpl.elemUpdate key value).2⟩)

def elemDelete (m : FixSizeHashMap ks vs) (key : Key ks) : Int × FixSizeHashMap ks vs :=
  (0, ⟨(m.mapImpl.elemDelete key).2⟩)

def step (m : FixSizeHashMap ks vs) : Call ks vs → Answer vs × FixSizeHashMap ks vs
  | .lookup k => (.pointer (m.elemLookup k), m)
  | .update k v flags => (m.elemUpdate k v flags).map .code id
  | .delete k => (m.elemDelete k).map .code id

/-- The pair stands in a filled bucket. -/
def Holds (m : FixSizeHashMap ks vs) (key : Key ks) (value : Value vs) : Prop :=
  ∃ i < m.mapImpl.numBuckets, (m.mapImpl.buckets i).state = .filled ∧ (m.mapImpl.buckets i).key = key ∧
    (m.mapImpl.buckets i).value = value

end FixSizeHashMap

structure VarSizeHashMap (ks vs : Nat) where
  mapImpl : Finmap fun _ : Key ks => Value vs
  maxEntries : Nat
  flags : UInt32

namespace VarSizeHashMap

def init (ks vs maxEntries : Nat) (flags : UInt32) : VarSizeHashMap ks vs := ⟨∅, maxEntries, flags⟩

def isGoodUpdateFlag (flags : UInt64) : Bool := flags = BPF_ANY ∨ flags = BPF_EXIST ∨ flags = BPF_NOEXIST

def elemLookup (m : VarSizeHashMap ks vs) (key : Key ks) : Option (Value vs) × Option Errno :=
  if m.flags &&& BPF_F_WRONLY ≠ 0 then (none, some .EPERM)
  else
    match m.mapImpl.lookup key with
    | some value => (some value, none)
    | none => (none, some .ENOENT)

def elemUpdate (m : VarSizeHashMap ks vs) (key : Key ks) (value : Value vs) (flags : UInt64) :
    (Int × Option Errno) × VarSizeHashMap ks vs :=
  if !isGoodUpdateFlag flags then ((-1, some .EINVAL), m)
  else if flags = BPF_NOEXIST ∧ key ∈ m.mapImpl then ((-1, some .EEXIST), m)
  else if flags = BPF_EXIST ∧ key ∉ m.mapImpl then ((-1, some .ENOENT), m)
  else if key ∉ m.mapImpl ∧ m.mapImpl.keys.card = m.maxEntries then ((-1, some .E2BIG), m)
  else if key ∉ m.mapImpl ∧ m.flags &&& BPF_F_RDONLY ≠ 0 then ((-1, some .EPERM), m)
  else ((0, none), { m with mapImpl := m.mapImpl.insert key value })

def elemDelete (m : VarSizeHashMap ks vs) (key : Key ks) : (Int × Option Errno) × VarSizeHashMap ks vs :=
  if key ∉ m.mapImpl then ((-1, some .ENOENT), m)
  else ((0, none), { m with mapImpl := m.mapImpl.erase key })

def step (m : VarSizeHashMap ks vs) : Call ks vs → Answer vs × VarSizeHashMap ks vs
  | .lookup k => (.pointer (m.elemLookup k).1, m)
  | .update k v flags => (m.elemUpdate k v flags).map (fun r => .code r.1) id
  | .delete k => (m.elemDelete k).map (fun r => .code r.1) id

def Holds (m : VarSizeHashMap ks vs) (key : Key ks) (value : Value vs) : Prop := m.mapImpl.lookup key = some value

end VarSizeHashMap

def Agree (f : FixSizeHashMap ks vs) (v : VarSizeHashMap ks vs) : List (Call ks vs) → Prop
  | [] => True
  | c :: cs =>
    (f.step c).1 = (v.step c).1 ∧ (∀ k w, (f.step c).2.Holds k w ↔ (v.step c).2.Holds k w) ∧
      Agree (f.step c).2 (v.step c).2 cs

/-- A known flag that fits the presence of the key, room and permission for a new
key, a key to delete, and no reading of a write-only map. -/
def Fits (v : VarSizeHashMap ks vs) : Call ks vs → Prop
  | .lookup k => v.flags &&& BPF_F_WRONLY = 0 ∨ k ∉ v.mapImpl
  | .update k _ flags =>
    (flags = BPF_ANY ∨ flags = BPF_EXIST ∧ k ∈ v.mapImpl ∨ flags = BPF_NOEXIST ∧ k ∉ v.mapImpl) ∧
      (k ∉ v.mapImpl → v.mapImpl.keys.card < v.maxEntries ∧ v.flags &&& BPF_F_RDONLY = 0)
  | .delete k => k ∈ v.mapImpl

def AllFit (v : VarSizeHashMap ks vs) : List (Call ks vs) → Prop
  | [] => True
  | c :: cs => Fits v c ∧ AllFit (v.step c).2 cs

/-- Both hold the entries of one bounded map. -/
def Related (f : FixSizeHashMap ks vs) (v : VarSizeHashMap ks vs) : Prop :=
  ∃ a : BoundedMap (Key ks) (Value vs) v.maxEntries, Refines f.mapImpl a ∧ a.entries = v.mapImpl

theorem Related.holds_iff {f : FixSizeHashMap ks vs} {v : VarSizeHashMap ks vs} (h : Related f v) (k : Key ks)
    (w : Value vs) : f.Holds k w ↔ v.Holds k w := by
  obtain ⟨a, hrefines, hentries⟩ := h
  rw [VarSizeHashMap.Holds, ← hentries]
  have := hrefines.lookup_iff k w
  simp only [BpftimeHashMap.slots, BpftimeHashMap.slot_eq_filled_iff, and_assoc] at this
  exact this.symm

theorem related_init (n ks vs : Nat) (flags : UInt32) :
    Related (FixSizeHashMap.init n ks vs) (VarSizeHashMap.init ks vs n flags) :=
  ⟨empty, BpftimeHashMap.refines_init n, rfl⟩

section Steps

variable {f : FixSizeHashMap ks vs} {v : VarSizeHashMap ks vs}

theorem Related.lookup_agree_iff (h : Related f v) (k : Key ks) :
    (f.step (.lookup k)).1 = (v.step (.lookup k)).1 ↔ Fits v (.lookup k) := by
  obtain ⟨a, hrefines, hentries⟩ := h
  have hlookup : f.mapImpl.elemLookup k = v.mapImpl.lookup k := by
    rw [hrefines.elemLookup_eq, lookup, hentries]
  simp only [FixSizeHashMap.step, VarSizeHashMap.step, FixSizeHashMap.elemLookup, VarSizeHashMap.elemLookup, hlookup,
    Fits, Answer.pointer.injEq]
  by_cases hw : v.flags &&& BPF_F_WRONLY = 0
  · cases hl : v.mapImpl.lookup k <;> simp [hw]
  · simp [hw, Finmap.lookup_eq_none]

theorem elemUpdate_of_fits {k : Key ks} {w : Value vs} {flags : UInt64} (h : Fits v (.update k w flags)) :
    v.elemUpdate k w flags = ((0, none), { v with mapImpl := v.mapImpl.insert k w }) := by
  obtain ⟨hflags, hnew⟩ := h
  obtain ⟨hd, hd', hd''⟩ := updateFlags_distinct
  by_cases hk : k ∈ v.mapImpl
  · rcases hflags with rfl | ⟨rfl, -⟩ | ⟨-, hno⟩
    · simp [VarSizeHashMap.elemUpdate, VarSizeHashMap.isGoodUpdateFlag, hk, hd]
    · simp [VarSizeHashMap.elemUpdate, VarSizeHashMap.isGoodUpdateFlag, hk, hd'']
    · exact absurd hk hno
  · obtain ⟨hroom, hperm⟩ := hnew hk
    have hne : v.mapImpl.keys.card ≠ v.maxEntries := by omega
    rcases hflags with rfl | ⟨-, hyes⟩ | ⟨rfl, -⟩
    · simp [VarSizeHashMap.elemUpdate, VarSizeHashMap.isGoodUpdateFlag, hk, hne, hperm, hd']
    · exact absurd hyes hk
    · simp [VarSizeHashMap.elemUpdate, VarSizeHashMap.isGoodUpdateFlag, hk, hne, hperm, hd''.symm]

theorem elemUpdate_of_not_fits {k : Key ks} {w : Value vs} {flags : UInt64} (hle : v.mapImpl.keys.card ≤ v.maxEntries)
    (h : ¬ Fits v (.update k w flags)) : (v.elemUpdate k w flags).1.1 = -1 := by
  unfold VarSizeHashMap.elemUpdate
  split_ifs with hgood hnoexist hexist hfull hperm
  · rfl
  · rfl
  · rfl
  · rfl
  · rfl
  · -- every check passed, so the call fits after all
    refine absurd ⟨?_, ?_⟩ h
    · have hgood' : flags = BPF_ANY ∨ flags = BPF_EXIST ∨ flags = BPF_NOEXIST := by
        simpa only [VarSizeHashMap.isGoodUpdateFlag, Bool.not_eq_true', decide_eq_false_iff_not, not_not] using hgood
      rcases hgood' with hf | hf | hf
      · exact .inl hf
      · exact .inr (.inl ⟨hf, by_contra fun hk => hexist ⟨hf, hk⟩⟩)
      · exact .inr (.inr ⟨hf, fun hk => hnoexist ⟨hf, hk⟩⟩)
    · intro hk
      have hne : v.mapImpl.keys.card ≠ v.maxEntries := fun he => hfull ⟨hk, he⟩
      exact ⟨by omega, by_contra fun hp => hperm ⟨hk, hp⟩⟩

theorem Related.step_of_fits (h : Related f v) {c : Call ks vs} (hc : Fits v c) :
    (f.step c).1 = (v.step c).1 ∧ Related (f.step c).2 (v.step c).2 := by
  cases c with
  | lookup k => exact ⟨(h.lookup_agree_iff k).mpr hc, h⟩
  | update k w flags =>
    obtain ⟨a, hrefines, hentries⟩ := h
    have hroom : k ∈ a.entries ∨ a.entries.keys.card < v.maxEntries := by
      rw [hentries]
      by_cases hk : k ∈ v.mapImpl
      · exact .inl hk
      · exact .inr (hc.2 hk).1
    have hnext := (hrefines.elemUpdate k w).2
    rw [update, dif_pos hroom] at hnext
    simp only [VarSizeHashMap.step, elemUpdate_of_fits hc]
    exact ⟨rfl, _, hnext, congrArg (Finmap.insert k w) hentries⟩
  | delete k =>
    obtain ⟨a, hrefines, hentries⟩ := h
    have hk : k ∈ v.mapImpl := hc
    have hnext := (hrefines.elemDelete k).2
    rw [delete, if_pos (hentries ▸ hk)] at hnext
    simp only [VarSizeHashMap.step, VarSizeHashMap.elemDelete, hk, not_true_eq_false, if_false]
    exact ⟨rfl, _, hnext, congrArg (Finmap.erase k) hentries⟩

/-- A call that does not fit is answered with zero by the one and with -1 by the
other, or read from a write-only map. -/
theorem Related.fits_of_answer_eq (h : Related f v) {c : Call ks vs} (heq : (f.step c).1 = (v.step c).1) :
    Fits v c := by
  cases c with
  | lookup k => exact (h.lookup_agree_iff k).mp heq
  | update k w flags =>
    obtain ⟨a, -, hentries⟩ := h
    by_contra hno
    have hle : v.mapImpl.keys.card ≤ v.maxEntries := hentries ▸ a.card_le
    have hcode : (.code 0 : Answer vs) = .code (v.elemUpdate k w flags).1.1 := heq
    rw [elemUpdate_of_not_fits hle hno] at hcode
    exact absurd (Answer.code.inj hcode) (by decide)
  | delete k =>
    by_contra hno
    have hk : k ∉ v.mapImpl := hno
    have hcode : (.code 0 : Answer vs) = .code (v.elemDelete k).1.1 := heq
    rw [VarSizeHashMap.elemDelete, if_pos hk] at hcode
    exact absurd (Answer.code.inj hcode) (by simp)

theorem Related.agree_iff (h : Related f v) (cs : List (Call ks vs)) : Agree f v cs ↔ AllFit v cs := by
  induction cs generalizing f v with
  | nil => exact Iff.rfl
  | cons c cs ih =>
    constructor
    · rintro ⟨heq, -, hrest⟩
      have hc := h.fits_of_answer_eq heq
      exact ⟨hc, (ih (h.step_of_fits hc).2).mp hrest⟩
    · rintro ⟨hc, hrest⟩
      obtain ⟨heq, hnext⟩ := h.step_of_fits hc
      exact ⟨heq, hnext.holds_iff, (ih hnext).mpr hrest⟩

end Steps

/-- The two implementations agree on a sequence of calls exactly when each call
fits the state in which it is made. -/
theorem variants_agree_iff (n ks vs : Nat) (flags : UInt32) (cs : List (Call ks vs)) :
    Agree (FixSizeHashMap.init n ks vs) (VarSizeHashMap.init ks vs n flags) cs ↔
      AllFit (VarSizeHashMap.init ks vs n flags) cs :=
  (related_init n ks vs flags).agree_iff cs

/-- The second `BPF_NOEXIST` update of a key is refused by one of the two only. -/
theorem variants_differ_on_noexist :
    ¬ Agree (FixSizeHashMap.init 4 1 1) (VarSizeHashMap.init 1 1 4 0)
      [.update #v[7] #v[1] BPF_NOEXIST, .update #v[7] #v[2] BPF_NOEXIST] := by
  rintro ⟨-, -, hcode, -⟩
  exact absurd hcode (by decide)

end HashMapVariants
