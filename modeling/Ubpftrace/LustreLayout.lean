import Ubpftrace.Bytes
import Ubpftrace.Runs

/-!
# The cache of file layouts

`get_lustre_ost` of `ubpf_lustre.cpp`: the layout that `LL_IOC_LOV_GETSTRIPE`
reports for a descriptor is kept for thirty seconds under the number of the
descriptor. Nothing removes it when the descriptor is closed, so a file that is
opened under the same number is answered for by the layout of its predecessor.
-/

namespace LustreLayout

open Bytes Function
open Runs (Reaches run reaches_of_run)

/-- The magic numbers of the layouts the code tells apart. -/
inductive LovMagic where
  | v1
  | v3
  | specific
  deriving DecidableEq

def LovMagic.toUInt32 : LovMagic → UInt32
  | .v1 => 0x0BD10BD0
  | .v3 => 0x0BD30BD0
  | .specific => 0x0BD50BD0

/-- `struct lov_user_ost_data_v1`. -/
structure OstData where
  oiId : UInt64
  oiSeq : UInt64
  gen : UInt32
  idx : UInt32
  deriving DecidableEq

def ostDataSize : Nat := 24

def OstData.encode (o : OstData) : List UInt8 :=
  le 8 o.oiId.toNat ++ le 8 o.oiSeq.toNat ++ le 4 o.gen.toNat ++ le 4 o.idx.toNat

/-- How many objects have room in the buffer behind a `lov_user_md_v3`. -/
def maxObjects : Nat := (8192 - 48) / ostDataSize

/-- What the file system reports for a file: `struct lov_user_md_v1`, or the
longer `lov_user_md_v3` with the name of a pool. A file with more objects is
not reported. -/
structure Layout where
  magic : LovMagic
  pattern : UInt32
  oiId : UInt64
  oiSeq : UInt64
  stripeSize : UInt32
  layoutGen : UInt16
  poolName : List UInt8
  poolName_length : poolName.length = 16
  objects : List OstData
  objects_le : objects.length ≤ maxObjects
  deriving DecidableEq

def Layout.encode (l : Layout) : List UInt8 :=
  le 4 l.magic.toUInt32.toNat ++ le 4 l.pattern.toNat ++ le 8 l.oiId.toNat ++ le 8 l.oiSeq.toNat ++
    le 4 l.stripeSize.toNat ++ le 2 l.objects.length ++ le 2 l.layoutGen.toNat ++
    (if l.magic = .v1 then [] else l.poolName) ++ l.objects.flatMap OstData.encode

/-- The object of the stripe an offset lies in, as a number of its target; -1 without stripes. -/
def Layout.ost (l : Layout) (offset : UInt64) : Int32 :=
  if l.stripeSize = 0 ∨ l.objects = [] then -1
  else
    match l.objects[offset.toNat / l.stripeSize.toNat % l.objects.length]? with
    | some o => o.idx.toInt32
    | none => -1

/-- What stands behind a number of a descriptor. -/
inductive Descriptor where
  | closed
  | other
  | lustre (l : Layout)
  deriving DecidableEq

def Descriptor.ost : Descriptor → UInt64 → Int32
  | .closed, _ | .other, _ => -1
  | .lustre l, offset => l.ost offset

/-- The buffer after a successful `ioctl`. -/
def ioctlGetstripe : Descriptor → Option (Nat → UInt8)
  | .closed | .other => none
  | .lustre l => some (ofList l.encode)

/-- `LustreLayoutEntry`. As history, what was behind its descriptor when it was made. -/
structure Entry where
  stripeSize : UInt32
  stripeCount : UInt32
  ostIndices : List UInt32
  lastChecked : Nat
  isValid : Bool
  source : Descriptor
  deriving DecidableEq

/-- Where the objects begin: the two magic numbers with a pool name are tested. -/
def objectsOffset (buf : Nat → UInt8) : Nat :=
  if readLe buf 0 4 = LovMagic.v3.toUInt32.toNat ∨ readLe buf 0 4 = LovMagic.specific.toUInt32.toNat then 48 else 32

/-- The entry made of the answer of the `ioctl`. -/
def readEntry (d : Descriptor) (now : Nat) : Entry :=
  let invalid : Entry := ⟨0, 0, [], now, false, d⟩
  match ioctlGetstripe d with
  | none => invalid
  | some buf =>
    let stripeSize := readLe buf 24 4
    let stripeCount := readLe buf 28 2
    if 0 < stripeSize ∧ 0 < stripeCount then
      { stripeSize := .ofNat stripeSize
        stripeCount := .ofNat stripeCount
        ostIndices := (List.range stripeCount).map fun i =>
          .ofNat (readLe buf (objectsOffset buf + ostDataSize * i + 20) 4)
        lastChecked := now
        isValid := true
        source := d }
    else invalid

/-- The answer an entry gives, which both branches of `resolve_ost` compute. -/
def Entry.answer (e : Entry) (offset : UInt64) : Int32 :=
  if e.isValid = false ∨ e.stripeSize = 0 ∨ e.stripeCount = 0 then -1
  else
    match e.ostIndices[offset.toNat / e.stripeSize.toNat % e.stripeCount.toNat]? with
    | some idx => idx.toInt32
    | none => -1

/-- The descriptors of the process, the cache, and the steady clock in nanoseconds. -/
structure State where
  now : Nat
  files : Int → Descriptor
  cache : Int → Option Entry

def start : State := ⟨0, fun _ => .closed, fun _ => none⟩

/-- Whole seconds since the entry was made, below thirty. -/
def State.fresh (s : State) (e : Entry) : Bool := (s.now - e.lastChecked) / 10 ^ 9 < 30

def resolveOst (s : State) (fd : Int) (offset : UInt64) : Int32 × State :=
  if fd < 0 then (-1, s)
  else
    match (s.cache fd).filter s.fresh with
    | some e => (e.answer offset, s)
    | none =>
      let e := readEntry (s.files fd) s.now
      (e.answer offset, { s with cache := update s.cache fd (some e) })

inductive Action where
  | openFile (fd : Int) (d : Descriptor)
  | closeFile (fd : Int)
  | getLustreOst (fd : Int) (offset : UInt64)
  | clearLustreLayoutCache (fd : Int)
  | resetLustreLayoutCache
  | tick (ns : Nat)

def State.setFile (s : State) (fd : Int) (d : Descriptor) : State := { s with files := update s.files fd d }

/-- `open` takes a free number. Opening and closing does not touch the cache. -/
def step (s : State) : Action → Option State
  | .openFile fd d => if 0 ≤ fd ∧ s.files fd = .closed ∧ d ≠ .closed then some (s.setFile fd d) else none
  | .closeFile fd => if s.files fd = .closed then none else some (s.setFile fd .closed)
  | .getLustreOst fd offset => some (resolveOst s fd offset).2
  | .clearLustreLayoutCache fd => some { s with cache := update s.cache fd none }
  | .resetLustreLayoutCache => some { s with cache := fun _ => none }
  | .tick ns => some { s with now := s.now + ns }

theorem length_ostData (o : OstData) : o.encode.length = ostDataSize := by
  simp [OstData.encode, ostDataSize]

theorem holds_encode (l : Layout) :
    readLe (ofList l.encode) 0 4 = l.magic.toUInt32.toNat ∧ readLe (ofList l.encode) 24 4 = l.stripeSize.toNat ∧
      readLe (ofList l.encode) 28 2 = l.objects.length ∧
      Holds (ofList l.encode) (if l.magic = .v1 then 32 else 48) (l.objects.flatMap OstData.encode) := by
  have hm := holds_ofList [] l.encode []
  have hcount : l.objects.length < 256 ^ 2 := Nat.lt_of_le_of_lt l.objects_le (by decide)
  rw [List.nil_append, List.append_nil, List.length_nil] at hm
  generalize ofList l.encode = mem at hm
  simp only [Layout.encode, holds_append, List.length_append, length_le] at hm
  obtain ⟨⟨⟨⟨⟨⟨⟨⟨hmagic, -⟩, -⟩, -⟩, hsize⟩, hlen⟩, -⟩, -⟩, hobjects⟩ := hm
  refine ⟨?_, ?_, ?_, ?_⟩
  · rw [readLe_of_holds _ _ _ _ hmagic]
    exact Nat.mod_eq_of_lt (UInt32.toNat_lt _)
  · rw [readLe_of_holds _ _ _ _ hsize]
    exact Nat.mod_eq_of_lt (UInt32.toNat_lt _)
  · rw [readLe_of_holds _ _ _ _ hlen]
    exact Nat.mod_eq_of_lt hcount
  · split
    · next h => simpa [h] using hobjects
    · next h => simpa [h, l.poolName_length] using hobjects

theorem objectsOffset_encode (l : Layout) : objectsOffset (ofList l.encode) = if l.magic = .v1 then 32 else 48 := by
  rw [objectsOffset, (holds_encode l).1]
  cases l.magic <;> decide

theorem readIndices_encode (l : Layout) :
    ((List.range l.objects.length).map fun i =>
        UInt32.ofNat (readLe (ofList l.encode) (objectsOffset (ofList l.encode) + ostDataSize * i + 20) 4)) =
      l.objects.map OstData.idx := by
  apply List.ext_getElem
  · simp
  · intro i _ hi
    rw [List.length_map] at hi
    rw [List.getElem_map, List.getElem_map, List.getElem_range, objectsOffset_encode]
    have hrow := holds_flatMap _ _ _ _ length_ostData _ (holds_encode l).2.2.2 i hi
    simp only [OstData.encode, holds_append, List.length_append, length_le] at hrow
    exact readU32_of_holds _ _ _ hrow.2

theorem readEntry_answer (d : Descriptor) (now : Nat) (offset : UInt64) :
    (readEntry d now).answer offset = d.ost offset := by
  cases d with
  | closed | other => rfl
  | lustre l =>
    obtain ⟨-, hsize, hcount, -⟩ := holds_encode l
    have hzero : l.stripeSize = 0 ↔ l.stripeSize.toNat = 0 := by
      rw [← UInt32.toNat_inj]
      rfl
    have hlen : (UInt32.ofNat l.objects.length).toNat = l.objects.length :=
      UInt32.toNat_ofNat_of_lt' (Nat.lt_of_le_of_lt l.objects_le (by decide))
    simp only [ioctlGetstripe, readEntry, hsize, hcount, readIndices_encode, Descriptor.ost, Layout.ost]
    by_cases hok : 0 < l.stripeSize.toNat ∧ 0 < l.objects.length
    · have hne : UInt32.ofNat l.objects.length ≠ 0 := by
        intro h
        rw [h] at hlen
        exact absurd hlen (Nat.ne_of_lt hok.2)
      have hstripes : ¬ (l.stripeSize = 0 ∨ l.objects = []) := by
        rintro (h | h)
        · rw [hzero] at h
          omega
        · rw [h] at hok
          exact Nat.lt_irrefl 0 hok.2
      have hsome : ¬ (true = false ∨ l.stripeSize = 0 ∨ UInt32.ofNat l.objects.length = 0) := by
        simp [hne, not_or.mp hstripes]
      rw [if_pos hok, if_neg hstripes, Entry.answer]
      simp only [UInt32.ofNat_toNat, hlen, List.getElem?_map]
      rw [if_neg hsome]
      cases l.objects[offset.toNat / l.stripeSize.toNat % l.objects.length]? <;> rfl
    · have hstripes : l.stripeSize = 0 ∨ l.objects = [] := by
        rw [hzero, ← List.length_eq_zero_iff]
        omega
      rw [if_neg hok, if_pos hstripes]
      rfl

/-- What any run keeps: negative numbers are not used, and an entry answers for
the file it was made for. -/
structure Inv (s : State) : Prop where
  unopened : ∀ fd < 0, s.files fd = .closed ∧ s.cache fd = none
  faithful : ∀ fd, ∀ e ∈ s.cache fd, ∀ offset, e.answer offset = e.source.ost offset

variable {s : State}

theorem start_inv : Inv start := ⟨fun _ _ => ⟨rfl, rfl⟩, nofun⟩

theorem readEntry_source (d : Descriptor) (now : Nat) : (readEntry d now).source = d := by
  rw [readEntry.eq_def]
  split
  · rfl
  · dsimp only
    split <;> rfl

theorem setFile_inv (h : Inv s) (fd : Int) (d : Descriptor) (hfd : 0 ≤ fd) : Inv (s.setFile fd d) := by
  refine ⟨?_, h.faithful⟩
  intro k hk
  obtain ⟨hclosed, hnone⟩ := h.unopened k hk
  refine ⟨?_, hnone⟩
  change update s.files fd d k = .closed
  rw [update_of_ne (by omega), hclosed]

theorem resolveOst_inv (h : Inv s) (fd : Int) (offset : UInt64) : Inv (resolveOst s fd offset).2 := by
  rw [resolveOst]
  split
  · exact h
  · next hfd =>
    split
    · exact h
    · constructor
      · intro k hk
        obtain ⟨hclosed, hnone⟩ := h.unopened k hk
        exact ⟨hclosed, (update_of_ne (by omega) _ _).trans hnone⟩
      · intro k e he
        change e ∈ update s.cache fd (some (readEntry (s.files fd) s.now)) k at he
        by_cases hk : k = fd
        · subst hk
          rw [update_self] at he
          cases he
          intro off
          rw [readEntry_answer, readEntry_source]
        · rw [update_of_ne hk] at he
          exact h.faithful k e he

theorem step_inv (h : Inv s) (a : Action) {s' : State} (hs : step s a = some s') : Inv s' := by
  cases a with
  | openFile fd d =>
    simp only [step] at hs
    split at hs
    · next hfd =>
      cases hs
      exact setFile_inv h fd d hfd.1
    · cases hs
  | closeFile fd =>
    simp only [step] at hs
    split at hs
    · cases hs
    · next hopen =>
      cases hs
      apply setFile_inv h fd
      by_contra hneg
      exact hopen (h.unopened fd (by omega)).1
  | getLustreOst fd offset =>
    cases hs
    exact resolveOst_inv h fd offset
  | clearLustreLayoutCache fd =>
    cases hs
    have hsub : ∀ k, update s.cache fd none k = none ∨ update s.cache fd none k = s.cache k := by
      intro k
      rw [update_apply]
      split
      · exact Or.inl rfl
      · exact Or.inr rfl
    constructor
    · intro k hk
      obtain ⟨hclosed, hnone⟩ := h.unopened k hk
      exact ⟨hclosed, (hsub k).elim id fun heq => heq.trans hnone⟩
    · intro k e he
      change update s.cache fd none k = some e at he
      obtain hnone | heq := hsub k
      · rw [hnone] at he
        cases he
      · exact h.faithful k e (heq.symm.trans he)
  | resetLustreLayoutCache =>
    cases hs
    exact ⟨fun k hk => ⟨(h.unopened k hk).1, rfl⟩, nofun⟩
  | tick ns =>
    cases hs
    exact ⟨h.unopened, h.faithful⟩

/-- After any opens, closes, queries and clearings of the cache, a query is
answered with the layout of the open file if and only if an entry that is still
used was made for a file with the same target at that offset. -/
theorem ost_of_open_file_iff (s : State) (fd : Int) (offset : UInt64) (h : Reaches step (fun _ _ => True) start s) :
    (resolveOst s fd offset).1 = (s.files fd).ost offset ↔
      ∀ e ∈ s.cache fd, s.fresh e = true → e.source.ost offset = (s.files fd).ost offset := by
  have hinv := h.invariant Inv start_inv fun _ a _ hi _ hs => step_inv hi a hs
  rw [resolveOst]
  split
  · next hneg =>
    obtain ⟨hclosed, hnone⟩ := hinv.unopened fd hneg
    simp [hclosed, hnone, Descriptor.ost]
  · split
    · next e he =>
      obtain ⟨hcache, hfresh⟩ := Option.filter_eq_some_iff.mp he
      rw [hinv.faithful fd e hcache offset]
      constructor
      · intro heq e' he' _
        obtain rfl := Option.some.inj (hcache.symm.trans he')
        exact heq
      · exact fun hall => hall e hcache hfresh
    · next hmiss =>
      constructor
      · intro _ e he hfresh
        exact absurd (Option.filter_eq_some_iff.mpr ⟨he, hfresh⟩) (by simp [hmiss])
      · exact fun _ => readEntry_answer _ _ offset

def onTarget (idx : UInt32) : Layout where
  magic := .v3
  pattern := 1
  oiId := 0
  oiSeq := 0
  stripeSize := 1048576
  layoutGen := 0
  poolName := List.replicate 16 0
  poolName_length := rfl
  objects := [⟨0, 0, 0, idx⟩]
  objects_le := by
    change 1 ≤ maxObjects
    decide

/-- The second query of an open file finds the entry of the first. -/
theorem ost_of_open_file_iff_hit :
    ∃ s, Reaches step (fun _ _ => True) start s ∧ (∃ e ∈ s.cache 3, s.fresh e = true) ∧
      ((resolveOst s 3 0).1 = (s.files 3).ost 0 ↔
        ∀ e ∈ s.cache 3, s.fresh e = true → e.source.ost 0 = (s.files 3).ost 0) := by
  have hrun : (run step (fun _ _ => True) start [.openFile 3 (.lustre (onTarget 5)), .getLustreOst 3 0]).map
      (fun s => (s.cache 3).map s.fresh) = some (some true) := by decide +kernel
  obtain ⟨s, hs, hcache⟩ := Option.map_eq_some_iff.mp hrun
  obtain ⟨e, he, hfresh⟩ := Option.map_eq_some_iff.mp hcache
  have hreach := reaches_of_run _ hs
  exact ⟨s, hreach, ⟨e, he, hfresh⟩, ost_of_open_file_iff s 3 0 hreach⟩

/-- A descriptor is closed and its number is taken by another file within
thirty seconds: the query is answered with the target of the closed file. -/
theorem reopened_descriptor_answered_stale :
    ∃ s, run step (fun _ _ => True) start
        [.openFile 3 (.lustre (onTarget 5)), .getLustreOst 3 0, .closeFile 3, .openFile 3 (.lustre (onTarget 9))] =
          some s ∧
      (resolveOst s 3 0).1 = 5 ∧ (s.files 3).ost 0 = 9 := by
  have hrun : (run step (fun _ _ => True) start
      [.openFile 3 (.lustre (onTarget 5)), .getLustreOst 3 0, .closeFile 3, .openFile 3 (.lustre (onTarget 9))]).map
        (fun s => ((resolveOst s 3 0).1, (s.files 3).ost 0)) = some (5, 9) := by decide +kernel
  obtain ⟨s, hs, hobs⟩ := Option.map_eq_some_iff.mp hrun
  exact ⟨s, hs, Prod.mk.inj hobs⟩

end LustreLayout
