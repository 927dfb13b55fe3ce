import Ubpftrace.MapSharing

/-!
# Creating a map

`add_bpf_map` with its failures. `set_handler` stores the handler in the table before
`map_init` makes the implementation, does not look at what `map_init` returns, and has
nothing to undo the store when a constructor throws.
-/

namespace MapCreation

open HandlerTable
open HandlerTable.Shm

inductive Outcome where
  | returned (r : Int)
  | thrown
  deriving DecidableEq

/-- The object for which the shared memory has no room, or the kernel no map. -/
inductive Shortage where
  | name
  | impl
  | refcnt
  deriving DecidableEq

/-- What a call meets: a shortage, and what a registered `alloc_map` returns. -/
structure Env where
  shortage : Option Shortage
  allocMap : MapHandler → Int

def LPM_KEY_SIZE_MIN : BitVec 32 := 4 + 1

def LPM_KEY_SIZE_MAX : BitVec 32 := 4 + 256

/-- The checks in the constructors of the implementations, which throw. -/
def constructorThrows (attr : MapAttr) : Bool :=
  if attr.type = MapType.QUEUE ∨ attr.type = MapType.STACK ∨ attr.type = MapType.BLOOM_FILTER then
    attr.valueSize = 0 ∨ attr.maxEnts = 0
  else if attr.type = MapType.LPM_TRIE then
    attr.keySize < LPM_KEY_SIZE_MIN ∨ attr.keySize > LPM_KEY_SIZE_MAX ∨ attr.valueSize = 0 ∨ attr.maxEnts = 0
  else if attr.type = MapType.PERF_EVENT_ARRAY ∨ attr.type = MapType.PROG_ARRAY then
    attr.keySize ≠ 4 ∨ attr.valueSize ≠ 4
  else if attr.type = MapType.STACK_TRACE then attr.keySize ≠ 4 ∨ attr.valueSize % 8 ≠ 0
  else false

/-- `map_init` of a handler without an implementation: how it ends, the handler and the memory. -/
def mapInit (c : Config) (env : Env) (s : Shm) (m : MapHandler) : Outcome × MapHandler × Shm :=
  match initCase c m.attr with
  | .construct =>
    if constructorThrows m.attr ∨ env.shortage = some .impl then (.thrown, m, s)
    else
      let m := { m with mapImplPtr := some s.impls.length }
      let s := { s with impls := s.impls ++ [true] }
      if env.shortage = some .refcnt then (.thrown, m, s)
      else (.returned 0, { m with mapRefcntPtr := some s.refcnts.length }, { s with refcnts := s.refcnts ++ [some 1] })
  | .alloc =>
    (.returned (env.allocMap m), m,
      if env.allocMap m < 0 then s else { s with externals := (m.attr.type, m.id) :: s.externals })
  | .nothing => (.returned 0, m, s)
  | .error => (.returned (-1), m, s)

/-- `set_handler` with a map in a free slot. What `map_init` returns is not looked at. -/
def setHandler (c : Config) (env : Env) (s : Shm) (fd : CInt) (m : MapHandler) : Outcome × Shm :=
  let r := mapInit c env s m
  (if r.1 = .thrown then .thrown else .returned fd.toInt, r.2.2.put fd (.map r.2.1))

/-- `add_bpf_map`. There is no result where the fd is outside of the table. -/
def addBpfMap (c : Config) (env : Env) (s : Shm) (fd fake : CInt) (name : CString) (attr : MapAttr) :
    Option (Outcome × Shm) :=
  let fd := orFake fd fake
  match s.slot fd with
  | none => none
  | some h =>
    let s := if h = .unused then s else s.clearIdAt fd
    -- the name is copied into the shared memory for the new handler
    if env.shortage = some .name then some (.thrown, s)
    else some (setHandler c env s fd (newMap fd name attr))

/-! ## Initialised or not -/

/-- The map behind an fd has its implementation here, or a registered `alloc_map` has accepted it. -/
def Usable (c : Config) (env : Env) (s : Shm) (fd : CInt) : Prop :=
  ∃ m, s.slot fd = some (.map m) ∧
    ((∃ i, m.mapImplPtr = some i ∧ s.Live i) ∨ initCase c m.attr = .alloc ∧ 0 ≤ env.allocMap m)

/-- A map that was created is usable, and a failure leaves the slot unused. -/
def Sound (c : Config) (env : Env) (fd : CInt) : Option (Outcome × Shm) → Prop
  | none => False
  | some (.returned r, s) => if 0 ≤ r then r = fd.toInt ∧ Usable c env s fd else s.slot fd = some .unused
  | some (.thrown, s) => s.slot fd = some .unused

/-- The initialisation of a map gives it what it needs. -/
def Initialises (c : Config) (env : Env) (m : MapHandler) : Prop :=
  match initCase c m.attr with
  | .construct => constructorThrows m.attr = false ∧ env.shortage ≠ some .impl ∧ env.shortage ≠ some .refcnt
  | .alloc => 0 ≤ env.allocMap m
  | .nothing | .error => False

section Creation

variable {c : Config} {env : Env} {s : Shm} {fd fake : CInt} {h : Handler} {name : CString} {attr : MapAttr}
  {m : MapHandler}

theorem handlers_mapInit (c : Config) (env : Env) (s : Shm) (m : MapHandler) :
    (mapInit c env s m).2.2.handlers = s.handlers := by
  unfold mapInit
  split
  · split
    · rfl
    · split <;> rfl
  · split <;> rfl
  · rfl
  · rfl

theorem mapInit_eq (hinit : Initialises c env m) :
    ∃ r, mapInit c env s m = (.returned r, s.mapInit c m) ∧ 0 ≤ r := by
  unfold Initialises at hinit
  unfold mapInit Shm.mapInit
  cases hcase : initCase c m.attr with
  | construct =>
    simp only [hcase] at hinit
    obtain ⟨hthrows, himpl, hrefcnt⟩ := hinit
    exact ⟨0, by simp [hthrows, himpl, hrefcnt], le_refl 0⟩
  | alloc =>
    simp only [hcase] at hinit
    have hnot : ¬ env.allocMap m < 0 := not_lt.mpr hinit
    exact ⟨env.allocMap m, by simp [hnot], hinit⟩
  | nothing | error =>
    simp only [hcase] at hinit

theorem mapInit_fails (hnot : ¬ Initialises c env m) :
    (mapInit c env s m).1 = .thrown ∨ (mapInit c env s m).2.1 = m ∧
      (initCase c m.attr = .alloc → env.allocMap m < 0) := by
  unfold Initialises at hnot
  unfold mapInit
  split at hnot
  next hcase =>
    left
    split
    · rfl
    next hmade =>
      have hrefcnt : env.shortage = some .refcnt := by
        by_contra hne
        simp only [not_or] at hmade
        exact hnot ⟨Bool.eq_false_of_not_eq_true hmade.1, hmade.2, hne⟩
      rw [if_pos hrefcnt]
  next hcase =>
    exact .inr ⟨rfl, fun _ => not_le.mp hnot⟩
  all_goals
    next hcase => exact .inr ⟨rfl, fun halloc => absurd (hcase.symm.trans halloc) InitCase.noConfusion⟩

theorem slot_setHandler (c : Config) (env : Env) (m : MapHandler) (hs : s.slot fd = some h) :
    (setHandler c env s fd m).2.slot fd = some (.map (mapInit c env s m).2.1) :=
  slot_put_self ((slot_congr (handlers_mapInit c env s m) fd).trans hs) _

theorem usable_setHandler (hs : s.slot fd = some h) (hinit : Initialises c env m) :
    Usable c env (setHandler c env s fd m).2 fd := by
  obtain ⟨r, hr, -⟩ := mapInit_eq (s := s) hinit
  have hslot := slot_setHandler c env m hs
  simp only [hr] at hslot
  unfold Initialises at hinit
  split at hinit
  next hcase =>
    have hmade : s.mapInit c m = ({ m with mapImplPtr := some s.impls.length, mapRefcntPtr := some s.refcnts.length },
        { s with impls := s.impls ++ [true], refcnts := s.refcnts ++ [some 1] }) := by
      simp only [Shm.mapInit, hcase]
    rw [hmade] at hslot
    refine ⟨_, hslot, .inl ⟨s.impls.length, rfl, ?_⟩⟩
    simp only [setHandler, hr, hmade, Live, put]
    exact List.getElem?_concat_length
  next hcase =>
    have hsame : (s.mapInit c m).1 = m := by simp only [Shm.mapInit, hcase]
    rw [hsame] at hslot
    exact ⟨m, hslot, .inr ⟨hcase, hinit⟩⟩
  all_goals exact absurd hinit not_false

/-- What `set_handler` leaves behind is right just where `map_init` succeeds. -/
theorem sound_setHandler (hs : s.slot fd = some h) (hnone : m.mapImplPtr = none) :
    Sound c env fd (some (setHandler c env s fd m)) ↔ Initialises c env m := by
  have hfd : 0 ≤ fd.toInt := (slot_eq_some hs).1
  have hslot := slot_setHandler c env m hs
  constructor
  · intro hsound
    by_contra hnot
    by_cases hthrown : (mapInit c env s m).1 = .thrown
    · have hout : setHandler c env s fd m = (.thrown, (setHandler c env s fd m).2) := by
        simp only [setHandler, hthrown, if_pos]
      rw [hout] at hsound
      -- the slot still holds the handler
      exact absurd (hslot.symm.trans hsound) (by simp)
    · obtain ⟨hsame, halloc⟩ := (mapInit_fails hnot).resolve_left hthrown
      have hout : setHandler c env s fd m = (.returned fd.toInt, (setHandler c env s fd m).2) := by
        simp only [setHandler, if_neg hthrown]
      rw [hout] at hsound
      simp only [Sound, if_pos hfd] at hsound
      obtain ⟨m', hm', huse⟩ := hsound.2
      rw [hslot, hsame] at hm'
      obtain rfl : m = m' := by simpa using hm'
      obtain ⟨i, hi, -⟩ | ⟨hcase, hle⟩ := huse
      · rw [hnone] at hi
        cases hi
      · exact absurd hle (not_le.mpr (halloc hcase))
  · intro hinit
    obtain ⟨r, hr, -⟩ := mapInit_eq (s := s) hinit
    have hout : setHandler c env s fd m = (.returned fd.toInt, (setHandler c env s fd m).2) := by
      simp only [setHandler, hr]
      rw [if_neg (by simp)]
    rw [hout]
    simp only [Sound, if_pos hfd]
    exact ⟨trivial, usable_setHandler hs hinit⟩

theorem cleared_eq (hs : s.slot fd = some h) : (if h = .unused then s else s.clearIdAt fd) = s.clearIdAt fd := by
  split
  next hunused => exact (clearIdAt_unused (hunused ▸ hs)).symm
  · rfl

theorem addBpfMap_of_slot (hs : s.slot (orFake fd fake) = some h) :
    addBpfMap c env s fd fake name attr =
      if env.shortage = some .name then some (.thrown, s.clearIdAt (orFake fd fake))
      else some (setHandler c env (s.clearIdAt (orFake fd fake)) (orFake fd fake)
        (newMap (orFake fd fake) name attr)) := by
  simp only [addBpfMap, hs, cleared_eq hs]

/-- Creating a map gives a usable map or leaves the slot unused, just where the table
has the fd and the handler either gets no name or is initialised with success. -/
theorem addBpfMap_sound_iff (c : Config) (env : Env) (s : Shm) (fd fake : CInt) (name : CString) (attr : MapAttr) :
    Sound c env (orFake fd fake) (addBpfMap c env s fd fake name attr) ↔
      (s.slot (orFake fd fake)).isSome ∧
        (env.shortage = some .name ∨ Initialises c env (newMap (orFake fd fake) name attr)) := by
  cases hs : s.slot (orFake fd fake) with
  | none =>
    have hnone : addBpfMap c env s fd fake name attr = none := by simp only [addBpfMap, hs]
    simp [hnone, Sound]
  | some h =>
    have hfree := slot_clearIdAt_self hs
    rw [addBpfMap_of_slot hs]
    by_cases hname : env.shortage = some .name
    · simp [hname, Sound, hfree]
    · simp only [hname, false_or, Option.isSome_some, true_and]
      apply sound_setHandler hfree
      rfl

def threeBytes : MapAttr := { type := MapType.RINGBUF, maxEnts := 3 }

/-- `map_init` refuses the size, and the caller gets the fd of a map without an implementation. -/
theorem ringbuf_without_impl :
    let c : Config := ⟨true, false, fun _ => false⟩
    let env : Env := ⟨none, fun _ => 0⟩
    let r := addBpfMap c env (create 4) 3 0 (cStr []) threeBytes
    r.map (fun r => (r.1, r.2.slot 3)) = some (.returned 3, some (.map (newMap 3 (cStr []) threeBytes))) ∧
      ¬ Sound c env 3 r := by
  intro c env r
  have hr : r = some (.returned 3, (create 4).put 3 (.map (newMap 3 (cStr []) threeBytes))) := rfl
  rw [hr]
  constructor
  · rfl
  · rintro ⟨-, m, hm, huse⟩
    have hslot : ((create 4).put 3 (.map (newMap 3 (cStr []) threeBytes))).slot 3 =
        some (.map (newMap 3 (cStr []) threeBytes)) := rfl
    obtain rfl : newMap 3 (cStr []) threeBytes = m := by simpa using hslot.symm.trans hm
    obtain ⟨i, hi, -⟩ | ⟨hcase, -⟩ := huse
    · cases hi
    · exact absurd hcase (by decide)

end Creation

end MapCreation
