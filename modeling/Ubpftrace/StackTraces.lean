import Mathlib.Data.List.AList
import Mathlib.Data.UInt
import Ubpftrace.Bytes
import Ubpftrace.Runs

/-!
# Stack traces

`stack_trace_map.cpp` stores stacks under the hash of their frames modulo the number
of entries, and the helpers `bpf_get_stackid` and `bpf_get_stack` in `bpf_helper.cpp`
store a captured stack there or copy it out. The comparison of a stored stack with a
new one stops at their sizes. The copy counts frames where it should count bytes.
-/

namespace StackTraces

open Runs (Always)

inductive Errno where
  | EINVAL
  | ENOENT
  | ENOTSUP
  deriving DecidableEq

/-! ## The map -/

/-- `stack_trace_map_impl`. -/
structure StackTraceMap where
  maxEntries : BitVec 32
  data : AList fun _ : BitVec 32 => List UInt64
  keyBuf : List UInt64

namespace StackTraceMap

/-- The constructor throws unless keys have four bytes and values a multiple of eight. -/
def new (keySize valueSize maxEntries : BitVec 32) : Option StackTraceMap :=
  if keySize ≠ 4 then none
  else if valueSize % 8 ≠ 0 then none
  else some ⟨maxEntries, ∅, List.replicate (valueSize.toNat / 8) 0⟩

variable (hash : List UInt64 → UInt64) (m : StackTraceMap)

/-- The id of a stack, which is returned as an `int`; `hash` is `hash_stack_trace`. `max_entries`
is taken to be positive: the source divides by it. -/
def slot (stk : List UInt64) : BitVec 32 := BitVec.ofNat 32 ((hash stk).toNat % m.maxEntries.toNat)

/-- `equals`: `std::equal` is looked at only after the sizes were found to differ. -/
def equalsByContent (stored stk : List UInt64) : Bool :=
  let equals := true && stored.length == stk.length
  if !equals then equals && stored == stk else equals

def fillStackTrace (stk : List UInt64) (discardOldOne compareOnlyByHash : Bool) : BitVec 32 × StackTraceMap :=
  let toPutHash := m.slot hash stk
  let m := { m with keyBuf := stk }
  match m.data.lookup toPutHash with
  | none => (toPutHash, { m with data := m.data.insert toPutHash m.keyBuf })
  | some stored =>
    let equals := if !compareOnlyByHash then equalsByContent stored stk else true
    if equals then (toPutHash, m)
    else if discardOldOne then (toPutHash, { m with data := m.data.insert toPutHash m.keyBuf })
    else (toPutHash, m)

def elemLookup (key : Option (BitVec 32)) : Except Errno (List UInt64) :=
  match key with
  | none => .error .EINVAL
  | some index =>
    match m.data.lookup index with
    | some stk => .ok stk
    | none => .error .ENOENT

def elemDelete (key : Option (BitVec 32)) : Option Errno × StackTraceMap :=
  match key with
  | none => (some .EINVAL, m)
  | some index => if index ∈ m.data then (none, { m with data := m.data.erase index }) else (some .ENOENT, m)

end StackTraceMap

inductive Call where
  | fill (stk : List UInt64) (discardOldOne compareOnlyByHash : Bool)
  | delete (key : Option (BitVec 32))
  deriving DecidableEq

/-- An id, or a code. -/
def step (hash : List UInt64 → UInt64) (m : StackTraceMap) : Call → (BitVec 32 ⊕ Option Errno) × StackTraceMap
  | .fill stk discardOldOne compareOnlyByHash => (m.fillStackTrace hash stk discardOldOne compareOnlyByHash).map .inl id
  | .delete key => (m.elemDelete key).map .inr id

/-! ## Ids of stacks -/

/-- After a call with a full comparison the stack is found under its id. -/
def Found (hash : List UInt64 → UInt64) (m : StackTraceMap) : Call → Prop
  | .fill stk discardOldOne false =>
    let result := m.fillStackTrace hash stk discardOldOne false
    result.2.elemLookup (some result.1) = .ok stk
  | .fill _ _ true | .delete _ => True

/-- Under the id of the stack there is nothing yet, or the stack itself, or a stack of another
size that may be discarded. -/
def Free (hash : List UInt64 → UInt64) (m : StackTraceMap) : Call → Prop
  | .fill stk discardOldOne false =>
    ∀ stored, m.data.lookup (m.slot hash stk) = some stored →
      stored = stk ∨ discardOldOne ∧ stored.length ≠ stk.length
  | .fill _ _ true | .delete _ => True

section Ids

variable (hash : List UInt64 → UInt64) (m : StackTraceMap)

theorem equalsByContent_eq (stored stk : List UInt64) :
    StackTraceMap.equalsByContent stored stk = (stored.length == stk.length) := by
  unfold StackTraceMap.equalsByContent
  cases stored.length == stk.length <;> rfl

theorem elemLookup_eq_ok {m : StackTraceMap} {i : BitVec 32} {stk : List UInt64} :
    m.elemLookup (some i) = .ok stk ↔ m.data.lookup i = some stk := by
  cases h : m.data.lookup i <;> simp [StackTraceMap.elemLookup, h]

theorem fillStackTrace_id (stk : List UInt64) (discardOldOne compareOnlyByHash : Bool) :
    (m.fillStackTrace hash stk discardOldOne compareOnlyByHash).1 = m.slot hash stk := by
  simp only [StackTraceMap.fillStackTrace]
  split
  · rfl
  · split_ifs <;> rfl

/-- What stands under the id after a call: a stack of the same size is never replaced. -/
theorem lookup_fillStackTrace (stk : List UInt64) (discardOldOne : Bool) :
    (m.fillStackTrace hash stk discardOldOne false).2.data.lookup (m.slot hash stk) =
      match m.data.lookup (m.slot hash stk) with
      | none => some stk
      | some stored => if stored.length ≠ stk.length ∧ discardOldOne then some stk else some stored := by
  simp only [StackTraceMap.fillStackTrace, equalsByContent_eq, Bool.not_false, if_true]
  cases hstored : m.data.lookup (m.slot hash stk) with
  | none => simp
  | some stored =>
    by_cases hsize : stored.length = stk.length
    · simp [hsize, hstored]
    · cases discardOldOne <;> simp [hsize, hstored]

theorem found_iff (c : Call) : Found hash m c ↔ Free hash m c := by
  cases c with
  | delete key => exact Iff.rfl
  | fill stk discardOldOne compareOnlyByHash =>
    cases compareOnlyByHash with
    | true => exact Iff.rfl
    | false =>
      rw [Found, Free, elemLookup_eq_ok, fillStackTrace_id, lookup_fillStackTrace]
      cases m.data.lookup (m.slot hash stk) with
      | none => simp
      | some stored =>
        by_cases hreplace : stored.length ≠ stk.length ∧ discardOldOne
        · simp [hreplace]
        · have hkeep : ¬ (discardOldOne ∧ stored.length ≠ stk.length) := fun h => hreplace ⟨h.2, h.1⟩
          simp [if_neg hreplace, hkeep]

end Ids

/-- In every run of fills and deletes, full comparisons find the given stack under the id they
return exactly if each of them comes to an id that is free for its stack. -/
theorem full_compare_iff (hash : List UInt64 → UInt64) (m : StackTraceMap) (calls : List Call) :
    Always (step hash) (Found hash) m calls ↔ Always (step hash) (Free hash) m calls := by
  constructor
  · exact Always.imp (fun _ => True) (fun m c _ h => ⟨(found_iff hash m c).mp h, trivial⟩) trivial
  · exact Always.imp (fun _ => True) (fun m c _ h => ⟨(found_iff hash m c).mpr h, trivial⟩) trivial

/-- Two stacks of one frame in a map of one entry: the second is taken for the first. -/
theorem colliding_stack_not_stored :
    let hash : List UInt64 → UInt64 := fun stk => stk.sum
    let m := (StackTraceMap.fillStackTrace hash ⟨1, ∅, []⟩ [10] true false).2
    let result := m.fillStackTrace hash [20] true false
    result.1 = 0 ∧ result.2.elemLookup (some 0) = .ok [10] := by
  decide +kernel

/-! ## The helpers -/

abbrev BPF_F_SKIP_FIELD_MASK : UInt64 := 0xff
abbrev BPF_F_USER_STACK : UInt64 := 0x100
abbrev BPF_F_FAST_STACK_CMP : UInt64 := 0x200
abbrev BPF_F_REUSE_STACKID : UInt64 := 0x400
abbrev BPF_F_USER_BUILD_ID : UInt64 := 0x800

def Errno.code : Errno → Int
  | .EINVAL => 22
  | .ENOENT => 2
  | .ENOTSUP => 95

/-- What the attach implementation for uprobes gives: it may not be registered, and it may fail
to capture a stack. -/
inductive Capture where
  | notRegistered
  | failed
  | frames (stk : List UInt64)

def framesToSkip (flags : UInt64) : Nat := (flags &&& BPF_F_SKIP_FIELD_MASK).toNat

def skipFrames (flags : UInt64) (stk : List UInt64) : List UInt64 :=
  if framesToSkip flags ≥ stk.length then [] else stk.drop (framesToSkip flags)

/-- `bpf_get_stackid` on a stack trace map. -/
def getStackid (hash : List UInt64 → UInt64) (m : StackTraceMap) (flags : UInt64) (capture : Capture) :
    Int × StackTraceMap :=
  if flags &&& BPF_F_USER_STACK = 0 then (-Errno.ENOTSUP.code, m)
  else
    match capture with
    | .notRegistered => (-Errno.ENOTSUP.code, m)
    | .failed => (-Errno.ENOENT.code, m)
    | .frames stk =>
      (m.fillStackTrace hash (skipFrames flags stk) (flags &&& BPF_F_REUSE_STACKID ≠ 0)
        (flags &&& BPF_F_FAST_STACK_CMP ≠ 0)).map (fun id => (id.toNat : Int)) id

/-- The bytes of the frames in memory. -/
def frameBytes (stk : List UInt64) : List UInt8 := stk.flatMap fun frame => Bytes.le 8 frame.toNat

/-- `bpf_get_stack`: the result and the bytes written to the buffer. -/
def getStack (flags : UInt64) (capture : Capture) (size : UInt64) : Int × List UInt8 :=
  if flags &&& BPF_F_USER_STACK = 0 then (-Errno.ENOTSUP.code, [])
  else if flags &&& BPF_F_USER_BUILD_ID ≠ 0 then (-Errno.ENOTSUP.code, [])
  else
    match capture with
    | .notRegistered => (-Errno.ENOTSUP.code, [])
    | .failed => (-Errno.ENOENT.code, [])
    | .frames stk =>
      let result := skipFrames flags stk
      let sizeToCopy := min result.length size.toNat
      (0, (frameBytes result).take sizeToCopy)

theorem length_frameBytes (stk : List UInt64) : (frameBytes stk).length = 8 * stk.length :=
  Bytes.length_flatMap_rows _ 8 (fun _ => Bytes.length_le 8 _) stk

theorem skipFrames_eq_nil_iff (flags : UInt64) (stk : List UInt64) :
    skipFrames flags stk = [] ↔ stk.length ≤ framesToSkip flags := by
  unfold skipFrames
  split_ifs with h <;> simp [h]

/-- The bytes of the given frames, as many as fit, and their number. -/
def Copied (stored : List UInt64) (size : UInt64) (result : Int × List UInt8) : Prop :=
  result.2 = (frameBytes stored).take size.toNat ∧ result.1 = result.2.length

/-- A stack that `bpf_get_stackid` stores under a new id is copied by `bpf_get_stack` with the
same flags exactly if there is nothing to copy: no frame is left or the buffer is empty. -/
theorem get_stack_iff (hash : List UInt64 → UInt64) (m : StackTraceMap) (flags : UInt64) (stk : List UInt64)
    (size : UInt64)
    (huser : flags &&& BPF_F_USER_STACK ≠ 0) (hid : flags &&& BPF_F_USER_BUILD_ID = 0)
    (hfree : m.data.lookup (m.slot hash (skipFrames flags stk)) = none) :
    ∃ id stored, (getStackid hash m flags (.frames stk)).1 = (id : BitVec 32).toNat ∧
      (getStackid hash m flags (.frames stk)).2.elemLookup (some id) = .ok stored ∧
      (Copied stored size (getStack flags (.frames stk) size) ↔ stk.length ≤ framesToSkip flags ∨ size = 0) := by
  refine ⟨m.slot hash (skipFrames flags stk), skipFrames flags stk, ?_, ?_, ?_⟩
  · rw [getStackid, if_neg huser]
    exact congrArg (fun id : BitVec 32 => (id.toNat : Int)) (fillStackTrace_id hash m _ _ _)
  · rw [getStackid, if_neg huser, elemLookup_eq_ok]
    simp [StackTraceMap.fillStackTrace, hfree]
  · rw [← skipFrames_eq_nil_iff]
    generalize hresult : skipFrames flags stk = result
    have hstack : getStack flags (.frames stk) size = (0, (frameBytes result).take (min result.length size.toNat)) := by
      rw [getStack, if_neg huser, if_neg (not_not.mpr hid), ← hresult]
    have hzero : size = 0 ↔ size.toNat = 0 := by
      rw [← UInt64.toNat_inj]
      rfl
    rw [Copied, hstack, hzero, ← List.length_eq_zero_iff]
    have hlen := length_frameBytes result
    constructor
    · rintro ⟨-, hcode⟩
      simp only [List.length_take] at hcode
      omega
    · intro hnone
      have hmin : min result.length size.toNat = 0 := by omega
      rw [hmin, List.take_zero]
      refine ⟨?_, rfl⟩
      rcases hnone with hnil | hsize
      · rw [List.length_eq_zero_iff] at hnil
        rw [hnil]
        exact List.take_nil.symm
      · rw [hsize, List.take_zero]

/-- A stack with all its frames skipped. -/
theorem get_stack_iff_skipped :
    let hash : List UInt64 → UInt64 := fun stk => stk.sum
    let m : StackTraceMap := ⟨4, ∅, []⟩
    ∃ id stored, (getStackid hash m 0x101 (.frames [5])).1 = (id : BitVec 32).toNat ∧
      (getStackid hash m 0x101 (.frames [5])).2.elemLookup (some id) = .ok stored ∧
      Copied stored 8 (getStack 0x101 (.frames [5]) 8) := by
  intro hash m
  obtain ⟨id, stored, hid, hstored, hiff⟩ := get_stack_iff hash m 0x101 [5] 8 (by decide) (by decide) rfl
  exact ⟨id, stored, hid, hstored, hiff.mpr (.inl (by decide))⟩

/-- Of a frame and a buffer of eight bytes one byte is copied, and the result is zero. -/
theorem one_frame_copied_as_one_byte :
    frameBytes [0x0102030405060708] = [8, 7, 6, 5, 4, 3, 2, 1] ∧
      getStack BPF_F_USER_STACK (.frames [0x0102030405060708]) 8 = (0, [8]) := by
  decide +kernel

end StackTraces
