import Ubpftrace.BoundedLists
import Ubpftrace.Bytes
import Ubpftrace.HashMapVariants

/-!
# The queue map and the stack map

`queue.cpp` and `stack.cpp` answer the calls of the map interface (lookup, update,
delete) and those of the helpers (push, pop, peek) with the same code over different
storage: slots in a circle behind a head and a tail, and a vector of bytes that grows
at its end. Both are bounded lists. The interfaces differ in one thing, the flags of
an update are not checked.
-/

namespace QueueStack

open HashMapVariants (Errno BPF_ANY BPF_EXIST)
open Runs (trace Always always_of_forall)
open BoundedLists

/-! ## The calls -/

/-- What the maps differ in. -/
structure Storage (σ α : Type) where
  isEmpty : σ → Bool
  isFull : σ → Bool
  /-- The element that a lookup, a peek or a pop reads. -/
  next : σ → α
  takeNext : σ → σ
  discardOldest : σ → σ
  append : σ → α → σ

inductive Call (α : Type) where
  | lookup
  | update (value : Option α) (flags : UInt64)
  | delete
  | push (value : Option α) (flags : UInt64)
  | pop (bufferIsNull : Bool)
  | peek (bufferIsNull : Bool)
  deriving DecidableEq

variable {σ α : Type}

section Calls

variable (S : Storage σ α)

def elemLookup (s : σ) : Except Errno α := if S.isEmpty s then .error .ENOENT else .ok (S.next s)

/-- `elem_update` and `map_push_elem` behind the checks of their arguments. -/
def pushChecked (s : σ) (value : α) (flags : UInt64) : Option Errno × σ :=
  if S.isFull s then
    if flags = BPF_EXIST then (none, S.append (S.discardOldest s) value) else (some .E2BIG, s)
  else (none, S.append s value)

def elemUpdate (s : σ) (value : Option α) (flags : UInt64) : Option Errno × σ :=
  match value with
  | none => (some .EINVAL, s)
  | some value => pushChecked S s value flags

def elemDelete (s : σ) : Option Errno × σ := if S.isEmpty s then (some .ENOENT, s) else (none, S.takeNext s)

def mapPushElem (s : σ) (value : Option α) (flags : UInt64) : Option Errno × σ :=
  match value with
  | none => (some .EINVAL, s)
  | some value =>
    if flags ≠ 0 ∧ flags ≠ BPF_ANY ∧ flags ≠ BPF_EXIST then (some .EINVAL, s) else pushChecked S s value flags

def mapPopElem (s : σ) (bufferIsNull : Bool) : Except Errno α × σ :=
  if bufferIsNull then (.error .EINVAL, s)
  else if S.isEmpty s then (.error .ENOENT, s)
  else (.ok (S.next s), S.takeNext s)

def mapPeekElem (s : σ) (bufferIsNull : Bool) : Except Errno α :=
  if bufferIsNull then .error .EINVAL else if S.isEmpty s then .error .ENOENT else .ok (S.next s)

/-- Zero or an error. -/
def code : Option Errno → Except Errno (Option α)
  | none => .ok none
  | some e => .error e

def step (s : σ) : Call α → Except Errno (Option α) × σ
  | .lookup => ((elemLookup S s).map some, s)
  | .update value flags => (elemUpdate S s value flags).map code id
  | .delete => (elemDelete S s).map code id
  | .push value flags => (mapPushElem S s value flags).map code id
  | .pop bufferIsNull => (mapPopElem S s bufferIsNull).map (Except.map some) id
  | .peek bufferIsNull => ((mapPeekElem S s bufferIsNull).map some, s)

end Calls

/-! ## Slots in a circle -/

/-- `queue_map_impl`; `data` is the memory from `data.data()` on. -/
structure Queue (valueSize : Nat) where
  maxEntries : Nat
  head : Nat
  tail : Nat
  count : Nat
  data : Nat → UInt8

namespace Queue

variable {valueSize : Nat} (q : Queue valueSize)

/-- The constructor throws for a size of zero. -/
def new (valueSize maxEntries : Nat) : Option (Queue valueSize) :=
  if valueSize = 0 ∨ maxEntries = 0 then none else some ⟨maxEntries, 0, 0, 0, fun _ => 0⟩

/-- A product of `unsigned int`. -/
def slotOffset (valueSize index : Nat) : Nat := index * valueSize % 2 ^ 32

def nextIndex (index : Nat) : Nat := (index + 1) % 2 ^ 32 % q.maxEntries

def slot (index : Nat) : Vector UInt8 valueSize := Vector.ofFn fun i => q.data (slotOffset valueSize index + i)

def dequeue : Queue valueSize := { q with head := q.nextIndex q.head, count := q.count - 1 }

def enqueue (value : Vector UInt8 valueSize) : Queue valueSize :=
  { q with
    data := Bytes.write q.data (slotOffset valueSize q.tail) value.toList
    tail := q.nextIndex q.tail
    count := q.count + 1 }

def storage (valueSize : Nat) : Storage (Queue valueSize) (Vector UInt8 valueSize) where
  isEmpty q := q.count = 0
  isFull q := q.count ≥ q.maxEntries
  next q := q.slot q.head
  takeNext := dequeue
  discardOldest := dequeue
  append := enqueue

end Queue

/-! ## A vector of bytes -/

/-- `stack_map_impl`. -/
structure Stack (valueSize : Nat) where
  maxEntries : Nat
  data : List UInt8

namespace Stack

variable {valueSize : Nat} (s : Stack valueSize)

def new (valueSize maxEntries : Nat) : Option (Stack valueSize) :=
  if valueSize = 0 ∨ maxEntries = 0 then none else some ⟨maxEntries, []⟩

def getCurrentSize : Nat := s.data.length / valueSize

def top : Vector UInt8 valueSize :=
  Vector.ofFn fun i => s.data.getD ((s.getCurrentSize - 1) * valueSize + i) 0

def storage (valueSize : Nat) : Storage (Stack valueSize) (Vector UInt8 valueSize) where
  isEmpty s := s.data.isEmpty
  isFull s := s.getCurrentSize ≥ s.maxEntries
  next := top
  takeNext s := { s with data := s.data.take (s.data.length - valueSize) }
  discardOldest s := { s with data := s.data.drop valueSize }
  append s value := { s with data := s.data ++ value.toList }

end Stack

/-! ## Bounded lists -/

inductive Order where
  | fifo
  | lifo
  deriving DecidableEq

/-- The next element of a list with the oldest one first. -/
def Order.next? : Order → List α → Option α
  | .fifo, xs => xs.head?
  | .lifo, xs => xs.getLast?

def Order.rest : Order → List α → List α
  | .fifo, xs => xs.tail
  | .lifo, xs => xs.dropLast

/-- An element is added behind the others, with `BPF_EXIST` at the cost of the oldest if the list is full. -/
def pushList (capacity : Nat) (xs : List α) (x : α) (flags : UInt64) : Except Errno (Option α) × List α :=
  if ¬ (flags = BPF_ANY ∨ flags = BPF_EXIST) then (.error .EINVAL, xs)
  else if xs.length < capacity then (.ok none, xs ++ [x])
  else if flags = BPF_EXIST then (.ok none, xs.tail ++ [x])
  else (.error .E2BIG, xs)

/-- A bounded list under both interfaces. -/
def listStep (order : Order) (capacity : Nat) (xs : List α) : Call α → Except Errno (Option α) × List α
  | .update none _ | .push none _ | .pop true | .peek true => (.error .EINVAL, xs)
  | .update (some x) flags | .push (some x) flags => pushList capacity xs x flags
  | .lookup | .peek false =>
    match order.next? xs with
    | none => (.error .ENOENT, xs)
    | some x => (.ok (some x), xs)
  | .pop false =>
    match order.next? xs with
    | none => (.error .ENOENT, xs)
    | some x => (.ok (some x), order.rest xs)
  | .delete =>
    match order.next? xs with
    | none => (.error .ENOENT, xs)
    | some _ => (.ok none, order.rest xs)

theorem Order.next?_eq_none {order : Order} {xs : List α} : order.next? xs = none ↔ xs = [] := by
  cases order <;> simp [Order.next?]

/-- The storage does what the list does, as far as `R` relates them. -/
structure Implements (S : Storage σ α) (order : Order) (capacity : Nat) (R : σ → List α → Prop) : Prop where
  length_le {s xs} : R s xs → xs.length ≤ capacity
  isEmpty {s xs} : R s xs → (S.isEmpty s ↔ xs = [])
  isFull {s xs} : R s xs → (S.isFull s ↔ ¬ xs.length < capacity)
  next {s xs x} : R s xs → order.next? xs = some x → S.next s = x
  takeNext {s xs} : R s xs → xs ≠ [] → R (S.takeNext s) (order.rest xs)
  discardOldest {s xs} : R s xs → xs ≠ [] → R (S.discardOldest s) xs.tail
  append {s xs} : R s xs → xs.length < capacity → ∀ x, R (S.append s x) (xs ++ [x])

/-- The flags of an update that gets to look at them. -/
def Call.FlagsValid : Call α → Prop
  | .update (some _) flags => flags = BPF_ANY ∨ flags = BPF_EXIST
  | _ => True

section Refinement

variable {S : Storage σ α} {order : Order} {capacity : Nat} {R : σ → List α → Prop} {s : σ} {xs : List α}

section

variable (hS : Implements S order capacity R)
include hS

theorem pushChecked_eq (hcapacity : 0 < capacity) (h : R s xs) (x : α) {flags : UInt64}
    (hflags : flags = BPF_ANY ∨ flags = BPF_EXIST) :
    code (pushChecked S s x flags).1 = (pushList capacity xs x flags).1 ∧
      R (pushChecked S s x flags).2 (pushList capacity xs x flags).2 := by
  rw [pushChecked, pushList, if_neg (not_not.mpr hflags)]
  by_cases hroom : xs.length < capacity
  · have hfull : ¬ S.isFull s := fun hf => (hS.isFull h).mp hf hroom
    rw [if_neg hfull, if_pos hroom]
    exact ⟨rfl, hS.append h hroom x⟩
  · have hne : xs ≠ [] := by
      rintro rfl
      exact hroom hcapacity
    have htail : xs.tail.length < capacity := by
      have := hS.length_le h
      rw [List.length_tail]
      omega
    rw [if_pos ((hS.isFull h).mpr hroom), if_neg hroom]
    split_ifs
    · exact ⟨rfl, hS.append (hS.discardOldest h hne) htail x⟩
    · exact ⟨rfl, h⟩

theorem next_cases (h : R s xs) :
    (S.isEmpty s ∧ order.next? xs = none) ∨
      ¬ S.isEmpty s ∧ order.next? xs = some (S.next s) ∧ R (S.takeNext s) (order.rest xs) := by
  cases hnext : order.next? xs with
  | none => exact .inl ⟨(hS.isEmpty h).mpr (Order.next?_eq_none.mp hnext), rfl⟩
  | some x =>
    have hne : xs ≠ [] := fun hnil => by
      rw [Order.next?_eq_none.mpr hnil] at hnext
      cases hnext
    exact .inr ⟨fun hempty => hne ((hS.isEmpty h).mp hempty), by rw [hS.next h hnext], hS.takeNext h hne⟩

theorem step_eq (hcapacity : 0 < capacity) (h : R s xs) {c : Call α} (hc : c.FlagsValid) :
    (step S s c).1 = (listStep order capacity xs c).1 ∧ R (step S s c).2 (listStep order capacity xs c).2 := by
  cases c with
  | lookup =>
    rcases next_cases hS h with ⟨hempty, hnext⟩ | ⟨hempty, hnext, -⟩
    · simpa [step, listStep, elemLookup, hempty, hnext] using ⟨rfl, h⟩
    · simpa [step, listStep, elemLookup, hempty, hnext] using ⟨rfl, h⟩
  | update value flags =>
    cases value with
    | none => exact ⟨rfl, h⟩
    | some x => exact pushChecked_eq hS hcapacity h x hc
  | delete =>
    rcases next_cases hS h with ⟨hempty, hnext⟩ | ⟨hempty, hnext, hrest⟩
    · simpa [step, listStep, elemDelete, hempty, hnext, code] using h
    · simpa [step, listStep, elemDelete, hempty, hnext, code] using hrest
  | push value flags =>
    cases value with
    | none => exact ⟨rfl, h⟩
    | some x =>
      by_cases hflags : flags = BPF_ANY ∨ flags = BPF_EXIST
      · have hcheck : ¬ (flags ≠ 0 ∧ flags ≠ BPF_ANY ∧ flags ≠ BPF_EXIST) := fun hbad =>
          hflags.elim hbad.2.1 hbad.2.2
        have hpush := pushChecked_eq hS hcapacity h x hflags
        simp only [step, mapPushElem, if_neg hcheck]
        exact hpush
      · have hcheck : flags ≠ 0 ∧ flags ≠ BPF_ANY ∧ flags ≠ BPF_EXIST :=
          ⟨fun hz => hflags (.inl hz), fun hz => hflags (.inl hz), fun hz => hflags (.inr hz)⟩
        simp only [step, mapPushElem, if_pos hcheck, listStep, pushList, if_pos hflags]
        exact ⟨rfl, h⟩
  | pop bufferIsNull =>
    cases bufferIsNull with
    | true => exact ⟨rfl, h⟩
    | false =>
      rcases next_cases hS h with ⟨hempty, hnext⟩ | ⟨hempty, hnext, hrest⟩
      · simpa [step, listStep, mapPopElem, hempty, hnext] using ⟨rfl, h⟩
      · simpa [step, listStep, mapPopElem, hempty, hnext] using ⟨rfl, hrest⟩
  | peek bufferIsNull =>
    cases bufferIsNull with
    | true => exact ⟨rfl, h⟩
    | false =>
      rcases next_cases hS h with ⟨hempty, hnext⟩ | ⟨hempty, hnext, -⟩
      · simpa [step, listStep, mapPeekElem, hempty, hnext] using ⟨rfl, h⟩
      · simpa [step, listStep, mapPeekElem, hempty, hnext] using ⟨rfl, h⟩

end

/-- With other flags the list refuses an update, and the maps store it or are full. -/
theorem step_ne {c : Call α} (hc : ¬ c.FlagsValid) (s : σ) (xs : List α) :
    (step S s c).1 ≠ (listStep order capacity xs c).1 := by
  cases c with
  | update value flags =>
    cases value with
    | none => exact absurd trivial hc
    | some x =>
      have hflags : ¬ (flags = BPF_ANY ∨ flags = BPF_EXIST) := hc
      have hlist : (listStep order capacity xs (.update (some x) flags)).1 = .error .EINVAL := by
        rw [listStep, pushList, if_pos hflags]
      rw [hlist]
      simp only [step, elemUpdate, pushChecked, Prod.map_fst]
      split_ifs <;> simp [code]
  | lookup | delete | push _ _ | pop _ | peek _ => exact absurd trivial hc

theorem trace_eq_iff (hS : Implements S order capacity R) (hcapacity : 0 < capacity) (h : R s xs)
    (calls : List (Call α)) :
    trace (step S) s calls = trace (listStep order capacity) xs calls ↔ ∀ c ∈ calls, c.FlagsValid := by
  induction calls generalizing s xs with
  | nil => simp [trace]
  | cons c calls ih =>
    rw [trace, trace, List.cons.injEq, List.forall_mem_cons, Prod.mk.injEq]
    by_cases hc : c.FlagsValid
    · obtain ⟨hout, hnext⟩ := step_eq hS hcapacity h hc
      simp [hout, hc, ih hnext]
    · simp [hc, step_ne hc s xs]

/-- A failed call changes nothing. -/
def FailsCleanly (S : Storage σ α) (s : σ) (c : Call α) : Prop := ∀ e, (step S s c).1 = .error e → (step S s c).2 = s

theorem failsCleanly (S : Storage σ α) (s : σ) (c : Call α) : FailsCleanly S s c := by
  intro e he
  cases c with
  | lookup | peek _ => rfl
  | update value flags =>
    cases value with
    | none => rfl
    | some x =>
      simp only [step, elemUpdate, pushChecked] at he ⊢
      split_ifs at he ⊢ <;> first | rfl | cases he
  | delete =>
    simp only [step, elemDelete] at he ⊢
    split_ifs at he ⊢ <;> first | rfl | cases he
  | push value flags =>
    cases value with
    | none => rfl
    | some x =>
      simp only [step, mapPushElem, pushChecked] at he ⊢
      split_ifs at he ⊢ <;> first | rfl | cases he
  | pop bufferIsNull =>
    simp only [step, mapPopElem] at he ⊢
    split_ifs at he ⊢ <;> first | rfl | cases he

theorem step_preserves (S : Storage σ α) {P : σ → Prop} (htake : ∀ s, P s → P (S.takeNext s))
    (hdiscard : ∀ s, P s → P (S.discardOldest s)) (happend : ∀ s x, P s → P (S.append s x)) (c : Call α) (h : P s) :
    P (step S s c).2 := by
  have hpush (x : α) (flags : UInt64) : P (pushChecked S s x flags).2 := by
    rw [pushChecked]
    split_ifs
    · exact happend _ x (hdiscard s h)
    · exact h
    · exact happend s x h
  cases c with
  | lookup | peek _ => exact h
  | update value flags =>
    cases value with
    | none => exact h
    | some x => exact hpush x flags
  | delete =>
    simp only [step, elemDelete]
    split_ifs
    · exact h
    · exact htake s h
  | push value flags =>
    cases value with
    | none => exact h
    | some x =>
      simp only [step, mapPushElem]
      split_ifs
      · exact h
      · exact hpush x flags
  | pop bufferIsNull =>
    simp only [step, mapPopElem]
    split_ifs
    · exact h
    · exact h
    · exact htake s h

end Refinement

/-! ## The queue -/

namespace Queue

variable {valueSize capacity : Nat} {q : Queue valueSize} {xs : List (Vector UInt8 valueSize)}

/-- The elements stand in the slots from the head on, and the tail is behind the last. -/
structure Represents (capacity : Nat) (q : Queue valueSize) (xs : List (Vector UInt8 valueSize)) : Prop where
  maxEntries_eq : q.maxEntries = capacity
  head_lt : q.head < capacity
  count_le : q.count ≤ capacity
  tail_eq : q.tail = (q.head + q.count) % capacity
  contents : circular q.slot capacity q.head q.count = xs

/-- Slots below the capacity do not wrap, so a copy into one of them leaves the others alone. -/
theorem slot_enqueue (hsize : valueSize * capacity < 2 ^ 32) (htail : q.tail < capacity)
    (value : Vector UInt8 valueSize) {i : Nat} (hi : i < capacity) :
    (q.enqueue value).slot i = Function.update q.slot q.tail value i := by
  have hoffset {j : Nat} (hj : j < capacity) : slotOffset valueSize j = j * valueSize := by
    refine Nat.mod_eq_of_lt (lt_of_le_of_lt ?_ hsize)
    rw [Nat.mul_comm valueSize]
    exact Nat.mul_le_mul_right _ hj.le
  refine Vector.ext fun k hk => ?_
  simp only [slot, enqueue, Vector.getElem_ofFn, hoffset hi, hoffset htail]
  by_cases hsame : i = q.tail
  · subst hsame
    rw [Function.update_self, Bytes.write, if_pos (Nat.le_add_right _ _), Nat.add_sub_cancel_left]
    simp [hk]
  · rw [Function.update_of_ne hsame, slot, Vector.getElem_ofFn, hoffset hi]
    refine Bytes.write_of_ne _ _ _ _ fun l hl heq => hsame ?_
    have hl' : l < valueSize := by simpa using hl
    have hquot (j : Nat) {r : Nat} (hr : r < valueSize) : (j * valueSize + r) / valueSize = j := by
      rw [Nat.mul_comm, Nat.mul_add_div (by omega), Nat.div_eq_of_lt hr, Nat.add_zero]
    rw [← hquot i hk, heq, hquot q.tail hl']

theorem nextIndex_eq (h : q.maxEntries = capacity) (hcapacity : capacity < 2 ^ 32) {i : Nat} (hi : i < capacity) :
    q.nextIndex i = (i + 1) % capacity := by
  rw [nextIndex, h, Nat.mod_eq_of_lt (show i + 1 < 2 ^ 32 by omega)]

theorem Represents.count_pos (h : Represents capacity q xs) (hne : xs ≠ []) : 0 < q.count := by
  have hlen := congrArg List.length h.contents
  rw [length_circular] at hlen
  rw [hlen]
  exact List.length_pos_iff.mpr hne

theorem Represents.dequeue (h : Represents capacity q xs) (hcapacity : capacity < 2 ^ 32) (hne : xs ≠ []) :
    Represents capacity q.dequeue xs.tail := by
  have hpos : 0 < capacity := Nat.zero_lt_of_lt h.head_lt
  have hcount := h.count_pos hne
  have hle := h.count_le
  have hnext := nextIndex_eq h.maxEntries_eq hcapacity h.head_lt
  constructor
  · exact h.maxEntries_eq
  · change q.nextIndex q.head < capacity
    rw [hnext]
    exact Nat.mod_lt _ hpos
  · change q.count - 1 ≤ capacity
    omega
  · change q.tail = (q.nextIndex q.head + (q.count - 1)) % capacity
    rw [hnext, Nat.mod_add_mod, h.tail_eq, show q.head + 1 + (q.count - 1) = q.head + q.count by omega]
  · change circular q.slot capacity (q.nextIndex q.head) (q.count - 1) = xs.tail
    rw [hnext, circular_next, h.contents]

theorem Represents.enqueue (h : Represents capacity q xs) (hcapacity : capacity < 2 ^ 32)
    (hsize : valueSize * capacity < 2 ^ 32) (hroom : xs.length < capacity) (value : Vector UInt8 valueSize) :
    Represents capacity (q.enqueue value) (xs ++ [value]) := by
  have hpos : 0 < capacity := Nat.zero_lt_of_lt h.head_lt
  have hcount : q.count < capacity := by
    rwa [← h.contents, length_circular] at hroom
  have htail : q.tail < capacity := by
    rw [h.tail_eq]
    exact Nat.mod_lt _ hpos
  constructor
  · exact h.maxEntries_eq
  · exact h.head_lt
  · exact hcount
  · change q.nextIndex q.tail = (q.head + (q.count + 1)) % capacity
    rw [nextIndex_eq h.maxEntries_eq hcapacity htail, h.tail_eq, Nat.mod_add_mod, Nat.add_assoc]
  · change circular (q.enqueue value).slot capacity q.head (q.count + 1) = xs ++ [value]
    rw [circular_congr _ hpos fun i hi => slot_enqueue hsize htail value hi, h.tail_eq, circular_update _ hcount,
      h.contents]

theorem implements_fifo (hcapacity : capacity < 2 ^ 32) (hsize : valueSize * capacity < 2 ^ 32) :
    Implements (storage valueSize) .fifo capacity (Represents capacity) where
  length_le {q xs} h := by
    rw [← h.contents, length_circular]
    exact h.count_le
  isEmpty {q xs} h := by
    rw [← List.length_eq_zero_iff, ← h.contents, length_circular]
    simp [storage]
  isFull {q xs} h := by
    rw [← h.contents, length_circular]
    simp [storage, h.maxEntries_eq]
  next {q xs x} h hnext := by
    have hcount : 0 < q.count := h.count_pos fun hnil => by simp [Order.next?, hnil] at hnext
    rw [Order.next?, ← h.contents, head?_circular _ h.head_lt hcount] at hnext
    exact Option.some.inj hnext
  takeNext h hne := h.dequeue hcapacity hne
  discardOldest h hne := h.dequeue hcapacity hne
  append h hroom value := h.enqueue hcapacity hsize hroom value

theorem represents_new (h : new valueSize capacity = some q) :
    Represents capacity q [] ∧ 0 < valueSize ∧ 0 < capacity := by
  rw [new] at h
  split_ifs at h with hzero
  cases h
  have hpos : 0 < valueSize ∧ 0 < capacity := by omega
  exact ⟨⟨rfl, hpos.2, Nat.zero_le _, (Nat.zero_mod _).symm, rfl⟩, hpos⟩

end Queue

/-! ## The stack -/

namespace Stack

variable {valueSize capacity : Nat} {s : Stack valueSize} {xs : List (Vector UInt8 valueSize)}

/-- The elements stand one behind the other, the newest last. -/
structure Represents (capacity : Nat) (s : Stack valueSize) (xs : List (Vector UInt8 valueSize)) : Prop where
  maxEntries_eq : s.maxEntries = capacity
  length_le : xs.length ≤ capacity
  contents : s.data = xs.flatMap Vector.toList

theorem length_row (x : Vector UInt8 valueSize) : x.toList.length = valueSize := by simp

theorem Represents.getCurrentSize_eq (h : Represents capacity s xs) (hpos : 0 < valueSize) :
    s.getCurrentSize = xs.length := by
  rw [getCurrentSize, h.contents, length_rows length_row, Nat.mul_div_cancel _ hpos]

theorem Represents.top_eq (h : Represents capacity s xs) (hpos : 0 < valueSize) {x : Vector UInt8 valueSize}
    (hx : xs.getLast? = some x) : s.top = x := by
  obtain ⟨ys, rfl⟩ := List.getLast?_eq_some_iff.mp hx
  refine Vector.ext fun i hi => ?_
  rw [top, Vector.getElem_ofFn, h.getCurrentSize_eq hpos, h.contents]
  simp [hi]

theorem implements_lifo (hpos : 0 < valueSize) :
    Implements (storage valueSize) .lifo capacity (Represents capacity) where
  length_le h := h.length_le
  isEmpty {s xs} h := by
    have hlen : s.data.length = xs.length * valueSize := by rw [h.contents, length_rows length_row]
    simp only [storage, List.isEmpty_iff_length_eq_zero, hlen]
    simp [hpos.ne']
  isFull {s xs} h := by simp [storage, h.getCurrentSize_eq hpos, h.maxEntries_eq]
  next h hnext := h.top_eq hpos hnext
  takeNext {s xs} h hne := by
    obtain ⟨x, hx⟩ := Option.ne_none_iff_exists'.mp (List.getLast?_eq_none_iff.not.mpr hne)
    obtain ⟨ys, rfl⟩ := List.getLast?_eq_some_iff.mp hx
    have hle := h.length_le
    refine ⟨h.maxEntries_eq, ?_, ?_⟩
    · simp [Order.rest] at hle ⊢
      omega
    · change s.data.take (s.data.length - valueSize) = (ys ++ [x]).dropLast.flatMap Vector.toList
      have hlen : s.data.length - valueSize = ys.length * valueSize := by
        rw [h.contents, length_rows length_row, List.length_append, List.length_singleton, Nat.succ_mul,
          Nat.add_sub_cancel]
      rw [hlen, h.contents, take_rows_concat length_row, List.dropLast_concat]
  discardOldest {s xs} h _ := by
    have hle := h.length_le
    refine ⟨h.maxEntries_eq, ?_, ?_⟩
    · rw [List.length_tail]
      omega
    · change s.data.drop valueSize = _
      rw [h.contents, drop_rows length_row]
  append {s xs} h hroom x := by
    refine ⟨h.maxEntries_eq, ?_, ?_⟩
    · rw [List.length_append]
      exact hroom
    · change s.data ++ x.toList = _
      rw [h.contents, List.flatMap_append]
      simp

theorem represents_new (h : new valueSize capacity = some s) : Represents capacity s [] := by
  rw [new] at h
  split_ifs at h
  cases h
  exact ⟨rfl, Nat.zero_le _, rfl⟩

end Stack

/-- From creation on, the queue map answers every sequence of calls as a bounded FIFO list and
the stack map as a bounded LIFO list, under both interfaces, exactly if every update has
the flags that a push may have; a failed call changes nothing. -/
theorem queue_stack_bounded_iff (valueSize capacity : Nat) (hsize : valueSize * capacity < 2 ^ 32)
    (q : Queue valueSize) (hq : Queue.new valueSize capacity = some q)
    (s : Stack valueSize) (hs : Stack.new valueSize capacity = some s) (calls : List (Call (Vector UInt8 valueSize))) :
    (trace (step (Queue.storage valueSize)) q calls = trace (listStep .fifo capacity) [] calls ∧
        trace (step (Stack.storage valueSize)) s calls = trace (listStep .lifo capacity) [] calls ↔
      ∀ c ∈ calls, c.FlagsValid) ∧
    Always (step (Queue.storage valueSize)) (FailsCleanly (Queue.storage valueSize)) q calls ∧
    Always (step (Stack.storage valueSize)) (FailsCleanly (Stack.storage valueSize)) s calls := by
  obtain ⟨hqueue, hpos, hcapacity⟩ := Queue.represents_new hq
  have hbound : capacity < 2 ^ 32 := lt_of_le_of_lt (Nat.le_mul_of_pos_left _ hpos) hsize
  have hstack := Stack.represents_new hs
  refine ⟨?_, always_of_forall (failsCleanly _) q calls, always_of_forall (failsCleanly _) s calls⟩
  rw [trace_eq_iff (Queue.implements_fifo hbound hsize) hcapacity hqueue,
    trace_eq_iff (Stack.implements_lifo hpos) hcapacity hstack, and_self]

/-- Pushes into a queue and a stack of two elements of one byte each, the last with `BPF_EXIST`, then a pop. -/
theorem queue_stack_bounded_iff_two_bytes :
    let calls : List (Call (Vector UInt8 1)) :=
      [.update (some #v[1]) 0, .push (some #v[2]) 0, .push (some #v[3]) 0, .push (some #v[3]) BPF_EXIST, .pop false]
    1 * 2 < 2 ^ 32 ∧ ∃ q s, Queue.new 1 2 = some q ∧ Stack.new 1 2 = some s ∧
      trace (step (Queue.storage 1)) q calls = trace (listStep .fifo 2) [] calls ∧
        trace (step (Stack.storage 1)) s calls = trace (listStep .lifo 2) [] calls := by
  refine ⟨by decide, _, _, rfl, rfl, ?_⟩
  refine (queue_stack_bounded_iff 1 2 (by decide) _ rfl _ rfl _).1.mpr fun c hc => ?_
  simp only [List.mem_cons, List.not_mem_nil, or_false] at hc
  rcases hc with rfl | rfl | rfl | rfl | rfl
  · exact .inl rfl
  all_goals trivial

/-- An update with `BPF_NOEXIST` is stored, a push is refused. -/
theorem update_flags_unchecked :
    ∃ q s, Queue.new 1 2 = some q ∧ Stack.new 1 2 = some s ∧
      (trace (step (Queue.storage 1)) q [.update (some #v[7]) 1, .push (some #v[7]) 1, .lookup]).map Prod.snd =
        [.ok none, .error .EINVAL, .ok (some #v[7])] ∧
      (trace (step (Stack.storage 1)) s [.update (some #v[7]) 1, .push (some #v[7]) 1, .lookup]).map Prod.snd =
        [.ok none, .error .EINVAL, .ok (some #v[7])] :=
  ⟨_, _, rfl, rfl, by decide +kernel, by decide +kernel⟩

end QueueStack
