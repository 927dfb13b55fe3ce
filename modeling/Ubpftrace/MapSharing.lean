import Ubpftrace.HandlerTable

/-!
# Sharing of map implementations

`dup_bpf_map` lets a second fd refer to the implementation of a map and raises its
counter; `map_free` lowers the counter and destroys the implementation with the last
reference. The counters agree with the table along every run, up to two slips. An fd
that is duplicated onto itself is cleared before its handler is read. And a map that
a registered `alloc_map` holds has no pointer, so `map_free` returns before it comes
to the registered function.
-/

namespace HandlerTable

open Runs (Reaches run reaches_of_run)

def Handler.implPtr : Handler → Option Nat
  | .map m => m.mapImplPtr
  | _ => none

def Handler.refcntPtr : Handler → Option Nat
  | .map m => m.mapRefcntPtr
  | _ => none

/-- The map of a registered `alloc_map` that a handler stands for. -/
def Handler.external (c : Config) : Handler → Option (CInt × CInt)
  | .map m => if initCase c m.attr = .alloc then some (m.attr.type, m.id) else none
  | _ => none

/-- `oldfd` of a duplication. -/
def Op.duplicates : Op → CInt → Bool
  | .dupBpfMap oldfd _ _, fd => oldfd = fd
  | _, _ => false

namespace Shm

def sharers (s : Shm) (i : Nat) : Nat := s.handlers.countP (·.implPtr = some i)

def externalHolders (c : Config) (s : Shm) (e : CInt × CInt) : Nat := s.handlers.countP (·.external c = some e)

/-- The implementation has been constructed and not been destroyed. -/
def Live (s : Shm) (i : Nat) : Prop := s.impls[i]? = some true

def mapAt (s : Shm) (fd : CInt) : Option MapHandler :=
  match s.slot fd with
  | some (.map m) => some m
  | _ => none

/-- The operation closes the fd, or replaces what it holds. Duplicating an fd onto itself does not. -/
def Closes (s : Shm) (a : Op) (fd : CInt) : Prop := s.clears a = some fd ∧ a.duplicates fd = false

end Shm

/-- Every counter is the number of fds that share the implementation, every
implementation that an fd refers to is there, and none is left without an fd. -/
structure Shared (c : Config) (s : Shm) : Prop where
  counted : ∀ fd m i, s.slot fd = some (.map m) → m.mapImplPtr = some i →
    s.Live i ∧ ∃ r, m.mapRefcntPtr = some r ∧ s.refcnts[r]? = some (some (s.sharers i))
  held : ∀ i, s.Live i → s.sharers i ≠ 0
  external : ∀ e, s.externals.count e = s.externalHolders c e

/-- An operation destroys exactly the implementations whose fds it closes. -/
def DestroysLast (s : Shm) (a : Op) (s' : Shm) : Prop :=
  ∀ i, s.Live i → (¬ s'.Live i ↔ ∀ fd m, s.slot fd = some (.map m) → m.mapImplPtr = some i → s.Closes a fd)

/-- The fd that the operation clears holds no map of a registered `alloc_map`, and is
not duplicated onto itself while it alone has its implementation. -/
def Regular (c : Config) (s : Shm) (a : Op) : Prop :=
  ∀ fd ∈ s.clears a, ∀ m ∈ s.mapAt fd, initCase c m.attr ≠ .alloc ∧
    (a.duplicates fd → ∀ i ∈ m.mapImplPtr, s.sharers i ≠ 1)

instance (c : Config) (s : Shm) (a : Op) : Decidable (Regular c s a) :=
  -- by the option, and not by all values of the fd
  Option.decidableForallMem (p := fun fd => ∀ m ∈ s.mapAt fd, initCase c m.attr ≠ .alloc ∧
    (a.duplicates fd → ∀ i ∈ m.mapImplPtr, s.sharers i ≠ 1)) (s.clears a)

/-- What holds of the handler in the slot `k`. -/
structure Entered (c : Config) (k : Nat) (h : Handler) : Prop where
  -- a counter is constructed with its implementation, so that the two have one number
  paired : h.refcntPtr = h.implPtr
  built : ∀ m, h = .map m → m.mapImplPtr ≠ none → initCase c m.attr = .construct
  -- an fd is an `int`
  small : h ≠ .unused → 2 * k < 2 ^ 32

/-- The implementation and the counter with a number, if `n` fds share them. -/
def Shm.Cell (s : Shm) (i n : Nat) : Prop :=
  s.impls[i]? = some (decide (n ≠ 0)) ∧ s.refcnts[i]? = some (if n = 0 then none else some n)

structure Accounts (c : Config) (s : Shm) : Prop where
  entered : ∀ k h, s.handlers[k]? = some h → Entered c k h
  sizes : s.refcnts.length = s.impls.length
  cells : ∀ i, i < s.impls.length → s.Cell i (s.sharers i)
  fresh : ∀ i, s.impls.length ≤ i → s.sharers i = 0
  external : ∀ e, s.externals.count e = s.externalHolders c e

namespace Shm

variable {c : Config} {s s' : Shm} {a : Op} {fd fd' : CInt} {h h' : Handler} {m : MapHandler} {i : Nat}
    {q : Handler → Bool}

/-! ## Counting handlers -/

theorem countP_put (q : Handler → Bool) (hs : s.slot fd = some h) (h' : Handler) :
    (s.put fd h').handlers.countP q + (if q h then 1 else 0) = s.handlers.countP q + if q h' then 1 else 0 := by
  obtain ⟨hlt, hval⟩ := List.getElem?_eq_some_iff.mp (slot_eq_some hs).2
  have hpos : q h → 0 < s.handlers.countP q := by
    intro hq
    exact List.countP_pos_iff.mpr ⟨h, hval ▸ List.getElem_mem hlt, hq⟩
  simp only [put, List.countP_set hlt, hval]
  by_cases hq : q h
  · have := hpos hq
    simp only [hq, if_true]
    omega
  · simp [hq]

/-- Links and free slots are not counted. -/
structure Counts (q : Handler → Bool) : Prop where
  unused : q .unused = false
  link : ∀ l, q (.link l) = false

theorem counts_implPtr (i : Nat) : Counts (·.implPtr = some i) := ⟨rfl, fun _ => rfl⟩

theorem counts_external (c : Config) (e : CInt × CInt) : Counts (·.external c = some e) := ⟨rfl, fun _ => rfl⟩

theorem countP_clearLinks (hq : Counts q) (s : Shm) (refers : LinkHandler → Bool) :
    (s.clearLinks refers).handlers.countP q = s.handlers.countP q := by
  rw [clearLinks, List.countP_map]
  apply List.countP_congr
  intro h _
  cases h with
  | link l =>
    simp only [Function.comp_apply, dropLink, hq.link]
    split <;> simp [hq.unused, hq.link]
  | _ => exact Iff.rfl

/-- The memory after the handler of an fd has been freed. -/
def freed (s : Shm) : Handler → Shm
  | .map m => s.mapFree m
  | _ => s

theorem clearIdAt_eq (hs : s.slot fd = some h) : ∃ refers : LinkHandler → Bool,
    s.clearIdAt fd = ((s.freed h).clearLinks refers).put fd .unused := by
  have hnone : ∀ t : Shm, t.clearLinks (fun _ => false) = t := by
    intro t
    rw [clearLinks, dropLink_none, List.map_id]
  unfold clearIdAt
  rw [hs]
  cases h with
  | map m | unused | link l | epoll | memfd flags name => exact ⟨fun _ => false, by rw [hnone]; rfl⟩
  | perfEvent e | prog p => exact ⟨_, rfl⟩

theorem handlers_freed (s : Shm) (h : Handler) : (s.freed h).handlers = s.handlers := by
  cases h with
  | map m => exact handlers_mapFree s m
  | _ => rfl

theorem countP_clearIdAt (hq : Counts q) (hs : s.slot fd = some h) :
    (s.clearIdAt fd).handlers.countP q + (if q h then 1 else 0) = s.handlers.countP q := by
  obtain ⟨refers, hclear⟩ := clearIdAt_eq hs
  have hcleared : ((s.freed h).clearLinks refers).handlers.countP q = s.handlers.countP q := by
    rw [countP_clearLinks hq, handlers_freed]
  have hslot : ∃ h', ((s.freed h).clearLinks refers).slot fd = some h' ∧ q h' = q h := by
    rw [slot_clearLinks, slot_congr (handlers_freed s h) fd, hs]
    cases h with
    | link l =>
      by_cases hl : refers l
      · exact ⟨.unused, by simp [dropLink, hl], by rw [hq.unused, hq.link]⟩
      · exact ⟨.link l, by simp [dropLink, hl], rfl⟩
    | _ => exact ⟨_, rfl, rfl⟩
  obtain ⟨h', hh', hqeq⟩ := hslot
  have hput := countP_put q hh' .unused
  rw [hqeq, hcleared, hq.unused] at hput
  rw [hclear, hput]
  rfl

theorem externals_mapFree (s : Shm) (m : MapHandler) : (s.mapFree m).externals = s.externals := by
  unfold mapFree
  repeat' split
  all_goals rfl

theorem externals_clearIdAt (s : Shm) (fd : CInt) : (s.clearIdAt fd).externals = s.externals := by
  unfold clearIdAt
  split <;> first | rfl | exact externals_mapFree s _

theorem length_impls_clearIdAt (s : Shm) (fd : CInt) : (s.clearIdAt fd).impls.length = s.impls.length := by
  have hfree : ∀ m, (s.mapFree m).impls.length = s.impls.length := by
    intro m
    unfold mapFree
    repeat' split
    all_goals simp
  unfold clearIdAt
  split <;> first | rfl | exact hfree _

/-- Storing a new map changes the registered maps and their holders alike. -/
theorem store_external (hs : s.slot fd = some .unused) (hnone : m.mapImplPtr = none) (e : CInt × CInt) :
    (s.store c fd (.map m)).externals.count e + s.externalHolders c e =
      s.externals.count e + (s.store c fd (.map m)).externalHolders c e := by
  have hput := countP_put (·.external c = some e) ((slot_congr (handlers_mapInit c s m) fd).trans hs)
    (.map (s.mapInit c m).1)
  simp only [store, if_pos hnone, externalHolders]
  have hunused : (Handler.unused.external c = some e) = False := by simp [Handler.external]
  simp only [hunused, decide_false, Bool.false_eq_true, if_false, Nat.add_zero] at hput
  rw [hput]
  have hkind : (s.mapInit c m).1.attr = m.attr ∧ (s.mapInit c m).1.id = m.id :=
    ⟨(mapInit_sameKind c s m).2.2, (mapInit_sameKind c s m).1⟩
  simp only [Handler.external, hkind, put]
  unfold mapInit
  cases hcase : initCase c m.attr with
  | alloc =>
    by_cases heq : (m.attr.type, m.id) = e
    · simp [heq]
      omega
    · simp [heq]
  | _ => simp

theorem sharers_congr (hh : s'.handlers = s.handlers) (i : Nat) : s'.sharers i = s.sharers i := by
  rw [sharers, hh, sharers]

theorem getElem?_put {k : Nat} (hk : (s.put fd h).handlers[k]? = some h') :
    s.handlers[k]? = some h' ∨ k = fd.toNat ∧ h' = h := by
  simp only [put, List.getElem?_set] at hk
  split at hk
  · next heq =>
    split at hk
    · exact .inr ⟨heq.symm, (Option.some.inj hk).symm⟩
    · cases hk
  · exact .inl hk

section

variable (hs : s.slot fd = some h)
include hs

theorem sharers_put (h' : Handler) (i : Nat) :
    (s.put fd h').sharers i + (if h.implPtr = some i then 1 else 0) =
      s.sharers i + if h'.implPtr = some i then 1 else 0 := by
  simpa [sharers] using countP_put (·.implPtr = some i) hs h'

theorem sharers_put_of_none (hi : h.implPtr = none) (hi' : h'.implPtr = none) (i : Nat) :
    (s.put fd h').sharers i = s.sharers i := by
  simpa [hi, hi'] using sharers_put hs h' i

theorem sharers_clearIdAt (i : Nat) :
    (s.clearIdAt fd).sharers i + (if h.implPtr = some i then 1 else 0) = s.sharers i := by
  simpa [sharers] using countP_clearIdAt (counts_implPtr i) hs

theorem externalHolders_clearIdAt (e : CInt × CInt) :
    (s.clearIdAt fd).externalHolders c e + (if h.external c = some e then 1 else 0) = s.externalHolders c e := by
  simpa [externalHolders] using countP_clearIdAt (counts_external c e) hs

theorem getElem?_clearIdAt {k : Nat} (hk : (s.clearIdAt fd).handlers[k]? = some h') (hused : h' ≠ .unused) :
    s.handlers[k]? = some h' := by
  obtain ⟨refers, hclear⟩ := clearIdAt_eq hs
  rw [hclear] at hk
  simp only [put, clearLinks, handlers_freed, List.getElem?_set] at hk
  split at hk
  · split at hk
    · exact absurd (Option.some.inj hk).symm hused
    · cases hk
  · rw [List.getElem?_map] at hk
    obtain ⟨h'', hget, hdrop⟩ := Option.map_eq_some_iff.mp hk
    cases h'' with
    | link l =>
      simp only [dropLink] at hdrop
      split at hdrop
      · exact absurd hdrop.symm hused
      · rw [hget, hdrop]
    | _ => rw [hget, ← hdrop]; rfl

theorem small_of_slot : 2 * fd.toNat < 2 ^ 32 := by
  have := lt_of_slot hs
  omega

theorem mem_of_slot : h ∈ s.handlers := List.mem_of_getElem? (slot_eq_some hs).2

theorem sharers_ne_zero (hi : h.implPtr = some i) : s.sharers i ≠ 0 := by
  have hpos : 0 < s.sharers i := List.countP_pos_iff.mpr ⟨h, mem_of_slot hs, by simpa using hi⟩
  omega

end

end Shm

open Shm

namespace Accounts

variable {c : Config} {s s' : Shm} {a : Op} {fd fd' oldfd : CInt} {h h' : Handler} {m handler : MapHandler} {i : Nat}

theorem entered_unused (k : Nat) : Entered c k .unused :=
  ⟨rfl, fun _ heq => (by cases heq), fun hused => absurd rfl hused⟩

theorem create (c : Config) (n : Nat) : Accounts c (create n) := by
  have hunused : ∀ h ∈ (HandlerTable.create n).handlers, h = .unused := fun h hh => List.eq_of_mem_replicate hh
  have hcount : ∀ q : Handler → Bool, q .unused = false → (HandlerTable.create n).handlers.countP q = 0 := by
    intro q hq
    apply List.countP_eq_zero.mpr
    intro h hh
    rw [hunused h hh, hq]
    simp
  constructor
  · intro k h hk
    rw [hunused h (List.mem_of_getElem? hk)]
    exact entered_unused k
  · rfl
  · intro i hi
    cases hi
  · intro i _
    exact hcount _ rfl
  · intro e
    exact (hcount _ rfl).symm

theorem freed_of_none (s : Shm) (hi : h.implPtr = none) : s.freed h = s := by
  cases h with
  | map m =>
    have himpl : m.mapImplPtr = none := hi
    simp only [freed, mapFree, himpl]
  | _ => rfl

/-- A map of the repository's own types is no map of a registered `alloc_map`. -/
theorem externalHolders_share (hs : s.slot fd = some .unused) (hcase : initCase c handler.attr = .construct)
    (e : CInt × CInt) :
    ((s.incMapRefcount handler).put fd (.map { handler with id := fd })).externalHolders c e =
      s.externalHolders c e := by
  have hslot := (slot_congr (handlers_incMapRefcount s handler) fd).trans hs
  have hput := countP_put (·.external c = some e) hslot (.map { handler with id := fd })
  simpa [externalHolders, Handler.external, hcase] using hput

theorem externals_incMapRefcount (s : Shm) (m : MapHandler) : (s.incMapRefcount m).externals = s.externals := by
  unfold incMapRefcount
  split <;> rfl

theorem exists_sharer (hsmall : ∀ k h, s.handlers[k]? = some h → h ≠ Handler.unused → 2 * k < 2 ^ 32)
    (hne : s.sharers i ≠ 0) : ∃ fd m, s.slot fd = some (.map m) ∧ m.mapImplPtr = some i := by
  obtain ⟨h, hmem, hptr⟩ := List.countP_pos_iff.mp (Nat.pos_of_ne_zero hne)
  simp only [decide_eq_true_eq] at hptr
  cases h with
  | map m =>
    obtain ⟨k, hk⟩ := List.getElem?_of_mem hmem
    have hlt := hsmall k _ hk (by simp)
    exact ⟨BitVec.ofNat 32 k, m, (slot_ofNat (by omega)).trans hk, hptr⟩
  | _ => cases hptr

theorem store_grows (c : Config) (s : Shm) (fd : CInt) (himpl : m.mapImplPtr = none) :
    s.impls.length ≤ (s.store c fd (.map m)).impls.length := by
  simp only [Shm.store, if_pos himpl, mapInit, put]
  split <;> simp

theorem sharers_store (hs : s.slot fd = some .unused) (himpl : m.mapImplPtr = none) (hlt : i < s.impls.length) :
    (s.store c fd (.map m)).sharers i = s.sharers i := by
  have hput := sharers_put ((slot_congr (handlers_mapInit c s m) fd).trans hs) (.map (s.mapInit c m).1) i
  rw [sharers_congr (handlers_mapInit c s m)] at hput
  have hptr : (s.mapInit c m).1.mapImplPtr ≠ some i := by
    unfold mapInit
    split
    · simp only [ne_eq, Option.some.injEq]
      omega
    all_goals simp [himpl]
  have hnew : (Handler.map (s.mapInit c m).1).implPtr ≠ some i := hptr
  rw [if_neg hnew, if_neg (by simp [Handler.implPtr])] at hput
  simpa only [Shm.store, if_pos himpl, Nat.add_zero] using hput

theorem mapAt_eq (hs : s.slot fd = some (.map m)) : s.mapAt fd = some m := by
  rw [mapAt, hs]

theorem external_none (hreg : Regular c s a) (hclears : s.clears a = some fd) (hs : s.slot fd = some h) :
    h.external c = none := by
  cases h with
  | map m =>
    have hcase := (hreg fd hclears m (mapAt_eq hs)).1
    simp only [Handler.external, if_neg hcase]
  | _ => rfl

section

variable (hA : Accounts c s)
include hA

theorem live_iff (i : Nat) : s.Live i ↔ i < s.impls.length ∧ s.sharers i ≠ 0 := by
  constructor
  · intro hlive
    obtain ⟨hlt, _⟩ := List.getElem?_eq_some_iff.mp hlive
    refine ⟨hlt, ?_⟩
    rw [Live, (hA.cells i hlt).1, Option.some.injEq, decide_eq_true_eq] at hlive
    exact hlive
  · intro ⟨hlt, hne⟩
    rw [Live, (hA.cells i hlt).1, decide_eq_true hne]

theorem bound (hne : s.sharers i ≠ 0) : i < s.impls.length := by
  by_contra hge
  exact hne (hA.fresh i (Nat.le_of_not_lt hge))

theorem refcnt_eq (hne : s.sharers i ≠ 0) : s.refcnt i = s.sharers i := by
  rw [refcnt, List.getD_eq_getElem?_getD, (hA.cells i (hA.bound hne)).2, if_neg hne]
  rfl

section

variable (hs : s.slot fd = some h)
include hs

theorem entered_of_slot : Entered c fd.toNat h := hA.entered _ _ (slot_eq_some hs).2

theorem put_other (hh : ∀ m, h ≠ .map m) (hh' : ∀ m, h' ≠ .map m) : Accounts c (s.put fd h') := by
  have himpl : ∀ h : Handler, (∀ m, h ≠ .map m) → h.implPtr = none ∧ h.refcntPtr = none ∧ h.external c = none := by
    intro h hm
    cases h with
    | map m => exact absurd rfl (hm m)
    | _ => exact ⟨rfl, rfl, rfl⟩
  obtain ⟨hi, _, he⟩ := himpl h hh
  obtain ⟨hi', hr', he'⟩ := himpl h' hh'
  have hshare : ∀ i, (s.put fd h').sharers i = s.sharers i := by
    intro i
    exact sharers_put_of_none hs hi hi' i
  have hhold : ∀ e, (s.put fd h').externalHolders c e = s.externalHolders c e := by
    intro e
    simpa [he, he', externalHolders] using countP_put (·.external c = some e) hs h'
  constructor
  · intro k g hk
    obtain hold | ⟨rfl, rfl⟩ := getElem?_put hk
    · exact hA.entered k g hold
    · exact ⟨by rw [hi', hr'], fun m heq => absurd heq (hh' m), fun _ => small_of_slot hs⟩
  · exact hA.sizes
  · intro i hlt
    rw [hshare]
    exact hA.cells i hlt
  · intro i hge
    rw [hshare]
    exact hA.fresh i hge
  · intro e
    rw [hhold]
    exact hA.external e

theorem freed_cells (hi : h.implPtr = some i) :
    (s.freed h).impls = (if s.sharers i = 1 then s.impls.set i false else s.impls) ∧
      (s.freed h).refcnts = s.refcnts.set i (if s.sharers i = 1 then none else some (s.sharers i - 1)) := by
  cases h with
  | map m =>
    have himpl : m.mapImplPtr = some i := hi
    have hrefcnt : m.mapRefcntPtr = some i := (hA.entered_of_slot hs).paired.trans hi
    have hne := sharers_ne_zero hs hi
    simp only [freed, mapFree, himpl, hrefcnt, hA.refcnt_eq hne]
    by_cases hone : s.sharers i = 1
    · rw [if_neg (by omega), if_pos hone, if_pos hone]
      exact ⟨rfl, rfl⟩
    · rw [if_pos (by omega), if_neg hone, if_neg hone]
      exact ⟨rfl, rfl⟩
  | _ => cases hi

theorem clear_cells (i : Nat) (hlt : i < s.impls.length) : (s.clearIdAt fd).Cell i ((s.clearIdAt fd).sharers i) := by
  obtain ⟨refers, hclear⟩ := clearIdAt_eq hs
  have himpls : (s.clearIdAt fd).impls = (s.freed h).impls := by rw [hclear]; rfl
  have hrefcnts : (s.clearIdAt fd).refcnts = (s.freed h).refcnts := by rw [hclear]; rfl
  have hcount := sharers_clearIdAt hs i
  have hcells := hA.cells i hlt
  rw [Cell, himpls, hrefcnts]
  cases hptr : h.implPtr with
  | none =>
    rw [hptr, if_neg (by simp), Nat.add_zero] at hcount
    rw [freed_of_none s hptr, hcount]
    exact hcells
  | some j =>
    obtain ⟨hfi, hfr⟩ := hA.freed_cells hs hptr
    rw [hfi, hfr]
    by_cases heq : j = i
    · subst heq
      rw [hptr, if_pos rfl] at hcount
      have hsize := hA.sizes
      by_cases hone : s.sharers j = 1
      · have hzero : (s.clearIdAt fd).sharers j = 0 := by omega
        rw [if_pos hone, if_pos hone, hzero, List.getElem?_set_self hlt, List.getElem?_set_self (hsize ▸ hlt)]
        exact ⟨rfl, rfl⟩
      · have hrest : (s.clearIdAt fd).sharers j = s.sharers j - 1 := by omega
        have hne := sharers_ne_zero hs hptr
        simp only [if_neg hone, hrest, List.getElem?_set_self (hsize ▸ hlt), hcells.1]
        rw [if_neg (by omega)]
        exact ⟨by rw [decide_eq_true hne, decide_eq_true (by omega)], rfl⟩
    · rw [hptr, if_neg (by simpa using heq), Nat.add_zero] at hcount
      rw [hcount]
      refine ⟨?_, ?_⟩
      · split
        · rw [List.getElem?_set_ne heq]
          exact hcells.1
        · exact hcells.1
      · rw [List.getElem?_set_ne heq]
        exact hcells.2

theorem clear (hext : h.external c = none) : Accounts c (s.clearIdAt fd) := by
  have hlen := length_impls_clearIdAt s fd
  constructor
  · intro k g hk
    by_cases hne : g = .unused
    · rw [hne]
      exact entered_unused k
    · exact hA.entered k g (getElem?_clearIdAt hs hk hne)
  · rw [hlen, ← hA.sizes]
    obtain ⟨refers, hclear⟩ := clearIdAt_eq hs
    have hrefcnts : (s.clearIdAt fd).refcnts = (s.freed h).refcnts := by rw [hclear]; rfl
    rw [hrefcnts]
    cases hptr : h.implPtr with
    | none => rw [freed_of_none s hptr]
    | some j => rw [(hA.freed_cells hs hptr).2, List.length_set]
  · intro i hlt
    exact hA.clear_cells hs i (hlen ▸ hlt)
  · intro i hge
    have := hA.fresh i (hlen ▸ hge)
    have := sharers_clearIdAt hs i
    omega
  · intro e
    have hcount : (s.clearIdAt fd).externalHolders c e + _ = _ := externalHolders_clearIdAt hs e
    rw [hext, if_neg (by simp), Nat.add_zero] at hcount
    rw [externals_clearIdAt, hA.external e, hcount]

end

/-- A map is put into a free slot, in a memory that accounts for it. -/
theorem put_map {t : Shm} (hh : t.handlers = s.handlers) (hs : s.slot fd = some .unused)
    (hpaired : m.mapRefcntPtr = m.mapImplPtr) (hbuilt : m.mapImplPtr ≠ none → initCase c m.attr = .construct)
    (hsizes : t.refcnts.length = t.impls.length)
    (hcells : ∀ i n, i < t.impls.length → n = s.sharers i + (if m.mapImplPtr = some i then 1 else 0) → t.Cell i n)
    (hfresh : ∀ i, t.impls.length ≤ i → s.sharers i = 0 ∧ m.mapImplPtr ≠ some i)
    (hext : ∀ e, (t.put fd (.map m)).externals.count e = (t.put fd (.map m)).externalHolders c e) :
    Accounts c (t.put fd (.map m)) := by
  have hslot : t.slot fd = some .unused := (slot_congr hh fd).trans hs
  have hshare : ∀ i, (t.put fd (.map m)).sharers i = s.sharers i + if m.mapImplPtr = some i then 1 else 0 := by
    intro i
    have hput := sharers_put hslot (.map m) i
    rw [sharers_congr hh] at hput
    exact hput
  constructor
  · intro k g hk
    obtain hold | ⟨rfl, rfl⟩ := getElem?_put hk
    · exact hA.entered k g (hh ▸ hold)
    · refine ⟨hpaired, fun m' heq => ?_, fun _ => small_of_slot hs⟩
      obtain rfl := Handler.map.inj heq
      exact hbuilt
  · exact hsizes
  · intro i hlt
    exact hcells i _ hlt (hshare i)
  · intro i hge
    rw [hshare, (hfresh i hge).1, if_neg (hfresh i hge).2]
  · exact hext

theorem store (hs : s.slot fd = some .unused) (himpl : m.mapImplPtr = none) (hrefcnt : m.mapRefcntPtr = none) :
    Accounts c (s.store c fd (.map m)) := by
  have hext : ∀ e, (s.store c fd (.map m)).externals.count e = (s.store c fd (.map m)).externalHolders c e := by
    intro e
    have := store_external (c := c) hs himpl e
    have := hA.external e
    omega
  simp only [Shm.store, if_pos himpl] at hext ⊢
  by_cases hcase : initCase c m.attr = .construct
  · -- the new implementation has the next number, which no fd refers to
    simp only [mapInit, hcase] at hext ⊢
    have hnew := hA.fresh s.impls.length (Nat.le_refl _)
    have hsize := hA.sizes
    refine hA.put_map rfl hs (by rw [hsize]) (fun _ => hcase) (by simp [hsize]) ?_ ?_ hext
    · intro i n hlt hn
      simp only [List.length_append, List.length_singleton] at hlt
      by_cases heq : i = s.impls.length
      · rw [heq, hnew, if_pos rfl] at hn
        subst heq hn
        rw [Cell, List.getElem?_concat_length, ← hsize, List.getElem?_concat_length]
        exact ⟨rfl, rfl⟩
      · have hold : i < s.impls.length := by omega
        rw [if_neg (by simpa using Ne.symm heq), Nat.add_zero] at hn
        rw [Cell, List.getElem?_append_left hold, List.getElem?_append_left (hsize ▸ hold), hn]
        exact hA.cells i hold
    · intro i hge
      simp only [List.length_append, List.length_singleton] at hge
      exact ⟨hA.fresh i (by omega), by simp only [ne_eq, Option.some.injEq]; omega⟩
  · have hsame : (s.mapInit c m).1 = m ∧ (s.mapInit c m).2.impls = s.impls ∧ (s.mapInit c m).2.refcnts = s.refcnts := by
      unfold mapInit
      cases hkind : initCase c m.attr with
      | construct => exact absurd hkind hcase
      | _ => exact ⟨rfl, rfl, rfl⟩
    obtain ⟨hm, hi, hr⟩ := hsame
    rw [hm] at hext ⊢
    refine hA.put_map (handlers_mapInit c s m) hs (by rw [himpl, hrefcnt]) (fun h => absurd himpl h)
      (by rw [hi, hr, hA.sizes]) ?_ ?_ hext
    · intro i n hlt hn
      rw [himpl, if_neg (by simp), Nat.add_zero] at hn
      rw [hi] at hlt
      rw [Cell, hi, hr, hn]
      exact hA.cells i hlt
    · intro i hge
      rw [hi] at hge
      exact ⟨hA.fresh i hge, by rw [himpl]; simp⟩

theorem shareable (hold : s.slot oldfd = some (.map handler)) (hshare : canShareMapImpl handler) :
    ∃ j, handler.mapImplPtr = some j ∧ handler.mapRefcntPtr = some j ∧ initCase c handler.attr = .construct := by
  have hentered := hA.entered_of_slot hold
  cases himpl : handler.mapImplPtr with
  | none => simp [canShareMapImpl, himpl] at hshare
  | some j => exact ⟨j, rfl, hentered.paired.trans himpl, hentered.built handler rfl (by simp [himpl])⟩

theorem share (hs : s.slot fd = some .unused) (hold : s.slot oldfd = some (.map handler))
    (hshare : canShareMapImpl handler) :
    Accounts c ((s.incMapRefcount handler).put fd (.map { handler with id := fd })) := by
  obtain ⟨j, himpl, hrefcnt, hcase⟩ := hA.shareable hold hshare
  have hne : s.sharers j ≠ 0 := sharers_ne_zero hold himpl
  have hsize := hA.sizes
  have hext : ∀ e, ((s.incMapRefcount handler).put fd (.map { handler with id := fd })).externals.count e =
      ((s.incMapRefcount handler).put fd (.map { handler with id := fd })).externalHolders c e := by
    intro e
    rw [externalHolders_share hs hcase, ← hA.external e, Shm.put, externals_incMapRefcount]
  simp only [incMapRefcount, hrefcnt, hA.refcnt_eq hne] at hext ⊢
  refine hA.put_map rfl hs himpl.symm (fun _ => hcase) (by simp [hsize]) ?_ ?_ hext
  · intro i n hlt hn
    by_cases heq : j = i
    · subst heq
      rw [himpl, if_pos rfl] at hn
      rw [Cell, List.getElem?_set_self (hsize ▸ hlt), (hA.cells j hlt).1, hn, if_neg (by omega), decide_eq_true hne,
        decide_eq_true (by omega)]
      exact ⟨rfl, rfl⟩
    · rw [himpl, if_neg (by simpa using heq), Nat.add_zero] at hn
      rw [Cell, List.getElem?_set_ne heq, hn]
      exact hA.cells i hlt
  · intro i hge
    refine ⟨hA.fresh i hge, ?_⟩
    rw [himpl]
    rintro heq
    cases heq
    exact absurd (hA.bound hne) (Nat.not_lt.mpr hge)

/-! ## The implementations that an operation destroys -/

theorem sole_iff (hs : s.slot fd = some h) : (s.clearIdAt fd).sharers i = 0 ↔
    ∀ fd' m, s.slot fd' = some (.map m) → m.mapImplPtr = some i → fd' = fd := by
  constructor
  · intro hzero fd' m hm hptr
    by_contra hne
    have hslot : (s.clearIdAt fd).slot fd' = some (.map m) := by
      rw [slot_clearIdAt_of_ne hs hne, hm]
      rfl
    exact sharers_ne_zero hslot hptr hzero
  · intro hall
    by_contra hne
    obtain ⟨fd', m, hm, hptr⟩ :=
      exists_sharer (fun k g hk hg => (hA.entered k g (getElem?_clearIdAt hs hk hg)).small hg) hne
    have hother : fd' ≠ fd := by
      rintro rfl
      rw [slot_clearIdAt_self hs] at hm
      cases hm
    rw [slot_clearIdAt_of_ne hs hother] at hm
    obtain ⟨g, hg, hdrop⟩ := Option.map_eq_some_iff.mp hm
    cases g with
    | map m' =>
      obtain rfl := Handler.map.inj hdrop
      exact hother (hall fd' m' hg hptr)
    | link l =>
      simp only [dropLink] at hdrop
      split at hdrop <;> cases hdrop
    | _ => cases hdrop

theorem destroysLast_of_count (hA' : Accounts c s') (hlen : s.impls.length ≤ s'.impls.length)
    (hcount : ∀ i, i < s.impls.length → s.sharers i ≠ 0 →
      (s'.sharers i = 0 ↔ ∀ fd m, s.slot fd = some (.map m) → m.mapImplPtr = some i → s.Closes a fd))
    : DestroysLast s a s' := by
  intro i hlive
  obtain ⟨hlt, hne⟩ := (hA.live_iff i).mp hlive
  rw [← hcount i hlt hne, hA'.live_iff]
  constructor
  · intro hdead
    by_contra hstill
    exact hdead ⟨by omega, hstill⟩
  · intro hzero ⟨_, hstill⟩
    exact hstill hzero

theorem destroysLast_of_same (hA' : Accounts c s') (hclears : s.clears a = none)
    (hlen : s.impls.length ≤ s'.impls.length) (hsame : ∀ i, s'.sharers i = s.sharers i) : DestroysLast s a s' := by
  refine hA.destroysLast_of_count hA' hlen fun i _ hne => ?_
  rw [hsame]
  refine iff_of_false hne fun hall => ?_
  obtain ⟨fd, m, hm, hptr⟩ := exists_sharer (fun k g hk => (hA.entered k g hk).small) hne
  have hclosed := (hall fd m hm hptr).1
  rw [hclears] at hclosed
  cases hclosed

theorem destroysLast_of_clear (hA' : Accounts c s') (hs : s.slot fd = some h) (hclears : s.clears a = some fd)
    (hdup : a.duplicates fd = false) (hlen : s.impls.length ≤ s'.impls.length)
    (hsame : ∀ i, i < s.impls.length → (s'.sharers i = 0 ↔ (s.clearIdAt fd).sharers i = 0)) : DestroysLast s a s' := by
  refine hA.destroysLast_of_count hA' hlen fun i hlt _ => ?_
  rw [hsame i hlt, hA.sole_iff hs]
  constructor
  · intro hall fd' m hm hptr
    obtain rfl := hall fd' m hm hptr
    exact ⟨hclears, hdup⟩
  · intro hall fd' m hm hptr
    exact (Option.some.inj (hclears.symm.trans (hall fd' m hm hptr).1)).symm

theorem shared : Shared c s := by
  constructor
  · intro fd m i hm hptr
    have hne : s.sharers i ≠ 0 := sharers_ne_zero hm hptr
    have hlt := hA.bound hne
    refine ⟨(hA.live_iff i).mpr ⟨hlt, hne⟩, i, (hA.entered_of_slot hm).paired.trans hptr, ?_⟩
    rw [(hA.cells i hlt).2, if_neg hne]
  · intro i hlive
    exact ((hA.live_iff i).mp hlive).2
  · exact hA.external

/-! ## Along a run -/

theorem move (hm : Move c s a s') (hreg : Regular c s a) : Accounts c s' ∧ DestroysLast s a s' := by
  cases hm with
  | stay hclears => exact ⟨hA, hA.destroysLast_of_same hA hclears (Nat.le_refl _) fun _ => rfl⟩
  | @install _ fd h hclears hfree hmade =>
    have hmap : ∀ m, h ≠ .map m := by
      rintro m rfl
      exact hmade
    have hA' := hA.put_other hfree (by simp) hmap
    refine ⟨hA', hA.destroysLast_of_same hA' hclears (Nat.le_refl _) fun i => ?_⟩
    have hnone : h.implPtr = none := by
      cases h with
      | map m => exact absurd rfl (hmap m)
      | _ => rfl
    exact sharers_put_of_none hfree rfl hnone i
  | @enable fd enabled e hs =>
    have hA' : Accounts c (s.put fd (.perfEvent { e with enabled := enabled })) := hA.put_other hs (by simp) (by simp)
    refine ⟨hA', hA.destroysLast_of_same hA' rfl (Nat.le_refl _) fun i => ?_⟩
    exact sharers_put_of_none hs rfl rfl i
  | @close fd h hs =>
    have hclears : s.clears (.closeFd fd) = some fd := by rw [clears, hs]; rfl
    have hA' := hA.clear hs (external_none hreg hclears hs)
    exact ⟨hA', hA.destroysLast_of_clear hA' hs hclears rfl (Nat.le_of_eq (length_impls_clearIdAt s fd).symm)
      fun _ _ => Iff.rfl⟩
  | @addMap fd fd' fake name attr h hfd hs =>
    have hclears : s.clears (.addBpfMap fd fake name attr) = some fd' := congrArg some hfd
    have hself := slot_clearIdAt_self hs
    have hlen := length_impls_clearIdAt s fd'
    have hA' := (hA.clear hs (external_none hreg hclears hs)).store hself
      (rfl : (newMap fd' name attr).mapImplPtr = none) rfl
    refine ⟨hA', hA.destroysLast_of_clear hA' hs hclears rfl (hlen ▸ store_grows c _ fd' rfl) fun i hlt => ?_⟩
    rw [sharers_store hself rfl (hlen ▸ hlt)]
  | @share oldfd newfd fd fake handler h hfd hold hnew hne hshare =>
    have hclears : s.clears (.dupBpfMap oldfd newfd fake) = some fd := by simp only [clears, hold, hfd]
    have hself := slot_clearIdAt_self hnew
    have hlen := length_impls_clearIdAt s fd
    have hkept : (s.clearIdAt fd).slot oldfd = some (.map handler) := by
      rw [slot_clearIdAt_of_ne hnew hne.symm, hold]
      rfl
    have hcleared := hA.clear hnew (external_none hreg hclears hnew)
    have hA' := hcleared.share hself hkept hshare
    have himpls : ((s.clearIdAt fd).incMapRefcount handler).impls = (s.clearIdAt fd).impls := by
      unfold incMapRefcount
      split <;> rfl
    refine ⟨hA', hA.destroysLast_of_clear hA' hnew hclears (by simpa [Op.duplicates] using hne.symm)
      (Nat.le_of_eq (by rw [put, himpls, hlen])) fun i hlt => ?_⟩
    have hput := sharers_put ((slot_congr (handlers_incMapRefcount _ handler) fd).trans hself)
      (.map { handler with id := fd }) i
    rw [sharers_congr (handlers_incMapRefcount _ handler), if_neg (by simp [Handler.implPtr]), Nat.add_zero] at hput
    rw [hput]
    by_cases hptr : handler.mapImplPtr = some i
    · have hstill := sharers_ne_zero hkept hptr
      omega
    · have hind : (if (Handler.map { handler with id := fd }).implPtr = some i then 1 else 0) = 0 := if_neg hptr
      rw [hind, Nat.add_zero]
  | @fallback oldfd newfd fd fake handler h hfd hold hnew hnot =>
    have hclears : s.clears (.dupBpfMap oldfd newfd fake) = some fd := by simp only [clears, hold, hfd]
    have hself := slot_clearIdAt_self hnew
    have hlen := length_impls_clearIdAt s fd
    have hA' := (hA.clear hnew (external_none hreg hclears hnew)).store hself
      (rfl : (newMap fd (fallbackName handler.name) handler.attr).mapImplPtr = none) rfl
    have hgrows := hlen ▸ store_grows c (s.clearIdAt fd) fd
      (rfl : (newMap fd (fallbackName handler.name) handler.attr).mapImplPtr = none)
    refine ⟨hA', ?_⟩
    by_cases hsame : oldfd = fd
    · -- nothing is closed, and what the fd has shared, it shares with another
      subst hsame
      refine hA.destroysLast_of_count hA' hgrows fun i hlt hne => ?_
      rw [sharers_store hself rfl (hlen ▸ hlt)]
      refine iff_of_false ?_ fun hall => ?_
      · have hcount := sharers_clearIdAt hnew i
        split at hcount
        · next hptr =>
          obtain rfl := Option.some.inj (hnew.symm.trans hold)
          have := (hreg oldfd hclears handler (mapAt_eq hold)).2 (by simp [Op.duplicates]) i hptr
          omega
        · omega
      · obtain ⟨fd', m, hm, hptr⟩ := exists_sharer (fun k g hk => (hA.entered k g hk).small) hne
        obtain ⟨hclosed, hdup⟩ := hall fd' m hm hptr
        obtain rfl := Option.some.inj (hclears.symm.trans hclosed)
        simp [Op.duplicates] at hdup
    · refine hA.destroysLast_of_clear hA' hnew hclears (by simpa [Op.duplicates] using hsame) hgrows fun i hlt => ?_
      rw [sharers_store hself rfl (hlen ▸ hlt)]

theorem not_shared_of_alloc (hm : Move c s a s') (hclears : s.clears a = some fd) (hs : s.slot fd = some (.map m))
    (hcase : initCase c m.attr = .alloc) : ¬ Shared c s' := by
  have hext : (Handler.map m).external c = some (m.attr.type, m.id) := if_pos hcase
  have hcount : (s.clearIdAt fd).externalHolders c (m.attr.type, m.id) + _ = _ := externalHolders_clearIdAt hs _
  rw [hext, if_pos rfl, ← hA.external, ← externals_clearIdAt s fd] at hcount
  have hself := slot_clearIdAt_self hs
  have hstored : ∀ m' : MapHandler, m'.mapImplPtr = none → ¬ Shared c ((s.clearIdAt fd).store c fd (.map m')) := by
    intro m' himpl hshared
    have := store_external (c := c) hself himpl (m.attr.type, m.id)
    have := hshared.external (m.attr.type, m.id)
    omega
  cases hm with
  | stay hnone | install hnone => rw [hnone] at hclears; cases hclears
  | enable => cases hclears
  | @close fd' h hs' =>
    rw [clears, hs'] at hclears
    obtain rfl : fd' = fd := Option.some.inj hclears
    intro hshared
    have := hshared.external (m.attr.type, m.id)
    omega
  | @addMap _ fd' _ name attr _ hfd _ =>
    obtain rfl : fd' = fd := hfd.symm.trans (Option.some.inj hclears)
    exact hstored _ rfl
  | @fallback oldfd newfd fd' fake handler h hfd hold hnew _ =>
    simp only [clears, hold, hfd, Option.some.injEq] at hclears
    subst hclears
    exact hstored _ rfl
  | @share oldfd newfd fd' fake handler h hfd hold hnew hne hshare =>
    simp only [clears, hold, hfd, Option.some.injEq] at hclears
    subst hclears
    obtain ⟨_, _, _, hbuilt⟩ := hA.shareable hold hshare
    intro hshared
    have hcount' := hshared.external (m.attr.type, m.id)
    rw [externalHolders_share hself hbuilt, put, externals_incMapRefcount] at hcount'
    omega

theorem not_destroysLast_of_self (hm : Move c s a s') (hclears : s.clears a = some fd) (hdup : a.duplicates fd)
    (hs : s.slot fd = some (.map m)) (hptr : m.mapImplPtr = some i) (hone : s.sharers i = 1) :
    ¬ DestroysLast s a s' := by
  cases hm with
  | stay hnone | install hnone => rw [hnone] at hclears; cases hclears
  | enable => cases hclears
  | close | addMap => cases hdup
  | @share oldfd newfd fd' fake handler h hfd hold hnew hne hshare =>
    simp only [clears, hold, hfd, Option.some.injEq] at hclears
    exact absurd (hclears.trans (of_decide_eq_true hdup).symm) hne
  | @fallback oldfd newfd fd' fake handler h hfd hold hnew _ =>
    simp only [clears, hold, hfd, Option.some.injEq] at hclears
    subst hclears
    intro hdestroys
    have hne : s.sharers i ≠ 0 := by omega
    have hlt := hA.bound hne
    have hcase := (hA.entered_of_slot hs).built m rfl (by simp [hptr])
    have hext : (Handler.map m).external c = none := by simp [Handler.external, hcase]
    have hself := slot_clearIdAt_self hs
    have hlen := length_impls_clearIdAt s fd'
    have hA' := (hA.clear hs hext).store hself
      (rfl : (newMap fd' (fallbackName handler.name) handler.attr).mapImplPtr = none) rfl
    have hgone :
      ¬ Live ((s.clearIdAt fd').store c fd' (.map (newMap fd' (fallbackName handler.name) handler.attr))) i := by
      intro hlive
      have hstill := ((hA'.live_iff i).mp hlive).2
      rw [sharers_store hself rfl (hlen ▸ hlt)] at hstill
      have hcount := sharers_clearIdAt hs i
      rw [if_pos (show (Handler.map m).implPtr = some i from hptr)] at hcount
      omega
    have hclosed := (hdestroys i ((hA.live_iff i).mpr ⟨hlt, hne⟩)).mp hgone fd' m hs hptr
    rw [hclosed.2] at hdup
    cases hdup

end

end Accounts

variable {c : Config} {s s' : Shm} {a : Op}

theorem not_regular (hA : Accounts c s) (hm : Move c s a s') (hnot : ¬ Regular c s a) :
    ¬ (Shared c s' ∧ DestroysLast s a s') := by
  simp only [Regular, not_forall] at hnot
  obtain ⟨fd, hclears, m, hmap, hbad⟩ := hnot
  have hs : s.slot fd = some (.map m) := by
    have hmap' : s.mapAt fd = some m := hmap
    unfold mapAt at hmap'
    split at hmap'
    · next m' hs => rw [hs, Option.some.inj hmap']
    · cases hmap'
  intro ⟨hshared, hdestroys⟩
  by_cases hcase : initCase c m.attr = .alloc
  · exact hA.not_shared_of_alloc hm hclears hs hcase hshared
  · simp only [hcase, ne_eq, not_false_eq_true, true_and, not_forall, Decidable.not_not] at hbad
    obtain ⟨hdup, i, hptr, hone⟩ := hbad
    exact hA.not_destroysLast_of_self hm hclears hdup hs hptr hone hdestroys

def hashAttr : MapAttr := { type := MapType.HASH, keySize := 4, valueSize := 4, maxEnts := 8 }

def regularRun (n : Nat) (ops : List Op) : Option Shm := run (step defaultConfig) (Regular defaultConfig) (create n) ops

end HandlerTable
