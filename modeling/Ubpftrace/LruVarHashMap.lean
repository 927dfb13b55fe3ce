import Ubpftrace.HashMapVariants
import Ubpftrace.LinkedLists
import Ubpftrace.LruCache

/-!
# The hash map that evicts the least recently used key

`lru_var_hash_map.cpp` keeps a hash index from keys to values and, through raw
pointers, a doubly linked list of the keys with the most recent one at its head. An
operation has no result where the source would follow a null pointer. Under all calls
the list and the index stay those of a cache in the order of the last uses, and no
null pointer is followed.
-/

namespace LruVarHashMap

open BpftimeHashMap (Key Value)
open HashMapVariants (Errno Call BPF_ANY BPF_EXIST BPF_NOEXIST)
open HashMapVariants.VarSizeHashMap (isGoodUpdateFlag)
open LinkedLists LruCache

variable {ks vs : Nat} {flags : UInt64}

/-- `lru_linklist_entry`; a pointer is the number of an entry. -/
structure Entry (ks : Nat) where
  key : Key ks
  nextEntry : Option Nat
  previousEntry : Option Nat

structure HashMapValue (vs : Nat) where
  value : Value vs
  linkedListEntry : Nat

/-- `lru_var_hash_map_impl` with the entries constructed so far. -/
structure LruMap (ks vs : Nat) where
  mapImpl : Finmap fun _ : Key ks => HashMapValue vs
  lruLinkListHead : Option Nat
  lruLinkListTail : Option Nat
  maxEntries : Nat
  entries : Nat → Entry ks
  constructed : Nat

namespace LruMap

def init (ks vs maxEntries : Nat) : LruMap ks vs where
  mapImpl := ∅
  lruLinkListHead := none
  lruLinkListTail := none
  maxEntries := maxEntries
  entries := fun _ => ⟨Vector.replicate ks 0, none, none⟩
  constructed := 0

/-- `entry->next_entry = next` -/
def setNext (m : LruMap ks vs) (entry : Nat) (next : Option Nat) : LruMap ks vs :=
  { m with entries := Function.update m.entries entry { m.entries entry with nextEntry := next } }

/-- `entry->previous_entry = prev` -/
def setPrevious (m : LruMap ks vs) (entry : Nat) (prev : Option Nat) : LruMap ks vs :=
  { m with entries := Function.update m.entries entry { m.entries entry with previousEntry := prev } }

def moveToHead (m : LruMap ks vs) (entry : Nat) : Option (LruMap ks vs) :=
  if some entry = m.lruLinkListHead then some m
  else do
    let prev ← (m.entries entry).previousEntry
    let next := (m.entries entry).nextEntry
    let m := m.setNext prev next
    let m := match next with
      | some next => m.setPrevious next (some prev)
      | none => { m with lruLinkListTail := some prev }
    let m := (m.setNext entry m.lruLinkListHead).setPrevious entry none
    let head ← m.lruLinkListHead
    some { m.setPrevious head (some entry) with lruLinkListHead := some entry }

def insertNewEntry (m : LruMap ks vs) (key : Key ks) : Nat × LruMap ks vs :=
  let entry := m.constructed
  let m := { m with entries := Function.update m.entries entry ⟨key, none, none⟩, constructed := entry + 1 }
  match m.lruLinkListHead with
  | none => (entry, { m with lruLinkListHead := some entry, lruLinkListTail := some entry })
  | some head =>
    (entry, { (m.setNext entry (some head)).setPrevious head (some entry) with lruLinkListHead := some entry })

def evictEntry (m : LruMap ks vs) (entry : Nat) : Option (LruMap ks vs) :=
  if some entry = m.lruLinkListTail then
    if some entry = m.lruLinkListHead then some { m with lruLinkListHead := none, lruLinkListTail := none }
    else do
      let prev ← (m.entries entry).previousEntry
      some { m.setNext prev none with lruLinkListTail := some prev }
  else if some entry = m.lruLinkListHead then do
    let next ← (m.entries entry).nextEntry
    some { m.setPrevious next none with lruLinkListHead := some next }
  else do
    let prev ← (m.entries entry).previousEntry
    let next ← (m.entries entry).nextEntry
    some ((m.setNext prev (some next)).setPrevious next (some prev))

inductive Answer (vs : Nat) where
  | pointer (value : Value vs)
  | zero
  | error (e : Errno)
  deriving DecidableEq

def elemLookup (m : LruMap ks vs) (key : Key ks) : Option (Answer vs × LruMap ks vs) :=
  match m.mapImpl.lookup key with
  | some v => do
    let m ← m.moveToHead v.linkedListEntry
    some (.pointer v.value, m)
  | none => some (.error .ENOENT, m)

/-- The part of `elem_update` for a key that is not there: evict if the map is full. -/
def makeRoom (m : LruMap ks vs) : Option (LruMap ks vs) :=
  if m.mapImpl.keys.card = m.maxEntries then do
    let tail ← m.lruLinkListTail
    { m with mapImpl := m.mapImpl.erase (m.entries tail).key }.evictEntry tail
  else some m

def elemUpdate (m : LruMap ks vs) (key : Key ks) (value : Value vs) (flags : UInt64) :
    Option (Answer vs × LruMap ks vs) :=
  if !isGoodUpdateFlag flags then some (.error .EINVAL, m)
  else
    match m.mapImpl.lookup key with
    | some v =>
      if flags = BPF_NOEXIST then some (.error .EEXIST, m)
      else do
        let m := { m with mapImpl := m.mapImpl.insert key { v with value := value } }
        let m ← m.moveToHead v.linkedListEntry
        some (.zero, m)
    | none =>
      if flags = BPF_EXIST then some (.error .ENOENT, m)
      else do
        let m ← m.makeRoom
        let (entry, m) := m.insertNewEntry key
        some (.zero, { m with mapImpl := m.mapImpl.insert key ⟨value, entry⟩ })

def elemDelete (m : LruMap ks vs) (key : Key ks) : Option (Answer vs × LruMap ks vs) :=
  match m.mapImpl.lookup key with
  | none => some (.error .ENOENT, m)
  | some v => do
    let m ← m.evictEntry v.linkedListEntry
    some (.zero, { m with mapImpl := m.mapImpl.erase key })

def step (m : LruMap ks vs) : Call ks vs → Option (Answer vs × LruMap ks vs)
  | .lookup key => m.elemLookup key
  | .update key value flags => m.elemUpdate key value flags
  | .delete key => m.elemDelete key

def run (m : LruMap ks vs) : List (Call ks vs) → Option (List (Call ks vs × Answer vs) × LruMap ks vs)
  | [] => some ([], m)
  | c :: cs => do
    let (a, m) ← m.step c
    let (history, m) ← m.run cs
    some ((c, a) :: history, m)

theorem elemUpdate_ne_pointer {m m' : LruMap ks vs} {key : Key ks} {value : Value vs} (v : Value vs) :
    m.elemUpdate key value flags ≠ some (.pointer v, m') := by
  unfold elemUpdate
  intro h
  split at h
  · simp at h
  split at h
  · split at h
    · simp at h
    · simp [Option.bind_eq_some_iff] at h
  · split at h
    · simp at h
    · simp [Option.bind_eq_some_iff] at h

/-! ## The list functions -/

section Links

variable (m : LruMap ks vs) (i j : Nat) (p : Option Nat)

def links : Links Nat where
  head := m.lruLinkListHead
  tail := m.lruLinkListTail
  next := fun i => (m.entries i).nextEntry
  prev := fun i => (m.entries i).previousEntry

@[simp] theorem setNext_key : ((m.setNext i p).entries j).key = (m.entries j).key := by
  by_cases h : j = i <;> simp [setNext, h]

@[simp] theorem setNext_nextEntry :
    ((m.setNext i p).entries j).nextEntry = if j = i then p else (m.entries j).nextEntry := by
  by_cases h : j = i <;> simp [setNext, h]

@[simp] theorem setNext_previousEntry :
    ((m.setNext i p).entries j).previousEntry = (m.entries j).previousEntry := by
  by_cases h : j = i <;> simp [setNext, h]

@[simp] theorem setPrevious_key : ((m.setPrevious i p).entries j).key = (m.entries j).key := by
  by_cases h : j = i <;> simp [setPrevious, h]

@[simp] theorem setPrevious_nextEntry :
    ((m.setPrevious i p).entries j).nextEntry = (m.entries j).nextEntry := by
  by_cases h : j = i <;> simp [setPrevious, h]

@[simp] theorem setPrevious_previousEntry :
    ((m.setPrevious i p).entries j).previousEntry = if j = i then p else (m.entries j).previousEntry := by
  by_cases h : j = i <;> simp [setPrevious, h]

@[simp] theorem setNext_head : (m.setNext i p).lruLinkListHead = m.lruLinkListHead := rfl
@[simp] theorem setNext_tail : (m.setNext i p).lruLinkListTail = m.lruLinkListTail := rfl
@[simp] theorem setPrevious_head : (m.setPrevious i p).lruLinkListHead = m.lruLinkListHead := rfl
@[simp] theorem setPrevious_tail : (m.setPrevious i p).lruLinkListTail = m.lruLinkListTail := rfl

end Links

/-- Only pointers differ. -/
structure Frame (m m' : LruMap ks vs) : Prop where
  mapImpl : m'.mapImpl = m.mapImpl
  maxEntries : m'.maxEntries = m.maxEntries
  constructed : m'.constructed = m.constructed
  key : ∀ i, (m'.entries i).key = (m.entries i).key

variable {m : LruMap ks vs} {as bs xs : List Nat} {x : Nat}

/-- The first half of `move_to_head`, for an entry with one before it. -/
theorem unlink_linked {p : Nat} (h : Linked m.links (as ++ [p] ++ x :: bs)) :
    let m' := match bs.head? with
      | some next => (m.setNext p bs.head?).setPrevious next (some p)
      | none => { m.setNext p bs.head? with lruLinkListTail := some p }
    Linked m'.links (as ++ [p] ++ bs) ∧ Frame m m' ∧ m'.lruLinkListHead = m.lruLinkListHead := by
  have hh : m.lruLinkListHead = _ := h.head
  have ht : m.lruLinkListTail = _ := h.tail
  cases bs with
  | nil =>
    refine ⟨h.cut ⟨?_, ?_, ?_, ?_⟩, ⟨rfl, rfl, rfl, fun i => by simp⟩, rfl⟩
    · simp [links, hh]
    · simp [links]
    · simp [links, eq_comm]
    · simp [links]
  | cons q bs =>
    refine ⟨h.cut ⟨?_, ?_, ?_, ?_⟩, ⟨rfl, rfl, rfl, fun i => by simp⟩, rfl⟩
    · simp [links, hh]
    · simp [links, ht, List.getLast?_cons]
    · simp [links, eq_comm]
    · simp [links, eq_comm]

theorem evictEntry_linked (h : Linked m.links (as ++ x :: bs)) :
    ∃ m', m.evictEntry x = some m' ∧ Linked m'.links (as ++ bs) ∧ Frame m m' := by
  have hhead : some x = m.lruLinkListHead ↔ as = [] := eq_comm.trans h.head_eq_iff
  have htail : some x = m.lruLinkListTail ↔ bs = [] := eq_comm.trans h.tail_eq_iff
  have hnext : (m.entries x).nextEntry = bs.head? := h.next as x bs rfl
  have hprev : (m.entries x).previousEntry = as.getLast? := h.prev as x bs rfl
  have ht : m.lruLinkListTail = _ := h.tail
  unfold evictEntry
  simp only [htail, hhead, hnext, hprev]
  rcases List.eq_nil_or_concat as with rfl | ⟨as, p, rfl⟩
  · cases bs with
    | nil => exact ⟨_, rfl, .empty rfl rfl, rfl, rfl, rfl, fun _ => rfl⟩
    | cons q bs =>
      refine ⟨_, rfl, h.cut ⟨rfl, ?_, ?_, ?_⟩, rfl, rfl, rfl, fun i => by simp⟩
      · simp [links, ht, List.getLast?_cons]
      · simp [links]
      · simp [links, eq_comm]
  · rw [List.concat_eq_append] at h ⊢
    obtain ⟨hcut, hframe, -⟩ := unlink_linked h
    refine ⟨_, ?_, hcut, hframe⟩
    cases bs <;> simp

theorem moveToHead_linked (h : Linked m.links (as ++ x :: bs)) :
    ∃ m', m.moveToHead x = some m' ∧ Linked m'.links (x :: (as ++ bs)) ∧ Frame m m' := by
  have hhead : some x = m.lruLinkListHead ↔ as = [] := eq_comm.trans h.head_eq_iff
  have hnext : (m.entries x).nextEntry = bs.head? := h.next as x bs rfl
  have hprev : (m.entries x).previousEntry = as.getLast? := h.prev as x bs rfl
  have hx : x ∉ as ++ bs := (List.nodup_middle.mp h.nodup).notMem
  unfold moveToHead
  rcases List.eq_nil_or_concat as with rfl | ⟨as, p, rfl⟩
  · rw [if_pos (hhead.mpr rfl)]
    exact ⟨m, rfl, h, rfl, rfl, rfl, fun _ => rfl⟩
  · rw [List.concat_eq_append] at *
    rw [if_neg (by simp [hhead]), hprev, hnext]
    obtain ⟨hcut, hframe, -⟩ := unlink_linked h
    simp only [List.getLast?_concat, Option.bind_eq_bind, Option.bind_some]
    generalize (match bs.head? with
      | some next => (m.setNext p bs.head?).setPrevious next (some p)
      | none => { m.setNext p bs.head? with lruLinkListTail := some p }) = m₁ at hcut hframe ⊢
    obtain ⟨q, hq⟩ : ∃ q, (as ++ [p] ++ bs).head? = some q := ⟨_, List.head?_eq_some_head (by simp)⟩
    have hh : m₁.lruLinkListHead = some q := hcut.head.trans hq
    have ht : m₁.lruLinkListTail = _ := hcut.tail
    have hqx : x ≠ q := fun heq => hx (heq ▸ List.mem_of_mem_head? hq)
    refine ⟨{ ((m₁.setNext x (some q)).setPrevious x none).setPrevious q (some x) with lruLinkListHead := some x },
      by simp [hh], hcut.push hx ⟨rfl, ?_, ?_, ?_, ?_, ?_⟩, hframe.mapImpl, hframe.maxEntries, hframe.constructed, ?_⟩
    · simp [links, ht, List.getLast?_cons]
    · rw [hq]
      simp [links]
    · simp [links, hqx]
    · intro i hi
      have hne : i ≠ x := fun heq => hx (heq ▸ hi)
      simp [links, hne]
    · intro i hi
      have hne : i ≠ x := fun heq => hx (heq ▸ hi)
      rw [hq]
      simp [links, hne, eq_comm (a := q)]
    · intro i
      simpa using hframe.key i

theorem insertNewEntry_linked (h : Linked m.links xs) (hx : ∀ i ∈ xs, i < m.constructed) (key : Key ks) :
    ∃ m', m.insertNewEntry key = (m.constructed, m') ∧ Linked m'.links (m.constructed :: xs) ∧
      m'.mapImpl = m.mapImpl ∧ m'.maxEntries = m.maxEntries ∧ m'.constructed = m.constructed + 1 ∧
      ∀ i, (m'.entries i).key = if i = m.constructed then key else (m.entries i).key := by
  have hne : ∀ i ∈ xs, i ≠ m.constructed := fun i hi heq => absurd (hx i hi) (by omega)
  have hnew : m.constructed ∉ xs := fun hi => hne _ hi rfl
  have hh : m.lruLinkListHead = _ := h.head
  have ht : m.lruLinkListTail = _ := h.tail
  have hkey : ∀ i, (Function.update m.entries m.constructed ⟨key, none, none⟩ i).key =
      if i = m.constructed then key else (m.entries i).key := by
    intro i
    by_cases hi : i = m.constructed <;> simp [hi]
  unfold insertNewEntry
  cases xs with
  | nil =>
    simp only [hh, List.head?_nil]
    refine ⟨_, rfl, h.push hnew ⟨rfl, rfl, ?_, ?_, by simp, by simp⟩, rfl, rfl, rfl, hkey⟩
    · simp [links]
    · simp [links]
  | cons q xs =>
    simp only [hh, List.head?_cons]
    have hq := hne q (by simp)
    refine ⟨_, rfl, h.push hnew ⟨rfl, ?_, ?_, ?_, ?_, ?_⟩, rfl, rfl, rfl, fun i => by simpa using hkey i⟩
    · simp [links, ht, List.getLast?_cons]
    · simp [links]
    · simp [links, hq.symm]
    · intro i hi
      simp [links, hne i hi]
    · intro i hi
      simp [links, hne i hi, eq_comm (a := q)]

end LruMap

/-! ## Refinement of the cache -/

def Answer.ok : LruMap.Answer vs → Bool
  | .pointer _ | .zero => true
  | .error _ => false

def request : Call ks vs → Request (Key ks) (Value vs)
  | .lookup k => .lookup k
  | .update k v flags =>
    .update k v (flags = BPF_ANY ∨ flags = BPF_NOEXIST) (flags = BPF_ANY ∨ flags = BPF_EXIST)
  | .delete k => .delete k

/-- The key that a call of a history has used. -/
def use (p : Call ks vs × LruMap.Answer vs) : Option (Key ks) := (request p.1).use (Answer.ok p.2)

/-- The list of entries `ids` and the index stand for the cache. -/
structure Rel {n : Nat} (m : LruMap ks vs) (c : Cache (Key ks) (Value vs) n) (ids : List Nat) : Prop where
  linked : Linked m.links ids
  constructed : ∀ i ∈ ids, i < m.constructed
  order : ids.map (fun i => (m.entries i).key) = c.order
  value : ∀ k, (m.mapImpl.lookup k).map HashMapValue.value = c.value k
  indexed : ∀ k v, m.mapImpl.lookup k = some v → v.linkedListEntry ∈ ids ∧ (m.entries v.linkedListEntry).key = k
  maxEntries : m.maxEntries = n

namespace Rel

variable {n : Nat} {m m' : LruMap ks vs} {c : Cache (Key ks) (Value vs) n} {ids as bs : List Nat} {k : Key ks}
  {v : HashMapValue vs} {w : Value vs}

/-- A call returns, and the cache has a step with its answer. -/
abbrev Follows (result : Option (LruMap.Answer vs × LruMap ks vs)) (c : Cache (Key ks) (Value vs) n)
    (q : Request (Key ks) (Value vs)) : Prop :=
  ∃ a m' c' ids', result = some (a, m') ∧ c.Step q (Answer.ok a) c' ∧ Rel m' c' ids'

theorem init (n : Nat) : Rel (LruMap.init ks vs n) (Cache.empty : Cache (Key ks) (Value vs) n) [] where
  linked := .empty rfl rfl
  constructed := by simp
  order := rfl
  value := by simp [LruMap.init, Cache.empty]
  indexed := by simp [LruMap.init]
  maxEntries := rfl

theorem mem_iff (h : Rel m c ids) (k : Key ks) : k ∈ c.order ↔ k ∈ m.mapImpl := by
  rw [c.mem_order, ← h.value, Option.isSome_map, Finmap.lookup_isSome]

theorem keys_eq (h : Rel m c ids) : m.mapImpl.keys = c.order.toFinset := by
  ext k
  rw [Finmap.mem_keys, List.mem_toFinset, h.mem_iff]

theorem card_eq (h : Rel m c ids) : m.mapImpl.keys.card = c.order.length := by
  rw [h.keys_eq, List.toFinset_card_of_nodup c.nodup]

theorem split (h : Rel m c ids) (hv : m.mapImpl.lookup k = some v) :
    ∃ as bs, ids = as ++ v.linkedListEntry :: bs ∧
      (c.erase k).order = (as ++ bs).map fun i => (m.entries i).key := by
  obtain ⟨hmem, hkey⟩ := h.indexed k v hv
  obtain ⟨as, bs, rfl⟩ := List.append_of_mem hmem
  refine ⟨as, bs, rfl, ?_⟩
  have horder := h.order
  rw [List.map_append, List.map_cons, hkey] at horder
  rw [c.erase_order horder.symm, List.map_append]

theorem erased (h : Rel m c (as ++ v.linkedListEntry :: bs)) (hv : m.mapImpl.lookup k = some v)
    (hmap : m'.mapImpl = m.mapImpl.erase k) (hlinked : Linked m'.links (as ++ bs)) (hmax : m'.maxEntries = m.maxEntries)
    (hcons : m'.constructed = m.constructed) (hkey : ∀ i, (m'.entries i).key = (m.entries i).key)
    (hrest : (c.erase k).order = (as ++ bs).map fun i => (m.entries i).key) : Rel m' (c.erase k) (as ++ bs) := by
  have hsub : ∀ i ∈ as ++ bs, i ∈ as ++ v.linkedListEntry :: bs := by simp; tauto
  constructor
  · exact hlinked
  · exact fun i hi => hcons ▸ h.constructed i (hsub i hi)
  · simpa only [hkey] using hrest.symm
  · intro k'
    by_cases hk : k' = k
    · subst hk
      simp [hmap, Cache.erase]
    · simp [hmap, Cache.erase, Finmap.lookup_erase_ne hk, hk, h.value]
  · intro k' v' hv'
    rw [hmap] at hv'
    have hk : k' ≠ k := by
      rintro rfl
      rw [Finmap.lookup_erase] at hv'
      cases hv'
    rw [Finmap.lookup_erase_ne hk] at hv'
    obtain ⟨hmem, heq⟩ := h.indexed k' v' hv'
    have hne : v'.linkedListEntry ≠ v.linkedListEntry := by
      intro hent
      rw [hent, (h.indexed k v hv).2] at heq
      exact hk heq.symm
    refine ⟨?_, (hkey _).trans heq⟩
    simpa [hne] using hmem
  · exact hmax.trans h.maxEntries

theorem touched (h : Rel m c (as ++ v.linkedListEntry :: bs)) (hv : m.mapImpl.lookup k = some v) (hk : k ∈ c.order)
    (hmap : ∀ k', m'.mapImpl.lookup k' = if k' = k then some { v with value := w } else m.mapImpl.lookup k')
    (hlinked : Linked m'.links (v.linkedListEntry :: (as ++ bs))) (hmax : m'.maxEntries = m.maxEntries)
    (hcons : m'.constructed = m.constructed) (hkey : ∀ i, (m'.entries i).key = (m.entries i).key)
    (hrest : (c.erase k).order = (as ++ bs).map fun i => (m.entries i).key) :
    Rel m' (c.touch k w hk) (v.linkedListEntry :: (as ++ bs)) := by
  have hperm : ∀ i, i ∈ v.linkedListEntry :: (as ++ bs) ↔ i ∈ as ++ v.linkedListEntry :: bs := by simp; tauto
  constructor
  · exact hlinked
  · exact fun i hi => hcons ▸ h.constructed i ((hperm i).mp hi)
  · simp only [List.map_cons, hkey, (h.indexed k v hv).2]
    exact congrArg (k :: ·) hrest.symm
  · intro k'
    rw [hmap]
    by_cases hkk : k' = k <;> simp [Cache.touch, Cache.push, Cache.erase, hkk, h.value]
  · intro k' v' hv'
    rw [hmap] at hv'
    rw [hkey, hperm]
    split at hv'
    · next heq =>
      subst heq
      obtain rfl := Option.some.inj hv'
      exact h.indexed k' v hv
    · exact h.indexed k' v' hv'
  · exact hmax.trans h.maxEntries

section

variable (h : Rel m c ids)
include h

theorem pushed (hk : k ∉ c.order) (hroom : c.order.length < n)
    (hmap : m'.mapImpl = m.mapImpl.insert k ⟨w, m.constructed⟩) (hlinked : Linked m'.links (m.constructed :: ids))
    (hmax : m'.maxEntries = m.maxEntries) (hcons : m'.constructed = m.constructed + 1)
    (hkey : ∀ i, (m'.entries i).key = if i = m.constructed then k else (m.entries i).key) :
    Rel m' (c.push k w hk hroom) (m.constructed :: ids) := by
  have hold : ∀ i ∈ ids, (m'.entries i).key = (m.entries i).key := by
    intro i hi
    have := h.constructed i hi
    rw [hkey, if_neg (by omega)]
  constructor
  · exact hlinked
  · intro i hi
    rcases List.mem_cons.mp hi with rfl | hi
    · omega
    · have := h.constructed i hi
      omega
  · rw [List.map_cons, hkey, if_pos rfl, List.map_congr_left hold]
    exact congrArg (k :: ·) h.order
  · intro k'
    by_cases hkk : k' = k
    · subst hkk
      simp [hmap, Cache.push]
    · simp [hmap, Cache.push, Finmap.lookup_insert_of_ne _ hkk, hkk, h.value]
  · intro k' v' hv'
    rw [hmap] at hv'
    by_cases hkk : k' = k
    · subst hkk
      rw [Finmap.lookup_insert] at hv'
      obtain rfl := Option.some.inj hv'
      simp [hkey]
    · rw [Finmap.lookup_insert_of_ne _ hkk] at hv'
      obtain ⟨hmem, heq⟩ := h.indexed k' v' hv'
      exact ⟨List.mem_cons_of_mem _ hmem, (hold _ hmem).trans heq⟩
  · exact hmax.trans h.maxEntries

theorem lookup_eq_none_iff : m.mapImpl.lookup k = none ↔ k ∉ c.order := by
  rw [Finmap.lookup_eq_none, h.mem_iff]

theorem mem_of_lookup (hv : m.mapImpl.lookup k = some v) : k ∈ c.order :=
  (h.mem_iff k).mpr (Finmap.mem_of_lookup_eq_some hv)

theorem elemLookup (k : Key ks) : Follows (m.elemLookup k) c (.lookup k) := by
  unfold LruMap.elemLookup
  cases hv : m.mapImpl.lookup k with
  | none => exact ⟨_, _, c, ids, rfl, .miss (by rw [← h.value, hv]; rfl), h⟩
  | some v =>
    have hk := h.mem_of_lookup hv
    obtain ⟨as, bs, rfl, hrest⟩ := h.split hv
    obtain ⟨m', hmove, hlinked, hframe⟩ := LruMap.moveToHead_linked h.linked
    refine ⟨.pointer v.value, m', c.touch k v.value hk, _, by simp [hmove], .hit (by rw [← h.value, hv]; rfl) hk,
      h.touched hv hk ?_ hlinked hframe.maxEntries hframe.constructed hframe.key hrest⟩
    intro k'
    rw [hframe.mapImpl]
    split
    · next heq => rw [heq, hv]
    · rfl

theorem elemDelete (k : Key ks) : Follows (m.elemDelete k) c (.delete k) := by
  unfold LruMap.elemDelete
  cases hv : m.mapImpl.lookup k with
  | none => exact ⟨_, _, c, ids, rfl, .absent (h.lookup_eq_none_iff.mp hv), h⟩
  | some v =>
    obtain ⟨as, bs, rfl, hrest⟩ := h.split hv
    obtain ⟨m', hevict, hlinked, hframe⟩ := LruMap.evictEntry_linked h.linked
    refine ⟨.zero, { m' with mapImpl := m'.mapImpl.erase k }, c.erase k, _, by simp [hevict],
      .deleted (h.mem_of_lookup hv),
      h.erased hv ?_ hlinked hframe.maxEntries hframe.constructed hframe.key hrest⟩
    rw [← hframe.mapImpl]

theorem listed {i : Nat} (hi : i ∈ ids) :
    ∃ v, m.mapImpl.lookup (m.entries i).key = some v ∧ v.linkedListEntry = i := by
  have hmem : (m.entries i).key ∈ c.order := h.order ▸ List.mem_map.mpr ⟨i, hi, rfl⟩
  obtain ⟨v, hv⟩ := Finmap.mem_iff.mp ((h.mem_iff _).mp hmem)
  obtain ⟨hj, hkey⟩ := h.indexed _ v hv
  have hnodup : (ids.map fun i => (m.entries i).key).Nodup := h.order ▸ c.nodup
  exact ⟨v, hv, List.inj_on_of_nodup_map hnodup hj hi hkey⟩

end

theorem makeRoom (hn : 0 < n) (h : Rel m c ids) (hk : k ∉ c.order) :
    ∃ m' c' ids', m.makeRoom = some m' ∧ Rel m' c' ids' ∧ ∃ (hk' : k ∉ c'.order) (hroom : c'.order.length < n),
      ∀ w replace, c.Step (.update k w true replace) true (c'.push k w hk' hroom) := by
  have hcard : m.mapImpl.keys.card = m.maxEntries ↔ c.order.length = n := by rw [h.card_eq, h.maxEntries]
  unfold LruMap.makeRoom
  by_cases hfull : c.order.length = n
  · obtain ⟨as, x, rfl⟩ : ∃ as x, ids = as ++ [x] := by
      rcases List.eq_nil_or_concat ids with rfl | ⟨as, x, rfl⟩
      · have := h.order
        rw [← this] at hfull
        simp at hfull
        omega
      · exact ⟨as, x, by simp⟩
    have htail : m.lruLinkListTail = some x := h.linked.tail.trans (by simp)
    have hlast : c.order.getLast? = some (m.entries x).key := by simp [← h.order]
    obtain ⟨v, hv, rfl⟩ := h.listed (i := x) (by simp)
    obtain ⟨m', hevict, hlinked, hframe⟩ := LruMap.evictEntry_linked
      (m := { m with mapImpl := m.mapImpl.erase (m.entries v.linkedListEntry).key }) h.linked
    have hrel : Rel m' (c.erase (m.entries v.linkedListEntry).key) (as ++ []) := by
      refine h.erased hv hframe.mapImpl hlinked hframe.maxEntries hframe.constructed hframe.key ?_
      have horder := h.order
      rw [List.map_append, List.map_cons] at horder
      rw [c.erase_order horder.symm, List.map_append]
    rw [if_pos (hcard.mpr hfull)]
    exact ⟨m', _, _, Option.bind_eq_some_iff.mpr ⟨_, htail, hevict⟩, hrel, c.notMem_erase (.inl hk),
      c.erase_length_lt (List.mem_of_getLast? hlast), fun w replace => .exchanged hk hfull hlast⟩
  · have hroom : c.order.length < n := lt_of_le_of_ne c.length_le hfull
    exact ⟨m, c, ids, if_neg (mt hcard.mp hfull), h, hk, hroom, fun w replace => .created hk hroom⟩

theorem elemUpdate_new (hn : 0 < n) (h : Rel m c ids) (hk : k ∉ c.order) (w : Value vs)
    (hgood : isGoodUpdateFlag flags = true) : Follows (m.elemUpdate k w flags) c (request (.update k w flags)) := by
  have hcases : flags = BPF_ANY ∨ flags = BPF_EXIST ∨ flags = BPF_NOEXIST := of_decide_eq_true hgood
  rw [LruMap.elemUpdate, if_neg (by simp [hgood]), h.lookup_eq_none_iff.mpr hk]
  by_cases hex : flags = BPF_EXIST
  · subst hex
    exact ⟨_, m, c, ids, if_pos rfl, .refused (if_neg hk ▸ by decide), h⟩
  · have hcreate : decide (flags = BPF_ANY ∨ flags = BPF_NOEXIST) = true := by simp; tauto
    obtain ⟨m₁, c₁, ids₁, hroom, h₁, hk₁, hlen, hstep⟩ := h.makeRoom hn hk
    obtain ⟨m₂, hins, hlinked, hmap, hmax, hcons, hkey⟩ := LruMap.insertNewEntry_linked h₁.linked h₁.constructed k
    rw [request, hcreate]
    refine ⟨.zero, { m₂ with mapImpl := m₂.mapImpl.insert k ⟨w, m₁.constructed⟩ }, _, _, ?_, hstep w _,
      h₁.pushed hk₁ hlen (by rw [hmap]) hlinked hmax hcons hkey⟩
    simp [hex, hroom, hins]

theorem elemUpdate_old (h : Rel m c ids) (hv : m.mapImpl.lookup k = some v) (w : Value vs)
    (hgood : isGoodUpdateFlag flags = true) : Follows (m.elemUpdate k w flags) c (request (.update k w flags)) := by
  have hcases : flags = BPF_ANY ∨ flags = BPF_EXIST ∨ flags = BPF_NOEXIST := of_decide_eq_true hgood
  have hk := h.mem_of_lookup hv
  rw [LruMap.elemUpdate, if_neg (by simp [hgood]), hv]
  by_cases hno : flags = BPF_NOEXIST
  · subst hno
    exact ⟨_, m, c, ids, if_pos rfl, .refused (if_pos hk ▸ by decide), h⟩
  · have hreplace : decide (flags = BPF_ANY ∨ flags = BPF_EXIST) = true := by simp; tauto
    obtain ⟨as, bs, rfl, hrest⟩ := h.split hv
    obtain ⟨m', hmove, hlinked, hframe⟩ := LruMap.moveToHead_linked
      (m := { m with mapImpl := m.mapImpl.insert k { v with value := w } }) h.linked
    rw [request, hreplace]
    refine ⟨.zero, m', c.touch k w hk, _, by simp [hno, hmove], .replaced hk,
      h.touched hv hk ?_ hlinked hframe.maxEntries hframe.constructed hframe.key hrest⟩
    intro k'
    rw [hframe.mapImpl]
    split
    · next heq => rw [heq, Finmap.lookup_insert]
    · next hne => exact Finmap.lookup_insert_of_ne _ hne

section

variable (hn : 0 < n) (h : Rel m c ids)
include hn h

theorem elemUpdate (k : Key ks) (w : Value vs) (flags : UInt64) :
    Follows (m.elemUpdate k w flags) c (request (.update k w flags)) := by
  by_cases hgood : isGoodUpdateFlag flags = true
  · cases hv : m.mapImpl.lookup k with
    | none => exact h.elemUpdate_new hn (h.lookup_eq_none_iff.mp hv) w hgood
    | some v => exact h.elemUpdate_old hv w hgood
  · have hbad : ¬ (flags = BPF_ANY ∨ flags = BPF_EXIST ∨ flags = BPF_NOEXIST) := fun hf => hgood (decide_eq_true hf)
    rw [LruMap.elemUpdate, if_pos (by simp [hgood])]
    refine ⟨_, m, c, ids, rfl, .refused ?_, h⟩
    have hcreate : decide (flags = BPF_ANY ∨ flags = BPF_NOEXIST) = false := by simp; tauto
    have hreplace : decide (flags = BPF_ANY ∨ flags = BPF_EXIST) = false := by simp; tauto
    simp only [hcreate, hreplace, ite_self]

theorem elemUpdate_full (hk : k ∉ m.mapImpl) (hfull : m.mapImpl.keys.card = n) (w : Value vs)
    (hflags : flags = BPF_ANY ∨ flags = BPF_NOEXIST) :
    ∃ old m' ids', c.order.getLast? = some old ∧ ∃ (hold : old ∈ c.order) (hk' : k ∉ c.order),
      m.elemUpdate k w flags = some (.zero, m') ∧ Rel m' (c.exchange old k w hold hk') ids' := by
  have hk' : k ∉ c.order := mt (h.mem_iff k).mp hk
  obtain ⟨a, m', c', ids', hup, hstep, h'⟩ := h.elemUpdate hn k w flags
  have hcreate : decide (flags = BPF_ANY ∨ flags = BPF_NOEXIST) = true := decide_eq_true hflags
  rw [request, hcreate] at hstep
  generalize hok : Answer.ok a = ok, decide (flags = BPF_ANY ∨ flags = BPF_EXIST) = replace at hstep
  cases hstep with
  | replaced hin => exact absurd hin hk'
  | created _ hroom =>
    rw [h.card_eq] at hfull
    omega
  | @exchanged _ old _ _ _ _ hlast =>
    refine ⟨old, m', ids', hlast, List.mem_of_getLast? hlast, hk', ?_, h'⟩
    cases a with
    | zero => exact hup
    | pointer v => exact absurd hup (LruMap.elemUpdate_ne_pointer v)
    | error e => cases hok
  | refused hno =>
    rw [if_neg hk'] at hno
    cases hno

theorem step (call : Call ks vs) : Follows (m.step call) c (request call) := by
  cases call with
  | lookup k => exact h.elemLookup k
  | update k w flags => exact h.elemUpdate hn k w flags
  | delete k => exact h.elemDelete k

theorem run {us : List (Option (Key ks))} (hrecent : Recent us c.order) (calls : List (Call ks vs)) :
    ∃ history m' ids', ∃ c' : Cache (Key ks) (Value vs) n,
      m.run calls = some (history, m') ∧ Rel m' c' ids' ∧ Recent (us ++ history.map use) c'.order := by
  induction calls generalizing m c ids us with
  | nil => exact ⟨[], m, ids, c, rfl, h, by simpa using hrecent⟩
  | cons call calls ih =>
    obtain ⟨a, m₁, c₁, ids₁, hstep, hcache, h₁⟩ := h.step hn call
    obtain ⟨history, m', ids', c', hrun, h', hrecent'⟩ := ih h₁ (hcache.recent hrecent)
    refine ⟨(call, a) :: history, m', ids', c', by simp [LruMap.run, hstep, hrun], h', ?_⟩
    simpa [use] using hrecent'

omit hn in
theorem elemLookup_of_value (hv : c.value k = some w) : ∃ m', m.elemLookup k = some (.pointer w, m') := by
  obtain ⟨v, hlookup, rfl⟩ := Option.map_eq_some_iff.mp ((h.value k).trans hv)
  obtain ⟨a, m', -, -, hres, -⟩ := h.elemLookup k
  simp only [LruMap.elemLookup, hlookup] at hres ⊢
  obtain ⟨m₁, hmove, -⟩ := Option.bind_eq_some_iff.mp hres
  exact ⟨m₁, by simp [hmove]⟩

/-- The keys that were used since `k` are among the others, also after the calls to come. -/
theorem found_after {us : List (Option (Key ks))} (hc : Recent us c.order) {others : List (Key ks)}
    (hfew : others.length < n) (hk : k ∉ others) (hused : ∀ a, UsedSince us a k → a ∈ others)
    (hv : c.value k = some w) (later : List (Call ks vs))
    (hlater : ∀ call ∈ later, call = .lookup k ∨ (request call).key ∈ others) :
    ∃ history m₁ m₂, m.run later = some (history, m₁) ∧ m₁.elemLookup k = some (.pointer w, m₂) := by
  induction later generalizing m c ids us with
  | nil =>
    obtain ⟨m', hm'⟩ := h.elemLookup_of_value hv
    exact ⟨[], m, m', rfl, hm'⟩
  | cons call later ih =>
    have hr : request call = .lookup k ∨ (request call).key ≠ k ∧ (request call).key ∈ others := by
      obtain rfl | hin := hlater call List.mem_cons_self
      · exact .inl rfl
      · exact .inr ⟨fun heq => hk (heq ▸ hin), hin⟩
    obtain ⟨a, m₁, c₁, ids₁, hstep, hcache, h₁⟩ := h.step hn call
    have hused₁ : ∀ b, UsedSince (us ++ [(request call).use (Answer.ok a)]) b k → b ∈ others := by
      intro b hb
      obtain ⟨hb', -⟩ | huse := hb.of_concat
      · exact hused b hb'
      · obtain ⟨-, -, -, hne, -⟩ := hb
        rw [← Request.key_of_use huse] at hne ⊢
        exact (hr.resolve_left fun heq => hne (by rw [heq]; rfl)).2
    obtain ⟨history, m', m'', hrun, hlookup⟩ := ih h₁ (hcache.recent hc) hused₁
      (hcache.keeps hc hfew hused hr hv) fun call hcall => hlater call (.tail _ hcall)
    exact ⟨(call, a) :: history, m', m'', by simp [LruMap.run, hstep, hrun], hlookup⟩

end

end Rel

end LruVarHashMap
