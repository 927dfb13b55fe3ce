import Mathlib.Data.List.AList
import Mathlib.Data.Nat.ModEq
import Ubpftrace.HandlerTable
import Ubpftrace.UbtTop

/-!
# Map snapshots of the nodes and their aggregation

The agent on each node exports its maps as JSON (`register_map_snapshot_provider` of
`agent.cpp`), and `ubpftrace_top.cpp` adds the entries of all nodes. The two meet in the
key strings: what has one map name and one key string is one sum.
-/

namespace Snapshots

open HandlerTable (CInt)
open scoped HandlerTable
open HandlerTable.MapType
open Bytes (le readLe ofList)
open NumberStrings (Str toStr stoull toStr_injective stoull_toStr)
open UbtTop (Casts Totals Value totalsOf)

/-- A JSON object. -/
abbrev Obj (α : Type) := AList fun _ : Str => α

/-! ## The exporter -/

def LRU_PERCPU_HASH : CInt := 10

/-- What the exporter sees of a map. A value is the memory that a pointer points to, and
`elem` is the lookup by an index. -/
structure MapView where
  type : CInt
  name : Str
  keySize : Nat
  valueSize : Nat
  maxEntries : BitVec 32
  elem : Nat → Option (Nat → UInt8)
  nextKey : Option (Vector UInt8 keySize) → Option (Vector UInt8 keySize)
  lookup : Vector UInt8 keySize → Option (Nat → UInt8)

/-- An entry of the JSON object of a map, and the bytes of the key that it stands for,
which the JSON does not have. -/
structure Entry where
  value : Nat
  source : List UInt8
  deriving DecidableEq

namespace MapView

variable (m : MapView)

def isPercpu : Bool := m.type = PERCPU_HASH ∨ m.type = PERCPU_ARRAY ∨ m.type = LRU_PERCPU_HASH

def isArray : Bool := m.type = ARRAY ∨ m.type = PERCPU_ARRAY

/-- The sum over the processors of the words that stand `stride` words apart. -/
def percpuTotal (ncpu w stride : Nat) (mem : Nat → UInt8) : Nat :=
  ((List.range ncpu).map fun cpu => readLe mem (w * (cpu * stride)) w).sum % 2 ^ (8 * w)

/-- The number that stands for a value, for the sizes that have one. -/
def elemValue (ncpu : Nat) (mem : Nat → UInt8) : Option Nat :=
  if 8 ≤ m.valueSize then
    some (if m.isPercpu then percpuTotal ncpu 8 (m.valueSize / 8) mem else readLe mem 0 8)
  else if m.valueSize = 4 then some (if m.isPercpu then percpuTotal ncpu 4 1 mem else readLe mem 0 4)
  else none

/-- The value that the exporter writes for an index. Zeros are left out. -/
def arrayValue (ncpu idx : Nat) : Option Nat :=
  ((m.elem idx).bind (m.elemValue ncpu)).filter (· ≠ 0)

def arrayEntries (ncpu : Nat) : List (Str × Entry) :=
  (List.range m.maxEntries.toNat).filterMap fun idx =>
    (m.arrayValue ncpu idx).map fun v => (toStr idx, ⟨v, le 4 idx⟩)

def keyStr (count : Nat) (key : Vector UInt8 m.keySize) : Str :=
  if m.keySize = 8 then toStr (readLe (ofList key.toList) 0 8)
  else if m.keySize = 4 then toStr (readLe (ofList key.toList) 0 4)
  else ['k', '_'] ++ toStr count

/-- The entry for a key, if it has a value. -/
def keyEntry (ncpu count : Nat) (key : Vector UInt8 m.keySize) : Option (Str × Entry) :=
  (m.lookup key).map fun mem => (m.keyStr count key, ⟨(m.elemValue ncpu mem).getD 1, key.toList⟩)

/-- The loop over `bpf_map_get_next_key`. -/
def walk (ncpu : Nat) : Nat → Nat → Option (Vector UInt8 m.keySize) → List (Str × Entry)
  | 0, _, _ => []
  | left + 1, count, cur =>
    match m.nextKey cur with
    | none => []
    | some key => (m.keyEntry ncpu count key).toList ++ walk ncpu left (count + 1) (some key)

def entries (ncpu : Nat) : List (Str × Entry) :=
  if m.isArray then m.arrayEntries ncpu else m.walk ncpu m.maxEntries.toNat 0 none

def rawName (i : Nat) : Str := if m.name = [] then "map_".toList ++ toStr i else m.name

def mapName (i : Nat) : Str :=
  if "AT_".toList <+: m.rawName i then '@' :: (m.rawName i).drop 3 else m.rawName i

/-- The maps that are passed over, and those without an entry. -/
def skipped (ncpu i : Nat) : Bool :=
  m.keySize = 0 ∨ m.valueSize = 0 ∨ m.maxEntries = 0 ∨
    m.type ∈ [RINGBUF, PERF_EVENT_ARRAY, PROG_ARRAY] ∨
    ".rodata".toList <:+: m.rawName i ∨ ".data".toList <:+: m.rawName i ∨ ".bss".toList <:+: m.rawName i ∨
    m.entries ncpu = []

end MapView

/-- `entries[key_str] = value`, one after the other. -/
def insertAll (es : List (Str × Entry)) (j : Obj Entry) : Obj Entry := es.foldl (fun j p => j.insert p.1 p.2) j

structure MapObj where
  type : CInt
  keySize : Nat
  valueSize : Nat
  maxEntries : BitVec 32
  entries : Obj Entry

def MapView.toObj (m : MapView) (ncpu : Nat) : MapObj :=
  ⟨m.type, m.keySize, m.valueSize, m.maxEntries, insertAll (m.entries ncpu) ∅⟩

/-- The slots of the handler table of a node that hold maps, and its number of processors. -/
structure Node where
  slots : List (Option MapView)
  ncpu : Nat

abbrev Snapshot := Obj MapObj

def exportSlot (ncpu : Nat) (maps : Snapshot) (slot : Option MapView × Nat) : Snapshot :=
  match slot.1 with
  | none => maps
  | some m => if m.skipped ncpu slot.2 then maps else maps.insert (m.mapName slot.2) (m.toObj ncpu)

/-- The map snapshot provider of `register_map_snapshot_provider`. -/
def Node.snapshot (n : Node) : Snapshot := n.slots.zipIdx.foldl (exportSlot n.ncpu) ∅

/-! ## The aggregation -/

/-- The JSON object of a map as it is read again. -/
def MapObj.toValue (o : MapObj) : Value :=
  .object [("type".toList, .unsigned (.ofNat o.type.toNat)), ("key_size".toList, .unsigned (.ofNat o.keySize)),
    ("value_size".toList, .unsigned (.ofNat o.valueSize)),
      ("max_entries".toList, .unsigned (.ofNat o.maxEntries.toNat)),
    ("entries".toList, .object (o.entries.entries.map fun e => (e.1, .unsigned (.ofNat e.2.value))))]

def received (snap : Snapshot) : UbtTop.NodeSnapshot := ⟨.object (snap.entries.map fun p => (p.1, p.2.toValue))⟩

/-- Where an entry is added: to a bucket of the histogram, or to a key. -/
inductive Cell where
  | bucket (n : UInt64)
  | key (k : Str)
  deriving DecidableEq

def cellOf (k : Str) : Cell :=
  match stoull k with
  | some n => .bucket (.ofNat n)
  | none => .key k

/-- What a map shows in a cell. -/
def Cell.shown (c : Cell) (t : Totals) : UInt64 :=
  match c with
  | .bucket n => (t.buckets n).getD 0
  | .key k => (t.keys k).getD 0

/-- What the aggregate shows in a cell of a map. -/
def total (t : Str → Option Totals) (name : Str) (c : Cell) : UInt64 := ((t name).map c.shown).getD 0

/-- The entries of a snapshot that are added to a cell of a map. -/
def contributions (name : Str) (c : Cell) (snap : Snapshot) : List Entry :=
  snap.entries.flatMap fun p =>
    if p.1 = name then (p.2.entries.entries.filter fun e => cellOf e.1 = c).map fun e => e.2 else []

def Contributes (snap : Snapshot) (name : Str) (c : Cell) (e : Entry) : Prop :=
  ∃ obj k, snap.lookup name = some obj ∧ obj.entries.lookup k = some e ∧ cellOf k = c

/-- Entries of two nodes that are added to one cell stand for the same key. -/
def SameKeys (nodes : List Node) : Prop :=
  ∀ a ∈ nodes, ∀ b ∈ nodes, ∀ name c e e', Contributes a.snapshot name c e → Contributes b.snapshot name c e' →
    e.source = e'.source

/-! ## What a cell shows -/

section Cells

variable (casts : Casts) (name : Str) (c : Cell)

/-- The numbers among some entries that are added to the cell. -/
def addedBy (c : Cell) (es : List (Str × Value)) : UInt64 :=
  (es.map fun e => if cellOf e.1 = c then (e.2.number casts).getD 0 else 0).sum

theorem shown_addEntry (t : Totals) (e : Str × Value) :
    c.shown (t.addEntry casts e) = c.shown t + if cellOf e.1 = c then (e.2.number casts).getD 0 else 0 := by
  unfold Totals.addEntry cellOf
  generalize (e.2.number casts).getD 0 = v
  cases hk : stoull e.1 with
  | some n =>
    cases c with
    | bucket b =>
      by_cases hb : b = .ofNat n
      · simp [Cell.shown, KeyedMaps.alter, hb]
      · simp [Cell.shown, KeyedMaps.alter, hb, Ne.symm hb]
    | key k => simp [Cell.shown]
  | none =>
    cases c with
    | bucket b => simp [Cell.shown]
    | key k =>
      by_cases hb : k = e.1
      · simp [Cell.shown, KeyedMaps.alter, hb]
      · simp [Cell.shown, KeyedMaps.alter, hb, Ne.symm hb]

theorem shown_addEntries (t : Totals) (es : List (Str × Value)) :
    c.shown (es.foldl (Totals.addEntry casts) t) = c.shown t + addedBy casts c es := by
  induction es generalizing t with
  | nil => simp [addedBy]
  | cons e es ih =>
    rw [List.foldl_cons, ih, shown_addEntry]
    simp only [addedBy, List.map_cons, List.sum_cons, add_assoc]

theorem total_addBatches (bs : List (Str × List (Str × Value))) (t : Str → Option Totals) :
    total (bs.foldl (UbtTop.addBatch casts) t) name c =
      total t name c + (bs.map fun b => if b.1 = name then addedBy casts c b.2 else 0).sum := by
  induction bs generalizing t with
  | nil => simp
  | cons b bs ih =>
    have hnew : c.shown UbtTop.AggregatedMap.new.totals = 0 := by cases c <;> rfl
    have hstep : total (UbtTop.addBatch casts t b) name c =
        total t name c + if b.1 = name then addedBy casts c b.2 else 0 := by
      by_cases hb : b.1 = name
      · subst hb
        cases ht : t b.1 <;> simp [total, UbtTop.addBatch, KeyedMaps.alter, shown_addEntries, ht, hnew]
      · simp [total, UbtTop.addBatch, KeyedMaps.alter, hb, Ne.symm hb]
    rw [List.foldl_cons, ih, hstep, List.map_cons, List.sum_cons, add_assoc]

theorem batches_received (snap : Snapshot) : UbtTop.batches casts (received snap) =
    some (snap.entries.map fun p => (p.1, p.2.entries.entries.map fun e => (e.1, .unsigned (.ofNat e.2.value)))) := by
  rw [UbtTop.batches, received, Value.items, Option.bind_some, List.mapM_map]
  induction snap.entries with
  | nil => rfl
  | cons p ps ih =>
    rw [List.mapM_cons, ih]
    rfl

theorem addedBy_entries (es : List (Sigma fun _ : Str => Entry)) :
    addedBy casts c (es.map fun e => (e.1, .unsigned (.ofNat e.2.value))) =
      ((es.filter fun e => cellOf e.1 = c).map fun e => UInt64.ofNat e.2.value).sum := by
  induction es with
  | nil => rfl
  | cons e es ih =>
    rw [addedBy, List.map_cons, List.map_cons, List.sum_cons]
    rw [addedBy] at ih
    rw [ih]
    by_cases he : cellOf e.1 = c <;> simp [he, Value.number]

theorem added_received (snap : Snapshot) :
    (((UbtTop.batches casts (received snap)).getD []).map fun b => if b.1 = name then addedBy casts c b.2 else 0).sum =
      ((contributions name c snap).map fun e => UInt64.ofNat e.value).sum := by
  rw [batches_received, Option.getD_some, List.map_map, contributions]
  induction snap.entries with
  | nil => rfl
  | cons p ps ih =>
    rw [List.map_cons, List.sum_cons, ih, List.flatMap_cons, List.map_append, List.sum_append]
    by_cases hp : p.1 = name
    · simp [hp, addedBy_entries, Function.comp_def]
    · simp [hp]

/-- A cell shows the sum, modulo `2 ^ 64`, of the entries that are added to it. -/
theorem total_aggregate (snaps : List Snapshot) :
    ((UbtTop.aggregate casts (snaps.map received)).map totalsOf).map (total · name c) =
      some ((snaps.flatMap (contributions name c)).map fun e => UInt64.ofNat e.value).sum := by
  have hsome : ∀ node ∈ snaps.map received, (UbtTop.batches casts node).isSome := by
    intro node hnode
    obtain ⟨snap, -, rfl⟩ := List.mem_map.mp hnode
    rw [batches_received]
    rfl
  rw [UbtTop.aggregate, UbtTop.totalsOf_addNodes, if_pos hsome, Option.map_some, total_addBatches]
  congr 1
  induction snaps with
  | nil => rfl
  | cons snap snaps ih =>
    have hrest := ih fun node hnode => hsome node (List.mem_cons_of_mem _ hnode)
    rw [List.map_cons, List.flatMap_cons, List.map_append, List.sum_append, added_received, add_left_comm, hrest,
      List.flatMap_cons, List.map_append, List.sum_append]

end Cells

/-! ## Key strings -/

section Strings

theorem cellOf_toStr {n : Nat} (hn : n < 2 ^ 64) : cellOf (toStr n) = .bucket (.ofNat n) := by
  rw [cellOf, stoull_toStr hn]

theorem cellOf_position (i : Nat) : cellOf (['k', '_'] ++ toStr i) = .key (['k', '_'] ++ toStr i) := by
  have hnone : stoull (['k', '_'] ++ toStr i) = none := rfl
  rw [cellOf, hnone]

end Strings

/-! ## What a map exports -/

namespace MapView

variable (m : MapView)

/-- The key that `bpf_map_get_next_key` comes to after some keys. -/
def keyAfter : Option (Vector UInt8 m.keySize) → Nat → Option (Vector UInt8 m.keySize)
  | cur, 0 => m.nextKey cur
  | cur, i + 1 => (m.nextKey cur).bind fun key => keyAfter (some key) i

/-- The map has a value for the key at a position, and the exporter comes to it. -/
def Visits (i : Nat) (bs : List UInt8) : Prop :=
  i < m.maxEntries.toNat ∧ ∃ key, m.keyAfter none i = some key ∧ (m.lookup key).isSome ∧ bs = key.toList

/-- How the keys of a map become strings: as numbers of some bytes, or as positions. -/
inductive Rendering where
  | number (w : Nat)
  | position
  deriving DecidableEq

def rendering : Rendering :=
  if m.isArray then .number 4
  else if m.keySize = 8 then .number 8
  else if m.keySize = 4 then .number 4
  else .position

/-- The keys that have an entry. -/
def HasKey (ncpu : Nat) (bs : List UInt8) : Prop :=
  if m.isArray then ∃ idx < m.maxEntries.toNat, (m.arrayValue ncpu idx).isSome ∧ bs = le 4 idx
  else ∃ i, m.Visits i bs

end MapView

section Exports

variable {m : MapView} {ncpu : Nat} {k : Str} {e : Entry}

theorem mem_walk {left count : Nat} {cur : Option (Vector UInt8 m.keySize)} :
    (k, e) ∈ m.walk ncpu left count cur ↔
      ∃ i < left, ∃ key, m.keyAfter cur i = some key ∧ m.keyEntry ncpu (count + i) key = some (k, e) := by
  induction left generalizing count cur with
  | zero => simp [MapView.walk]
  | succ left ih =>
    rw [MapView.walk]
    cases hnext : m.nextKey cur with
    | none =>
      constructor
      · intro h
        cases h
      · rintro ⟨i, _, key, hkey, _⟩
        cases i <;> simp [MapView.keyAfter, hnext] at hkey
    | some key₀ =>
      simp only [List.mem_append, Option.mem_toList, ih]
      constructor
      · rintro (hfirst | ⟨i, hi, key, hkey, hentry⟩)
        · exact ⟨0, by omega, key₀, hnext, hfirst⟩
        · refine ⟨i + 1, by omega, key, ?_, ?_⟩
          · rw [MapView.keyAfter, hnext]
            exact hkey
          · rwa [show count + (i + 1) = count + 1 + i by omega]
      · rintro ⟨i, hi, key, hkey, hentry⟩
        cases i with
        | zero =>
          rw [MapView.keyAfter, hnext] at hkey
          cases hkey
          exact .inl hentry
        | succ i =>
          rw [MapView.keyAfter, hnext] at hkey
          refine .inr ⟨i, by omega, key, hkey, ?_⟩
          rwa [show count + 1 + i = count + (i + 1) by omega]

theorem mem_arrayEntries : (k, e) ∈ m.arrayEntries ncpu ↔
    ∃ idx < m.maxEntries.toNat, m.arrayValue ncpu idx = some e.value ∧ k = toStr idx ∧ e.source = le 4 idx := by
  simp only [MapView.arrayEntries, List.mem_filterMap, List.mem_range, Option.map_eq_some_iff, Prod.mk.injEq]
  constructor
  · rintro ⟨idx, hidx, v, hv, rfl, rfl⟩
    exact ⟨idx, hidx, hv, rfl, rfl⟩
  · rintro ⟨idx, hidx, hv, rfl, hsource⟩
    refine ⟨idx, hidx, e.value, hv, rfl, ?_⟩
    rw [← hsource]

/-- The number or the position that the string of a key shows. -/
def MapView.Rendering.label : MapView.Rendering → Nat → Str
  | .number _, n => toStr n
  | .position, i => ['k', '_'] ++ toStr i

/-- What a label stands for in a map. -/
def MapView.Labels (m : MapView) (ncpu n : Nat) (bs : List UInt8) : Prop :=
  match m.rendering with
  | .number w => m.HasKey ncpu bs ∧ bs = le w n ∧ n < 256 ^ w
  | .position => m.Visits n bs

variable {n : Nat} {bs : List UInt8}

theorem labels_number {w : Nat} (hr : m.rendering = .number w) :
    m.Labels ncpu n bs ↔ m.HasKey ncpu bs ∧ bs = le w n ∧ n < 256 ^ w := by
  rw [MapView.Labels, hr]

theorem labels_position (hr : m.rendering = .position) :
    m.Labels ncpu n bs ↔ m.Visits n bs := by
  rw [MapView.Labels, hr]

theorem readLe_ofList_le {w : Nat} (hn : n < 256 ^ w) : readLe (ofList (le w n)) 0 w = n := by
  have hholds := Bytes.holds_ofList [] (le w n) []
  simp only [List.nil_append, List.append_nil, List.length_nil] at hholds
  rw [Bytes.readLe_of_holds _ _ _ _ hholds, Nat.mod_eq_of_lt hn]

theorem le_readLe_ofList (bs : List UInt8) : le bs.length (readLe (ofList bs) 0 bs.length) = bs := by
  have hholds := Bytes.holds_ofList [] bs []
  simp only [List.nil_append, List.append_nil, List.length_nil] at hholds
  exact Bytes.le_readLe _ _ _ hholds

theorem keyStr_label (hnot : m.isArray = false) (i : Nat) (key : Vector UInt8 m.keySize) :
    m.keyStr i key = m.rendering.label (if m.rendering = .position then i else readLe (ofList key.toList) 0 m.keySize) ∧
      (m.rendering = .position ∨ m.rendering = .number m.keySize) := by
  unfold MapView.keyStr MapView.rendering
  simp only [hnot, Bool.false_eq_true, if_false]
  by_cases h8 : m.keySize = 8
  · simp [h8, MapView.Rendering.label]
  · by_cases h4 : m.keySize = 4
    · simp [h4, MapView.Rendering.label]
    · simp [h8, h4, MapView.Rendering.label]

theorem labels_of_mem (h : (k, e) ∈ m.entries ncpu) :
    ∃ n, k = m.rendering.label n ∧ m.Labels ncpu n e.source := by
  unfold MapView.entries at h
  unfold MapView.Labels MapView.HasKey
  split at h
  · next harray =>
    obtain ⟨idx, hidx, hv, rfl, hsource⟩ := mem_arrayEntries.mp h
    have hr : m.rendering = .number 4 := by rw [MapView.rendering, if_pos harray]
    have hlt : idx < 256 ^ 4 := lt_trans hidx m.maxEntries.isLt
    rw [hr]
    simp only [harray, if_true]
    exact ⟨idx, rfl, ⟨idx, hidx, by rw [hv]; rfl, hsource⟩, hsource, hlt⟩
  · next harray =>
    have hnot : m.isArray = false := by simpa using harray
    obtain ⟨i, hi, key, hkey, hentry⟩ := mem_walk.mp h
    rw [Nat.zero_add] at hentry
    obtain ⟨mem, hmem, hpair⟩ := Option.map_eq_some_iff.mp hentry
    cases hpair
    have hvisits : m.Visits i key.toList := ⟨hi, key, hkey, by rw [hmem]; rfl, rfl⟩
    obtain ⟨hstr, hr | hr⟩ := keyStr_label hnot i key
    · refine ⟨i, ?_, ?_⟩
      · rw [hstr, if_pos hr]
      · simp only [hr]
        exact hvisits
    · refine ⟨readLe (ofList key.toList) 0 m.keySize, ?_, ?_⟩
      · rw [hstr, if_neg (by rw [hr]; simp)]
      · simp only [hr, hnot, Bool.false_eq_true, if_false]
        have hback := le_readLe_ofList key.toList
        rw [Vector.length_toList] at hback
        exact ⟨⟨i, hvisits⟩, hback.symm, Bytes.readLe_lt _ _ _⟩

theorem visited_mem (hnot : m.isArray = false) {i : Nat} {key : Vector UInt8 m.keySize} (hi : i < m.maxEntries.toNat)
    (hkey : m.keyAfter none i = some key) (hsome : (m.lookup key).isSome) :
    ∃ v, (m.keyStr i key, ⟨v, key.toList⟩) ∈ m.entries ncpu := by
  obtain ⟨mem, hmem⟩ := Option.isSome_iff_exists.mp hsome
  refine ⟨(m.elemValue ncpu mem).getD 1, ?_⟩
  rw [MapView.entries, if_neg (by simp [hnot])]
  refine mem_walk.mpr ⟨i, hi, key, hkey, ?_⟩
  rw [Nat.zero_add, MapView.keyEntry, hmem, Option.map_some]

theorem mem_of_labels (h : m.Labels ncpu n bs) :
    ∃ v, (m.rendering.label n, ⟨v, bs⟩) ∈ m.entries ncpu := by
  unfold MapView.Labels MapView.HasKey at h
  by_cases harray : m.isArray
  · have hr : m.rendering = .number 4 := by rw [MapView.rendering, if_pos harray]
    simp only [hr, harray, if_true] at h ⊢
    obtain ⟨⟨idx, hidx, hv, hbs⟩, hbs', hn⟩ := h
    have heq : n = idx := by
      rw [← readLe_ofList_le hn, ← hbs', hbs]
      exact readLe_ofList_le (lt_trans hidx m.maxEntries.isLt)
    obtain ⟨v, hv⟩ := Option.isSome_iff_exists.mp hv
    refine ⟨v, ?_⟩
    rw [MapView.entries, if_pos harray]
    exact mem_arrayEntries.mpr ⟨idx, hidx, hv, by rw [heq]; rfl, hbs⟩
  · have hnot : m.isArray = false := by simpa using harray
    simp only [hnot, Bool.false_eq_true, if_false] at h
    by_cases hr : m.rendering = .position
    · simp only [hr] at h
      obtain ⟨hi, key, hkey, hsome, rfl⟩ := h
      have hstr := (keyStr_label hnot n key).1
      rw [if_pos hr] at hstr
      rw [← hstr]
      exact visited_mem hnot hi hkey hsome
    · obtain ⟨i, hi, key, hkey, hsome, rfl⟩ : ∃ i, m.Visits i bs := by
        split at h
        · exact h.1
        · exact ⟨n, h⟩
      obtain ⟨hstr, hr' | hr'⟩ := keyStr_label hnot i key
      · exact absurd hr' hr
      · simp only [hr'] at h
        rw [if_neg hr, h.2.1, readLe_ofList_le h.2.2] at hstr
        rw [← hstr]
        exact visited_mem hnot hi hkey hsome

/-- The cell that a label leads to. -/
def MapView.Rendering.cell : MapView.Rendering → Nat → Cell
  | .number _, n => .bucket (.ofNat n)
  | .position, i => .key (['k', '_'] ++ toStr i)

theorem rendering_width {w : Nat} (hw : m.rendering = .number w) : w = 4 ∨ w = 8 := by
  unfold MapView.rendering at hw
  split_ifs at hw <;> simp_all

theorem labels_lt (h : m.Labels ncpu n bs) : n < 2 ^ 64 := by
  unfold MapView.Labels at h
  cases hr : m.rendering with
  | number w =>
    simp only [hr] at h
    have hpow : 256 ^ w ≤ 2 ^ 64 := by
      obtain rfl | rfl := rendering_width hr <;> decide
    exact lt_of_lt_of_le h.2.2 hpow
  | position =>
    simp only [hr] at h
    exact h.1.trans (m.maxEntries.isLt.trans (by decide))

theorem cellOf_label (h : m.Labels ncpu n bs) :
    cellOf (m.rendering.label n) = m.rendering.cell n := by
  cases hr : m.rendering with
  | number w => exact cellOf_toStr (labels_lt h)
  | position => exact cellOf_position n

theorem labels_unique {bs' : List UInt8} (h : m.Labels ncpu n bs) (h' : m.Labels ncpu n bs') : bs = bs' := by
  unfold MapView.Labels at h h'
  cases hr : m.rendering with
  | number w =>
    simp only [hr] at h h'
    rw [h.2.1, h'.2.1]
  | position =>
    simp only [hr] at h h'
    obtain ⟨_, key, hkey, _, rfl⟩ := h
    obtain ⟨_, key', hkey', _, rfl⟩ := h'
    rw [Option.some.inj (hkey.symm.trans hkey')]

theorem cell_injective {r r' : MapView.Rendering} {n' : Nat} (hn : n < 2 ^ 64) (hn' : n' < 2 ^ 64)
    (h : r.cell n = r'.cell n') : n = n' ∧ (r = .position ↔ r' = .position) := by
  cases r with
  | number w =>
    cases r' with
    | number w' =>
      have heq := congrArg UInt64.toNat (Cell.bucket.inj h)
      rw [UInt64.toNat_ofNat_of_lt' hn, UInt64.toNat_ofNat_of_lt' hn'] at heq
      exact ⟨heq, by simp⟩
    | position => cases h
  | position =>
    cases r' with
    | number w' => cases h
    | position => exact ⟨toStr_injective (List.append_cancel_left (Cell.key.inj h)), by simp⟩

end Exports

/-! ## What a snapshot has -/

section Lookup

variable {es : List (Str × Entry)}

theorem lookup_insertAll {j : Obj Entry} {k : Str} {e : Entry} (h : (insertAll es j).lookup k = some e) :
    (k, e) ∈ es ∨ j.lookup k = some e := by
  induction es generalizing j with
  | nil => exact .inr h
  | cons p es ih =>
    obtain hmem | hold := ih h
    · exact .inl (List.mem_cons_of_mem _ hmem)
    · by_cases hk : k = p.1
      · subst hk
        rw [AList.lookup_insert] at hold
        cases hold
        exact .inl List.mem_cons_self
      · rw [AList.lookup_insert_ne hk] at hold
        exact .inr hold

theorem mem_insertAll {j : Obj Entry} {k : Str} (h : k ∈ j ∨ ∃ e, (k, e) ∈ es) : k ∈ insertAll es j := by
  induction es generalizing j with
  | nil =>
    obtain hj | ⟨e, he⟩ := h
    · exact hj
    · cases he
  | cons p es ih =>
    apply ih
    obtain hj | ⟨e, he⟩ := h
    · exact .inl ((AList.mem_insert _).mpr (.inr hj))
    · obtain rfl | he := List.mem_cons.mp he
      · exact .inl ((AList.mem_insert _).mpr (.inl rfl))
      · exact .inr ⟨e, he⟩

/-- The last map so far that is exported under a name. -/
def namedSlot (ncpu : Nat) (name : Str) (found : Option MapView) (slot : Option MapView × Nat) : Option MapView :=
  match slot.1 with
  | none => found
  | some m => if m.skipped ncpu slot.2 ∨ m.mapName slot.2 ≠ name then found else some m

/-- The map that a node exports under a name. -/
def Node.mapNamed (n : Node) (name : Str) : Option MapView := n.slots.zipIdx.foldl (namedSlot n.ncpu name) none

theorem lookup_exportSlots (ncpu : Nat) (name : Str) (slots : List (Option MapView × Nat)) (maps : Snapshot)
    (found : Option MapView) (h : maps.lookup name = found.map (·.toObj ncpu)) :
    (slots.foldl (exportSlot ncpu) maps).lookup name =
      (slots.foldl (namedSlot ncpu name) found).map (·.toObj ncpu) := by
  induction slots generalizing maps found with
  | nil => exact h
  | cons slot slots ih =>
    obtain ⟨_ | m, i⟩ := slot
    · exact ih maps found h
    · simp only [List.foldl_cons, exportSlot, namedSlot]
      apply ih
      by_cases hskip : m.skipped ncpu i
      · simp only [hskip, true_or, if_true]
        exact h
      · by_cases hname : m.mapName i = name
        · subst hname
          simp only [hskip, ne_eq, not_true_eq_false, or_self, if_false, Bool.false_eq_true]
          exact AList.lookup_insert _
        · simp only [hskip, hname, ne_eq, not_false_eq_true, or_true, if_true, Bool.false_eq_true, if_false]
          exact (AList.lookup_insert_ne (Ne.symm hname)).trans h

theorem lookup_snapshot (n : Node) (name : Str) :
    n.snapshot.lookup name = (n.mapNamed name).map (·.toObj n.ncpu) :=
  lookup_exportSlots n.ncpu name _ ∅ none rfl

theorem labels_of_contributes {n : Node} {name : Str} {c : Cell} {e : Entry}
    (h : Contributes n.snapshot name c e) :
    ∃ m i, n.mapNamed name = some m ∧ m.Labels n.ncpu i e.source ∧ c = m.rendering.cell i := by
  obtain ⟨obj, k, hobj, hk, rfl⟩ := h
  rw [lookup_snapshot] at hobj
  obtain ⟨m, hm, rfl⟩ := Option.map_eq_some_iff.mp hobj
  obtain hmem | hnone := lookup_insertAll hk
  · obtain ⟨i, rfl, hi⟩ := labels_of_mem hmem
    exact ⟨m, i, hm, hi, cellOf_label hi⟩
  · cases hnone

theorem contributes_of_labels {n : Node} {name : Str} {m : MapView} {i : Nat} {bs : List UInt8}
    (hm : n.mapNamed name = some m) (hi : m.Labels n.ncpu i bs) :
    ∃ v, Contributes n.snapshot name (m.rendering.cell i) ⟨v, bs⟩ := by
  obtain ⟨v, hv⟩ := mem_of_labels hi
  have hmem : m.rendering.label i ∈ insertAll (m.entries n.ncpu) ∅ := mem_insertAll (.inr ⟨_, hv⟩)
  obtain ⟨⟨v', bs'⟩, he⟩ := Option.isSome_iff_exists.mp (AList.lookup_isSome.mpr hmem)
  have hobj : n.snapshot.lookup name = some (m.toObj n.ncpu) := by rw [lookup_snapshot, hm, Option.map_some]
  have hcontributes : Contributes n.snapshot name (m.rendering.cell i) ⟨v', bs'⟩ :=
    ⟨_, _, hobj, he, cellOf_label hi⟩
  obtain ⟨m', i', hm', hi', hcell⟩ := labels_of_contributes hcontributes
  obtain rfl := Option.some.inj (hm.symm.trans hm')
  obtain ⟨rfl, _⟩ := cell_injective (labels_lt hi) (labels_lt hi') hcell
  obtain rfl := labels_unique hi hi'
  exact ⟨v', hcontributes⟩

end Lookup

/-! ## Which maps may share a name -/

/-- The keys of two maps that are exported under one name become different strings unless
they are the same key. -/
def Agree (a b : MapView) (ncpu ncpu' : Nat) : Prop :=
  match a.rendering, b.rendering with
  | .number w, .number w' => w = w' ∨ ∀ n < 2 ^ 32, ¬ (a.HasKey ncpu (le w n) ∧ b.HasKey ncpu' (le w' n))
  | .position, .position => ∀ i bs bs', a.Visits i bs → b.Visits i bs' → bs = bs'
  | _, _ => True

/-- The entries that are added together stand for the same keys just if the maps that share
a name agree on the strings. -/
theorem same_keys_iff_agree (nodes : List Node) :
    SameKeys nodes ↔ ∀ a ∈ nodes, ∀ b ∈ nodes, ∀ name m m', a.mapNamed name = some m → b.mapNamed name = some m' →
      Agree m m' a.ncpu b.ncpu := by
  constructor
  · intro hsame a ha b hb name m m' hm hm'
    have hkeys : ∀ {i bs bs'}, m.rendering.cell i = m'.rendering.cell i → m.Labels a.ncpu i bs →
        m'.Labels b.ncpu i bs' → bs = bs' := by
      intro i bs bs' hcell hi hi'
      obtain ⟨v, hv⟩ := contributes_of_labels hm hi
      obtain ⟨v', hv'⟩ := contributes_of_labels hm' hi'
      exact hsame a ha b hb name _ _ _ hv (hcell ▸ hv')
    unfold Agree
    cases hr : m.rendering with
    | number w =>
      cases hr' : m'.rendering with
      | number w' =>
        refine or_iff_not_imp_left.mpr fun hne n hn ⟨hkey, hkey'⟩ => hne ?_
        have hlt : ∀ {v}, v = 4 ∨ v = 8 → n < 256 ^ v := by
          rintro v (rfl | rfl) <;> omega
        have heq := hkeys (by rw [hr, hr']; rfl) ((labels_number hr).mpr ⟨hkey, rfl, hlt (rendering_width hr)⟩)
          ((labels_number hr').mpr ⟨hkey', rfl, hlt (rendering_width hr')⟩)
        simpa using congrArg List.length heq
      | position => trivial
    | position =>
      cases hr' : m'.rendering with
      | number w' => trivial
      | position =>
        intro i bs bs' hi hi'
        exact hkeys (by rw [hr, hr']) ((labels_position hr).mpr hi) ((labels_position hr').mpr hi')
  · intro hagree a ha b hb name c e e' he he'
    obtain ⟨m, i, hm, hi, rfl⟩ := labels_of_contributes he
    obtain ⟨m', i', hm', hi', hcell⟩ := labels_of_contributes he'
    have hpair := hagree a ha b hb name m m' hm hm'
    obtain ⟨rfl, hclass⟩ := cell_injective (labels_lt hi) (labels_lt hi') hcell
    unfold Agree at hpair
    cases hr : m.rendering with
    | number w =>
      cases hr' : m'.rendering with
      | number w' =>
        simp only [hr, hr'] at hpair
        obtain ⟨hkey, hbs, hlt⟩ := (labels_number hr).mp hi
        obtain ⟨hkey', hbs', hlt'⟩ := (labels_number hr').mp hi'
        by_cases hw : w = w'
        · rw [hbs, hbs', hw]
        · have hsmall : i < 2 ^ 32 := by
            obtain rfl | rfl := rendering_width hr
            · exact hlt
            · obtain rfl | rfl := rendering_width hr'
              · exact hlt'
              · exact absurd rfl hw
          obtain heq | hnone := hpair
          · exact absurd heq hw
          · exact absurd ⟨hbs ▸ hkey, hbs' ▸ hkey'⟩ (hnone i hsmall)
      | position => exact absurd (hclass.mpr hr') (by rw [hr]; simp)
    | position =>
      cases hr' : m'.rendering with
      | number w' => exact absurd (hclass.mp hr) (by rw [hr']; simp)
      | position =>
        simp only [hr, hr'] at hpair
        exact hpair i _ _ ((labels_position hr).mp hi) ((labels_position hr').mp hi')

/-- A node with one hash map with keys of two bytes, `@calls`, that has one key. -/
def oneKey (key : Vector UInt8 2) (calls : UInt8) : Node where
  slots := [some
    { type := HASH, name := "AT_calls".toList, keySize := 2, valueSize := 8, maxEntries := 16
      elem := fun _ => none
      nextKey := fun cur => if cur = none then some key else none
      lookup := fun k => if k = key then some (fun i => if i = 0 then calls else 0) else none }]
  ncpu := 1

/-- Two nodes, and a different key on each of them. -/
def twoNodes : List Node := [oneKey #v[1, 0] 5, oneKey #v[2, 0] 7]

theorem different_keys_added :
    (∀ casts, ((UbtTop.aggregate casts (twoNodes.map fun n => received n.snapshot)).map totalsOf).map
      (total · "@calls".toList (.key "k_0".toList)) = some 12) ∧ ¬ SameKeys twoNodes := by
  refine ⟨fun casts => ?_, fun hsame => ?_⟩
  · have htotal := total_aggregate casts "@calls".toList (.key "k_0".toList) (twoNodes.map Node.snapshot)
    rw [List.map_map] at htotal
    exact htotal.trans (by decide +kernel)
  have hfirst : Contributes (oneKey #v[1, 0] 5).snapshot "@calls".toList (.key "k_0".toList) ⟨5, [1, 0]⟩ :=
    ⟨_, "k_0".toList, rfl, by decide +kernel, by decide +kernel⟩
  have hsecond : Contributes (oneKey #v[2, 0] 7).snapshot "@calls".toList (.key "k_0".toList) ⟨7, [2, 0]⟩ :=
    ⟨_, "k_0".toList, rfl, by decide +kernel, by decide +kernel⟩
  have heq := hsame _ (by simp [twoNodes]) _ (by simp [twoNodes]) _ _ _ _ hfirst hsecond
  exact absurd heq (by decide)

end Snapshots
