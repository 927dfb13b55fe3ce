import Mathlib.Data.List.Pairwise
import Mathlib.Data.Nat.ModEq
import Mathlib.Data.Prod.Lex
import Ubpftrace.Bisection

/-!
# The mapping table of the stack unwinder

`DWARFUnwind` splits the unwind rows of each object file into table chunks, and
`add_pid` lists for a process where the first row of each chunk is mapped. The BPF
program bisects that list for an instruction pointer (`find_mapping`) and searches the
chunk of the entry it finds. The list says where a chunk begins, not where the mapping
it is found in begins or ends.
-/

namespace Unwind

open Bisection

def chunkSize : Nat := 256 * 1024

def maxMappings : Nat := 1000

def maxMappingsBisectSteps : Nat := 10

/-- `u64`. -/
def wordSize : Nat := 2 ^ 64

/-- The `std::map` from file offsets to unwind rules of one object file. -/
structure Rows where
  entries : List (Nat × Nat)
  sorted : entries.Pairwise fun r r' => r.1 < r'.1

structure TableMapping where
  fileOffset : Nat
  tableId : Nat
  tableOffset : Nat
  deriving DecidableEq

/-- The rows of one table, with the place the table was put. -/
structure Chunk where
  rows : List (Nat × Nat)
  mapping : TableMapping
  deriving DecidableEq

/-- `dwunwind_build_table`: the bytes of a table for the first entries of a non-empty
list and how many they are. -/
structure Builder where
  build : List (Nat × Nat) → Nat → Nat × Nat
  size_pos : ∀ rows max, rows ≠ [] → 0 < (build rows max).1
  entries_pos : ∀ rows max, rows ≠ [] → 0 < (build rows max).2

/-- `current_table_`, as its size, and `current_table_id_`. -/
structure Current where
  size : Nat
  id : Nat
  deriving DecidableEq

def Current.advance (c : Current) (size : Nat) : Current :=
  if chunkSize - 200 ≤ c.size + size then ⟨0, c.id + 1⟩ else ⟨c.size + size, c.id⟩

/-- The loop at the end of `read_eh_frame`; each round takes a row, so their number is
enough fuel. -/
def readChunks (b : Builder) : Nat → Current → List (Nat × Nat) → List Chunk × Current
  | 0, c, _ => ([], c)
  | _ + 1, c, [] => ([], c)
  | fuel + 1, c, row :: rows =>
    let built := b.build (row :: rows) (chunkSize - c.size - 16)
    let chunk : Chunk := ⟨(row :: rows).take built.2, ⟨row.1, c.id, c.size⟩⟩
    let rest := readChunks b fuel (c.advance built.1) ((row :: rows).drop built.2)
    (chunk :: rest.1, rest.2)

/-- `table_mappings_` by the number of the object, and the table being filled. -/
structure Tables where
  files : List (List Chunk)
  current : Current

def Tables.addFile (b : Builder) (t : Tables) (rows : Rows) : Tables :=
  let r := readChunks b rows.entries.length t.current rows.entries
  ⟨t.files ++ [r.1], r.2⟩

def Tables.empty : Tables := ⟨[], ⟨0, 0⟩⟩

/-- The tables after a list of object files was added. -/
def tablesOf (b : Builder) (files : List Rows) : Tables := files.foldl (Tables.addFile b) Tables.empty

def Tables.chunks (t : Tables) (oid : Nat) : List Chunk := t.files.getD oid []

/-- An executable mapping of `/proc/<pid>/maps`, with the number of its object. -/
structure ProcessMapEntry where
  vmStart : Nat
  vmEnd : Nat
  offset : Nat
  oid : Nat
  start_lt_end : vmStart < vmEnd
  end_le : vmEnd ≤ wordSize
  offset_end_lt : offset + (vmEnd - vmStart) < wordSize

structure MapEntry where
  vmaStart : Nat
  offset : Nat
  offsetmapId : Nat
  startInMap : Nat
  deriving DecidableEq, Inhabited

def ProcessMapEntry.offsetEnd (m : ProcessMapEntry) : Nat := (m.offset + (m.vmEnd - m.vmStart)) % wordSize

def ProcessMapEntry.entry (m : ProcessMapEntry) (me : TableMapping) : MapEntry :=
  let delta := me.fileOffset - m.offset
  ⟨m.vmStart + delta, m.offset + delta, me.tableId, me.tableOffset⟩

/-- The entries that one mapping adds. -/
def mapEntries (m : ProcessMapEntry) : List TableMapping → List MapEntry
  | [] => []
  | me :: rest =>
    if m.offsetEnd ≤ me.fileOffset then []
    else if me.fileOffset < m.offset then mapEntries m rest
    else m.entry me :: mapEntries m rest

def addPid (t : Tables) (maps : List ProcessMapEntry) : List MapEntry :=
  maps.flatMap fun m => mapEntries m ((t.chunks m.oid).map Chunk.mapping)

/-- The loop of `find_mapping`; the position `left` is returned. -/
def findLoop (entries : List MapEntry) (ip : Nat) : Nat → Nat → Nat → Nat
  | 0, left, _ => left
  | steps + 1, left, right =>
    if left < right then
      if maxMappings ≤ (left + right) / 2 then left
      else if (entries.getD ((left + right) / 2) default).vmaStart ≤ ip then
        findLoop entries ip steps ((left + right) / 2 + 1) right
      else findLoop entries ip steps left ((left + right) / 2)
    else left

def findMapping (entries : List MapEntry) (ip : Nat) : Option MapEntry :=
  let n := min (entries.length % 2 ^ 32) maxMappings
  let left := findLoop entries ip maxMappingsBisectSteps 0 n
  if left = 0 then none
  else if maxMappings ≤ left - 1 then none
  else some (entries.getD (left - 1) default)

/-- What `unwind_step` passes to `find_cft`: the table, the place in it and the search key. -/
def lookup (entries : List MapEntry) (ip : Nat) : Option (Nat × Nat × Nat) :=
  (findMapping entries ip).map fun me =>
    (me.offsetmapId, me.startInMap, (ip + wordSize - me.vmaStart + me.offset) % wordSize)

/-! ## What the table should give -/

def ProcessMapEntry.Contains (m : ProcessMapEntry) (ip : Nat) : Prop := m.vmStart ≤ ip ∧ ip < m.vmEnd

def ProcessMapEntry.fileOffset (m : ProcessMapEntry) (ip : Nat) : Nat := ip - m.vmStart + m.offset

/-- The chunk has the last row at or before a file offset. -/
def HoldsLast (chunks : List Chunk) (c : Chunk) (offset : Nat) : Prop :=
  ∃ row ∈ c.rows, row.1 ≤ offset ∧ ∀ c' ∈ chunks, ∀ row' ∈ c'.rows, row'.1 ≤ offset → row'.1 ≤ row.1

/-- The lookup of an instruction pointer is right: the chunk with the last row at or
before its file offset and that offset as the key, nothing outside all mappings. -/
structure Right (t : Tables) (maps : List ProcessMapEntry) (ip : Nat) : Prop where
  inside : ∀ m ∈ maps, m.Contains ip → ∀ c ∈ t.chunks m.oid, HoldsLast (t.chunks m.oid) c (m.fileOffset ip) →
    lookup (addPid t maps) ip = some (c.mapping.tableId, c.mapping.tableOffset, m.fileOffset ip)
  outside : (∀ m ∈ maps, ¬ m.Contains ip) → findMapping (addPid t maps) ip = none

/-- The mapping covers the first row of the chunk. -/
def ProcessMapEntry.Covers (m : ProcessMapEntry) (c : Chunk) : Prop :=
  m.offset ≤ c.mapping.fileOffset ∧ c.mapping.fileOffset < m.offset + (m.vmEnd - m.vmStart)

/-- Where the mapping shows the first row of the chunk. -/
def ProcessMapEntry.address (m : ProcessMapEntry) (c : Chunk) : Nat := m.vmStart + (c.mapping.fileOffset - m.offset)

/-- A chunk's first row is mapped at `ip` or below, by a mapping of the same object at
the same displacement as `m`, and no chunk begins between. -/
def Reached (t : Tables) (maps : List ProcessMapEntry) (m : ProcessMapEntry) (c : Chunk) (ip : Nat) : Prop :=
  ∃ m' ∈ maps, m'.oid = m.oid ∧ m'.Covers c ∧ m'.address c ≤ ip ∧
    (m'.vmStart + m.offset) % wordSize = (m.vmStart + m'.offset) % wordSize ∧
    ∀ n ∈ maps, ∀ c' ∈ t.chunks n.oid, n.Covers c' → n.address c' ≤ ip → n.address c' ≤ m'.address c

/-- The condition under which the lookup is right. -/
structure Aligned (t : Tables) (maps : List ProcessMapEntry) (ip : Nat) : Prop where
  inside : ∀ m ∈ maps, m.Contains ip → ∀ c ∈ t.chunks m.oid, HoldsLast (t.chunks m.oid) c (m.fileOffset ip) →
    Reached t maps m c ip
  outside : (∀ m ∈ maps, ¬ m.Contains ip) → ∀ m ∈ maps, ∀ c ∈ t.chunks m.oid, m.Covers c → ip < m.address c

/-! ## The chunks -/

/-- Tables are filled in the order of their numbers, each from its start. -/
def Chunk.place (c : Chunk) : Nat ×ₗ Nat := toLex (c.mapping.tableId, c.mapping.tableOffset)

def Current.place (c : Current) : Nat ×ₗ Nat := toLex (c.id, c.size)

theorem place_lt_advance (c : Current) {size : Nat} (h : 0 < size) : c.place < (c.advance size).place := by
  unfold Current.advance Current.place
  rw [Prod.Lex.toLex_lt_toLex]
  split
  · exact .inl (Nat.lt_succ_self _)
  · exact .inr ⟨rfl, Nat.lt_add_of_pos_right h⟩

variable {rows : List (Nat × Nat)} {chunks : List Chunk} {c : Chunk}

/-- Chunks for the rows, between the places the table is filled to before and after. -/
structure Written (rows : List (Nat × Nat)) (before : Current) (chunks : List Chunk) (after : Current) : Prop where
  starts : ∀ c ∈ chunks, ∃ row ∈ rows, row.1 = c.mapping.fileOffset
  sorted : chunks.Pairwise fun c c' => c.mapping.fileOffset < c'.mapping.fileOffset
  ordered : chunks.Pairwise fun c c' => c.place < c'.place
  from_start : ∀ c ∈ chunks, before.place ≤ c.place
  to_end : ∀ c ∈ chunks, c.place < after.place
  advanced : before.place ≤ after.place

theorem readChunks_written (b : Builder) (fuel : Nat) (c : Current) (hrows : rows.Pairwise fun r r' => r.1 < r'.1) :
    Written rows c (readChunks b fuel c rows).1 (readChunks b fuel c rows).2 := by
  have hnone (rows : List (Nat × Nat)) (c : Current) : Written rows c [] c :=
    ⟨by simp, .nil, .nil, by simp, by simp, le_rfl⟩
  induction fuel generalizing c rows with
  | zero => exact hnone _ _
  | succ fuel ih =>
    cases rows with
    | nil => exact hnone _ _
    | cons row rows =>
      simp only [readChunks]
      have hstep := place_lt_advance c (b.size_pos (row :: rows) (chunkSize - c.size - 16) (by simp))
      have htaken := b.entries_pos (row :: rows) (chunkSize - c.size - 16) (by simp)
      generalize b.build (row :: rows) (chunkSize - c.size - 16) = built at hstep htaken ⊢
      obtain ⟨hfirst, hlater⟩ := List.pairwise_cons.mp hrows
      have hleft : List.Sublist ((row :: rows).drop built.2) rows := by
        rw [← Nat.succ_pred_eq_of_pos htaken]
        exact List.drop_sublist _ rows
      have hrest := ih (c.advance built.1) (hlater.sublist hleft)
      generalize readChunks b fuel (c.advance built.1) ((row :: rows).drop built.2) = rest at hrest ⊢
      refine ⟨?_, .cons ?_ hrest.sorted, .cons ?_ hrest.ordered, ?_, ?_, hstep.le.trans hrest.advanced⟩
      · refine List.forall_mem_cons.mpr ⟨⟨row, List.mem_cons_self, rfl⟩, fun c' hc' => ?_⟩
        obtain ⟨r, hr, heq⟩ := hrest.starts c' hc'
        exact ⟨r, List.mem_cons_of_mem _ (hleft.mem hr), heq⟩
      · intro c' hc'
        obtain ⟨r, hr, heq⟩ := hrest.starts c' hc'
        exact heq ▸ hfirst r (hleft.mem hr)
      · exact fun c' hc' => lt_of_lt_of_le hstep (hrest.from_start c' hc')
      · exact List.forall_mem_cons.mpr ⟨le_rfl, fun c' hc' => hstep.le.trans (hrest.from_start c' hc')⟩
      · exact List.forall_mem_cons.mpr ⟨lt_of_lt_of_le hstep hrest.advanced, hrest.to_end⟩

/-! ## The tables of all object files -/

structure Tables.Sound (t : Tables) : Prop where
  ordered : t.files.flatten.Pairwise fun c c' => c.place < c'.place
  filled : ∀ c ∈ t.files.flatten, c.place < t.current.place
  sorted : ∀ chunks ∈ t.files, chunks.Pairwise fun c c' => c.mapping.fileOffset < c'.mapping.fileOffset

variable {t : Tables}

theorem Tables.Sound.addFile (h : t.Sound) (b : Builder) (rows : Rows) : (t.addFile b rows).Sound := by
  have hnew := readChunks_written b rows.entries.length t.current rows.sorted
  simp only [Tables.addFile]
  generalize readChunks b rows.entries.length t.current rows.entries = r at hnew
  refine ⟨?_, ?_, ?_⟩
  · simp only [List.flatten_append, List.flatten_singleton]
    refine List.pairwise_append.mpr ⟨h.ordered, hnew.ordered, fun c hc c' hc' => ?_⟩
    exact lt_of_lt_of_le (h.filled c hc) (hnew.from_start c' hc')
  · intro c hc
    simp only [List.flatten_append, List.flatten_singleton, List.mem_append] at hc
    rcases hc with hc | hc
    · exact lt_of_lt_of_le (h.filled c hc) hnew.advanced
    · exact hnew.to_end c hc
  · intro chunks hchunks
    rcases List.mem_append.mp hchunks with hchunks | hchunks
    · exact h.sorted chunks hchunks
    · exact List.mem_singleton.mp hchunks ▸ hnew.sorted

theorem tablesOf_sound (b : Builder) (files : List Rows) : (tablesOf b files).Sound := by
  have hempty : Tables.empty.Sound := ⟨.nil, by simp [Tables.empty], by simp [Tables.empty]⟩
  unfold tablesOf
  generalize Tables.empty = t at hempty
  induction files generalizing t with
  | nil => exact hempty
  | cons rows files ih => exact ih _ (hempty.addFile b rows)

theorem Tables.Sound.starts_sorted (h : t.Sound) (oid : Nat) :
    (t.chunks oid).Pairwise fun c c' => c.mapping.fileOffset < c'.mapping.fileOffset := by
  unfold Tables.chunks
  by_cases hoid : oid < t.files.length
  · rw [List.getD_eq_getElem _ _ hoid]
    exact h.sorted _ (List.getElem_mem hoid)
  · rw [List.getD_eq_default _ _ (by omega)]
    exact .nil

theorem Tables.Sound.places_nodup (h : t.Sound) : (t.files.flatten.map Chunk.place).Nodup :=
  List.pairwise_map.mpr (h.ordered.imp fun hlt => hlt.ne)

theorem Tables.mem_files {oid : Nat} (hc : c ∈ t.chunks oid) :
    ∃ h : oid < t.files.length, c ∈ t.files.get ⟨oid, h⟩ := by
  unfold Tables.chunks at hc
  by_cases hoid : oid < t.files.length
  · rw [List.getD_eq_getElem _ _ hoid] at hc
    exact ⟨hoid, hc⟩
  · rw [List.getD_eq_default _ _ (by omega)] at hc
    simp at hc

/-- A table is used for one chunk of one object. -/
theorem Tables.Sound.place_unique (h : t.Sound) {oid oid' : Nat} {c' : Chunk}
    (hc : c ∈ t.chunks oid) (hc' : c' ∈ t.chunks oid') (hplace : c.place = c'.place) : oid = oid' ∧ c = c' := by
  obtain ⟨hlt, hmem⟩ := Tables.mem_files hc
  obtain ⟨hlt', hmem'⟩ := Tables.mem_files hc'
  have heq : c = c' := List.inj_on_of_nodup_map h.places_nodup
    (List.mem_flatten.mpr ⟨_, List.get_mem _ _, hmem⟩) (List.mem_flatten.mpr ⟨_, List.get_mem _ _, hmem'⟩) hplace
  refine ⟨?_, heq⟩
  subst heq
  -- two objects that share a chunk would put it before itself
  have hacross := List.pairwise_iff_getElem.mp (List.pairwise_flatten.mp h.ordered).2
  rcases Nat.lt_trichotomy oid oid' with hoid | hoid | hoid
  · exact absurd (hacross oid oid' hlt hlt' hoid c hmem c hmem') (lt_irrefl _)
  · exact hoid
  · exact absurd (hacross oid' oid hlt' hlt hoid c hmem' c hmem) (lt_irrefl _)

/-! ## The entries of a process -/

theorem ProcessMapEntry.offsetEnd_eq (m : ProcessMapEntry) : m.offsetEnd = m.offset + (m.vmEnd - m.vmStart) :=
  Nat.mod_eq_of_lt m.offset_end_lt

variable {m : ProcessMapEntry}

instance : Decidable (m.Covers c) := inferInstanceAs (Decidable (_ ∧ _))

/-- The chunks come in the order of their starts, so that leaving the loop at the first
one behind the mapping skips no other. -/
theorem mapEntries_eq (hsorted : chunks.Pairwise fun c c' => c.mapping.fileOffset < c'.mapping.fileOffset) :
    mapEntries m (chunks.map Chunk.mapping) = (chunks.filter (m.Covers ·)).map (m.entry ·.mapping) := by
  induction hsorted with
  | nil => rfl
  | @cons c cs hc _ ih =>
    simp only [List.map_cons, mapEntries, m.offsetEnd_eq, ih]
    split_ifs with hend hstart
    · rw [List.filter_eq_nil_iff.mpr, List.map_nil]
      simp only [decide_eq_true_eq, List.mem_cons]
      rintro c' (rfl | hc') ⟨-, hlt⟩
      · omega
      · have := hc c' hc'
        omega
    · rw [List.filter_cons_of_neg]
      simpa using fun hcovers : m.Covers c => absurd hcovers.1 (not_le.mpr hstart)
    · have hcovers : m.Covers c := ⟨not_lt.mp hstart, not_le.mp hend⟩
      rw [List.filter_cons_of_pos (by simpa using hcovers), List.map_cons]

theorem mem_mapEntries {e : MapEntry}
    (hsorted : chunks.Pairwise fun c c' => c.mapping.fileOffset < c'.mapping.fileOffset) :
    e ∈ mapEntries m (chunks.map Chunk.mapping) ↔ ∃ c ∈ chunks, m.Covers c ∧ e = m.entry c.mapping := by
  simp only [mapEntries_eq hsorted, List.mem_map, List.mem_filter, decide_eq_true_eq, and_assoc, eq_comm (a := e)]

theorem entry_vmaStart : (m.entry c.mapping).vmaStart = m.address c := rfl

theorem entry_offset (h : m.Covers c) :
    (m.entry c.mapping).offset = c.mapping.fileOffset := by
  have := h.1
  simp only [ProcessMapEntry.entry]
  omega

theorem contains_address (h : m.Covers c) : m.Contains (m.address c) := by
  obtain ⟨hle, hlt⟩ := h
  unfold ProcessMapEntry.Contains ProcessMapEntry.address
  omega

theorem mapEntries_sorted
    (hsorted : chunks.Pairwise fun c c' => c.mapping.fileOffset < c'.mapping.fileOffset) :
    (mapEntries m (chunks.map Chunk.mapping)).Pairwise fun e e' => e.vmaStart < e'.vmaStart := by
  rw [mapEntries_eq hsorted, List.pairwise_map]
  refine (hsorted.filter _).imp_of_mem fun hc _ hlt => ?_
  have hcovers : m.Covers _ := of_decide_eq_true (List.mem_filter.mp hc).2
  have := hcovers.1
  simp only [ProcessMapEntry.entry]
  omega

section Process

variable {t : Tables} (ht : t.Sound) {maps : List ProcessMapEntry}
include ht

theorem mem_addPid {e : MapEntry} :
    e ∈ addPid t maps ↔ ∃ m ∈ maps, ∃ c ∈ t.chunks m.oid, m.Covers c ∧ e = m.entry c.mapping := by
  simp only [addPid, List.mem_flatMap]
  refine exists_congr fun m => and_congr_right fun _ => ?_
  exact mem_mapEntries (ht.starts_sorted m.oid)

theorem addPid_sorted (hmaps : maps.Pairwise fun m m' => m.vmEnd ≤ m'.vmStart) :
    (addPid t maps).Pairwise fun e e' => e.vmaStart < e'.vmaStart := by
  unfold addPid
  rw [List.pairwise_flatMap]
  refine ⟨fun m _ => mapEntries_sorted (ht.starts_sorted m.oid), hmaps.imp ?_⟩
  intro m m' hlt e he e' he'
  obtain ⟨c, -, hcovers, rfl⟩ := (mem_mapEntries (ht.starts_sorted m.oid)).mp he
  obtain ⟨c', -, hcovers', rfl⟩ := (mem_mapEntries (ht.starts_sorted m'.oid)).mp he'
  have := (contains_address hcovers).2
  have := (contains_address hcovers').1
  simp only [entry_vmaStart]
  omega

end Process

/-! ## The search -/

theorem findLoop_eq_bisect (entries : List MapEntry) (ip steps : Nat) {left right : Nat} (h : right ≤ maxMappings) :
    findLoop entries ip steps left right =
      bisect (fun i => decide ((entries.getD i default).vmaStart ≤ ip)) steps left right := by
  induction steps generalizing left right with
  | zero => rfl
  | succ steps ih =>
    simp only [findLoop, bisect]
    split
    · rw [if_neg (show ¬ maxMappings ≤ (left + right) / 2 by omega), ih h, ih (by omega)]
      simp
    · rfl

theorem findMapping_spec {entries : List MapEntry} (hsorted : entries.Pairwise fun e e' => e.vmaStart < e'.vmaStart)
    (hcount : entries.length ≤ maxMappings) (ip : Nat) :
    (findMapping entries ip = none ∧ ∀ e ∈ entries, ip < e.vmaStart) ∨
      ∃ e, findMapping entries ip = some e ∧ IsLast MapEntry.vmaStart entries ip e := by
  have hmax : maxMappings = 1000 := rfl
  have hn : min (entries.length % 2 ^ 32) maxMappings = entries.length := by omega
  have hfound := bisect_sorted hsorted ip
    (show entries.length < 2 ^ maxMappingsBisectSteps by simp only [maxMappingsBisectSteps]; omega)
  simp only [findMapping, hn, findLoop_eq_bisect entries ip _ hcount]
  generalize bisect (fun i => decide ((entries.getD i default).vmaStart ≤ ip)) maxMappingsBisectSteps 0
    entries.length = k at hfound ⊢
  rcases hfound with ⟨rfl, habove⟩ | ⟨hpos, hle, hlast⟩
  · exact .inl ⟨rfl, habove⟩
  · rw [if_neg (by omega), if_neg (by omega)]
    exact .inr ⟨_, rfl, hlast⟩

/-! ## Right lookups -/

theorem modEq_add_right_iff {w x y : Nat} (c : Nat) : x + c ≡ y + c [MOD w] ↔ x ≡ y [MOD w] :=
  ⟨Nat.ModEq.add_right_cancel' c, fun h => h.add_right c⟩

/-- The search key agrees with the file offset of `m` exactly at the same displacement. -/
theorem key_eq_iff {m m' : ProcessMapEntry} {c : Chunk} {ip : Nat} (hcovers : m'.Covers c) (hle : m'.address c ≤ ip)
    (hin : m.Contains ip) :
    (ip + wordSize - m'.address c + c.mapping.fileOffset) % wordSize = m.fileOffset ip ↔
      (m'.vmStart + m.offset) % wordSize = (m.vmStart + m'.offset) % wordSize := by
  obtain ⟨hoff, -⟩ := hcovers
  obtain ⟨hstart, hvm⟩ := hin
  have hend := m.offset_end_lt
  unfold ProcessMapEntry.address at *
  have hkey : ip + wordSize - (m'.vmStart + (c.mapping.fileOffset - m'.offset)) + c.mapping.fileOffset =
      ip - m'.vmStart + m'.offset + wordSize := by omega
  have hsmall : m.fileOffset ip % wordSize = m.fileOffset ip := by
    apply Nat.mod_eq_of_lt
    unfold ProcessMapEntry.fileOffset
    omega
  rw [hkey, Nat.add_mod_right, ← hsmall]
  -- both sides are congruences; add both starts to the first one
  change ip - m'.vmStart + m'.offset ≡ m.fileOffset ip [MOD wordSize] ↔
    m'.vmStart + m.offset ≡ m.vmStart + m'.offset [MOD wordSize]
  rw [← modEq_add_right_iff (m'.vmStart + m.vmStart)]
  have hleft : ip - m'.vmStart + m'.offset + (m'.vmStart + m.vmStart) = m.vmStart + m'.offset + ip := by omega
  have hright : m.fileOffset ip + (m'.vmStart + m.vmStart) = m'.vmStart + m.offset + ip := by
    unfold ProcessMapEntry.fileOffset
    omega
  rw [hleft, hright, modEq_add_right_iff]
  exact ⟨Nat.ModEq.symm, Nat.ModEq.symm⟩

section Lookup

variable {t : Tables} (ht : t.Sound) {maps : List ProcessMapEntry}
  (hmaps : maps.Pairwise fun m m' => m.vmEnd ≤ m'.vmStart) (hcount : (addPid t maps).length ≤ maxMappings) {ip : Nat}
include ht hmaps hcount

theorem lookup_inside_iff {m : ProcessMapEntry} (hin : m.Contains ip) {c : Chunk} (hc : c ∈ t.chunks m.oid) :
    lookup (addPid t maps) ip = some (c.mapping.tableId, c.mapping.tableOffset, m.fileOffset ip) ↔
      Reached t maps m c ip := by
  have hsorted := addPid_sorted ht hmaps
  constructor
  · intro hlookup
    simp only [lookup, Option.map_eq_some_iff] at hlookup
    obtain ⟨e, hfound, heq⟩ := hlookup
    rcases findMapping_spec hsorted hcount ip with ⟨hnone, -⟩ | ⟨e', hsome, hlast⟩
    · rw [hnone] at hfound
      cases hfound
    · rw [hsome, Option.some.injEq] at hfound
      subst hfound
      obtain ⟨m', hm', c', hc', hcovers, rfl⟩ := (mem_addPid ht).mp hlast.mem
      simp only [Prod.mk.injEq] at heq
      obtain ⟨hid, hoffset, hkey⟩ := heq
      have hplace : c'.place = c.place := congrArg toLex (Prod.ext hid hoffset)
      obtain ⟨hoid, rfl⟩ := ht.place_unique hc' hc hplace
      rw [entry_vmaStart, entry_offset hcovers, key_eq_iff hcovers hlast.le hin] at hkey
      refine ⟨m', hm', hoid, hcovers, hlast.le, hkey, ?_⟩
      intro n hn d hd hcoversd hled
      exact hlast.greatest (n.entry d.mapping) ((mem_addPid ht).mpr ⟨n, hn, d, hd, hcoversd, rfl⟩) hled
  · rintro ⟨m', hm', hoid, hcovers, hle, hdisplacement, hgreatest⟩
    have hlast : IsLast MapEntry.vmaStart (addPid t maps) ip (m'.entry c.mapping) := by
      refine ⟨(mem_addPid ht).mpr ⟨m', hm', c, hoid ▸ hc, hcovers, rfl⟩, hle, ?_⟩
      intro e he hle'
      obtain ⟨n, hn, d, hd, hcoversd, rfl⟩ := (mem_addPid ht).mp he
      exact hgreatest n hn d hd hcoversd hle'
    rcases findMapping_spec hsorted hcount ip with ⟨-, habove⟩ | ⟨e', hsome, hlast'⟩
    · have := habove _ hlast.mem
      rw [entry_vmaStart] at this
      omega
    · obtain rfl := hlast'.unique hsorted hlast
      simp only [lookup, hsome, Option.map_some, Option.some.injEq, Prod.mk.injEq]
      refine ⟨rfl, rfl, ?_⟩
      rw [entry_vmaStart, entry_offset hcovers]
      exact (key_eq_iff hcovers hle hin).mpr hdisplacement

theorem findMapping_none_iff :
    findMapping (addPid t maps) ip = none ↔ ∀ m ∈ maps, ∀ c ∈ t.chunks m.oid, m.Covers c → ip < m.address c := by
  rcases findMapping_spec (addPid_sorted ht hmaps) hcount ip with ⟨hnone, habove⟩ | ⟨e, hsome, hlast⟩
  · refine iff_of_true hnone fun m hm c hc hcovers => ?_
    exact habove (m.entry c.mapping) ((mem_addPid ht).mpr ⟨m, hm, c, hc, hcovers, rfl⟩)
  · refine iff_of_false (by simp [hsome]) fun habove => ?_
    obtain ⟨m, hm, c, hc, hcovers, rfl⟩ := (mem_addPid ht).mp hlast.mem
    have := habove m hm c hc hcovers
    have := hlast.le
    rw [entry_vmaStart] at this
    omega

end Lookup

/-- The lookup is right for an instruction pointer exactly if it is aligned. -/
theorem lookup_right_iff (b : Builder) (files : List Rows) (maps : List ProcessMapEntry)
    (hmaps : maps.Pairwise fun m m' => m.vmEnd ≤ m'.vmStart)
    (hcount : (addPid (tablesOf b files) maps).length ≤ maxMappings) (ip : Nat) :
    Right (tablesOf b files) maps ip ↔ Aligned (tablesOf b files) maps ip := by
  have ht := tablesOf_sound b files
  constructor
  · rintro ⟨hinside, houtside⟩
    refine ⟨fun m hm hin c hc hlast => ?_, fun hout => ?_⟩
    · exact (lookup_inside_iff ht hmaps hcount hin hc).mp (hinside m hm hin c hc hlast)
    · exact (findMapping_none_iff ht hmaps hcount).mp (houtside hout)
  · rintro ⟨hinside, houtside⟩
    refine ⟨fun m hm hin c hc hlast => ?_, fun hout => ?_⟩
    · exact (lookup_inside_iff ht hmaps hcount hin hc).mpr (hinside m hm hin c hc hlast)
    · exact (findMapping_none_iff ht hmaps hcount).mpr (houtside hout)

/-- One table for the rows that are left, two bytes a row. -/
def wholeTable : Builder where
  build rows _ := (2 * rows.length, rows.length)
  size_pos := by
    intro rows _ hne
    have := List.length_pos_iff.mpr hne
    simp only
    omega
  entries_pos := by
    intro rows _ hne
    exact List.length_pos_iff.mpr hne

def sampleRows : Rows := ⟨[(0x1000, 1), (0x3000, 2)], by decide⟩

def wholeText : ProcessMapEntry := ⟨0x400000, 0x403000, 0x1000, 0, by decide, by decide, by decide⟩

def restOfText : ProcessMapEntry := ⟨0x400000, 0x401000, 0x2000, 0, by decide, by decide, by decide⟩

/-- A mapping from the first row on, with an instruction pointer in it. -/
theorem lookup_right_whole_text : Right (tablesOf wholeTable [sampleRows]) [wholeText] 0x402010 := by
  have hchunk :
    (tablesOf wholeTable [sampleRows]).chunks wholeText.oid = [⟨[(0x1000, 1), (0x3000, 2)], ⟨0x1000, 0, 0⟩⟩] := by
    decide +kernel
  refine (lookup_right_iff wholeTable [sampleRows] [wholeText] (by simp) (by decide +kernel) 0x402010).mpr ?_
  refine ⟨fun m hm _ c hc _ => ?_, fun hout => ?_⟩
  · rw [List.mem_singleton.mp hm, hchunk, List.mem_singleton] at hc
    subst hc
    refine ⟨wholeText, List.mem_singleton_self _, by rw [List.mem_singleton.mp hm], ⟨by decide, by decide⟩,
      by decide, ?_, ?_⟩
    · rw [List.mem_singleton.mp hm]
    · intro n hn c' hc' _ _
      rw [List.mem_singleton.mp hn, hchunk, List.mem_singleton] at hc'
      rw [List.mem_singleton.mp hn, hc']
  · exact absurd ⟨by decide, by decide⟩ (hout wholeText (by simp))

/-- The text is mapped from the offset 0x2000 on, the only chunk begins with the row at
0x1000: an instruction pointer in the mapping finds no entry. -/
theorem chunk_start_not_mapped :
    ∃ c ∈ (tablesOf wholeTable [sampleRows]).chunks 0, restOfText.Contains 0x400010 ∧
      HoldsLast ((tablesOf wholeTable [sampleRows]).chunks 0) c (restOfText.fileOffset 0x400010) ∧
      lookup (addPid (tablesOf wholeTable [sampleRows]) [restOfText]) 0x400010 = none ∧
      ¬ Right (tablesOf wholeTable [sampleRows]) [restOfText] 0x400010 := by
  have hnone : lookup (addPid (tablesOf wholeTable [sampleRows]) [restOfText]) 0x400010 = none := by decide +kernel
  have hmem : (⟨[(0x1000, 1), (0x3000, 2)], ⟨0x1000, 0, 0⟩⟩ : Chunk) ∈ (tablesOf wholeTable [sampleRows]).chunks 0 := by
    decide +kernel
  have hin : restOfText.Contains 0x400010 := ⟨by decide, by decide⟩
  have hlast : HoldsLast ((tablesOf wholeTable [sampleRows]).chunks 0) ⟨[(0x1000, 1), (0x3000, 2)], ⟨0x1000, 0, 0⟩⟩
      (restOfText.fileOffset 0x400010) := by
    unfold HoldsLast
    decide +kernel
  refine ⟨_, hmem, hin, hlast, hnone, fun hright => ?_⟩
  have := hright.inside restOfText (by simp) hin _ hmem hlast
  rw [hnone] at this
  cases this

end Unwind
