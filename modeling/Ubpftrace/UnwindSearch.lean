import Ubpftrace.UnwindBuild
import Ubpftrace.UnwindMappings

/-!
# The search of `dwunwind_build_table`

The search for a number of entries that fills the space keeps its candidate between two
bounds as long as `n - adj` does not wrap around, as it does not if no table of `n` entries
is more than 2.6 bytes an entry too large. Long encodings take more, and a table of a few
hundred bytes too much is then taken to hold more entries than it does.
-/

namespace UnwindTable

open DoubleQuotients

section Tries

variable (entries : List Entry) (start maxSize : Nat)

/-- The locals before the first round. -/
def firstSearch : Search :=
  { left := 0, right := entries.length - start, n := min (estimate maxSize) (entries.length - start),
    result := ([], 0) }

/-- The states in which the loop makes a round. -/
inductive Tries : Search → Prop
  | first (hgoes : (firstSearch entries start maxSize).left < (firstSearch entries start maxSize).right) :
    Tries (firstSearch entries start maxSize)
  | next {s : Search} {built : Option (List UInt8)} (h : Tries s) (hbuilt : buildEntries entries start s.n = some built)
    (hgoes : (s.round maxSize built).2 = false ∧ (s.round maxSize built).1.left < (s.round maxSize built).1.right) :
    Tries (s.round maxSize built).1

/-- The search ends with a table of at least one entry that fits, and builds no table but
over entries that are there. -/
structure SearchSound : Prop where
  returns : ∃ rounds table outEntries, buildTable entries rounds start maxSize = some (table, outEntries) ∧
    table.length ≤ maxSize ∧ 1 ≤ outEntries
  inside : ∀ s, Tries entries start maxSize s → start + s.n ≤ entries.length

/-- No value is too large to be encoded, and no number `n` of entries gives a table that takes
`2.6 * (n + 1)` bytes more than there are. -/
structure Affordable : Prop where
  values : ∀ e ∈ entries.drop start, e.2 ≤ maxValue
  sizes : ∀ n buf, start + n ≤ entries.length → buildEntries entries start n = some (some buf) →
    5 * buf.length < 5 * maxSize + 13 * (n + 1)

end Tries

section Search

variable {entries : List Entry} {start maxSize : Nat} {s : Search} {buf : List UInt8}

theorem sub64_wraps {n adj : Nat} (hlt : n < adj) (hle : adj ≤ 10 * n) (hn : n < 2 ^ 43) : 2 ^ 63 ≤ sub64 n adj := by
  unfold sub64 wordSize
  omega

theorem buildEntries_returns {n : Nat} (hsize : entries.length < 2 ^ 63) (hend : start + n ≤ entries.length)
    (hvalues : ∀ e ∈ entries.drop start, e.2 ≤ maxValue) : ∃ built, buildEntries entries start n = some built := by
  have hout := @buildEntries_spec entries start n (by unfold wordSize; omega) hend (by omega)
  generalize buildEntries entries start n = built at hout
  cases hout with
  | gaveUp => exact ⟨none, rfl⟩
  | built => exact ⟨_, rfl⟩
  | bug he hlarge => exact absurd (hvalues _ (List.mem_of_mem_take he)) hlarge

section

variable (hsize : entries.length < 2 ^ 63) (hmin : 184 ≤ maxSize) (hmax : maxSize < 2 ^ 43)
  (hafford : Affordable entries start maxSize) (hstart : start < entries.length)
include hmax

theorem count_firstSearch : (firstSearch entries start maxSize).n ≤ maxSize := by
  simp only [firstSearch]
  rw [estimate_eq (by omega)]
  omega

include hsize hmin hafford

/-- Where the tables are not much too large, the candidates stay between the bounds. -/
theorem round_of_affordable {built : Option (List UInt8)} (h : Searching entries start maxSize 1 s)
    (hgoes : s.left < s.right) (hn : s.n ≤ maxSize)
    (hbuilt : buildEntries entries start s.n = some built) :
    Searching entries start maxSize 1 (s.round maxSize built).1 ∧ (s.round maxSize built).1.measure < s.measure ∧
      (s.round maxSize built).1.n ≤ maxSize := by
  obtain ⟨-, -, hend⟩ := h.between hmax hgoes hn
  obtain ⟨hkept, hless, -, hinside⟩ := h.round (by unfold wordSize; omega) hmax (by omega) hgoes hn hbuilt
  exact ⟨hkept, hless, hinside fun buf hbuf => hafford.sizes s.n buf hend (hbuf ▸ hbuilt)⟩

theorem buildLoop_returns (fuel : Nat) (h : Searching entries start maxSize 1 s) (hn : s.n ≤ maxSize)
    (hfuel : s.measure < fuel) :
    ∃ result, buildLoop entries start maxSize fuel s = some result := by
  induction fuel generalizing s with
  | zero => omega
  | succ fuel ih =>
    rw [buildLoop]
    by_cases hgoes : s.left < s.right
    · obtain ⟨-, -, hend⟩ := h.between hmax hgoes hn
      obtain ⟨built, hbuilt⟩ := buildEntries_returns hsize hend hafford.values
      obtain ⟨hkept, hless, hn'⟩ := round_of_affordable hsize hmin hmax hafford h hgoes hn hbuilt
      rw [if_pos hgoes, hbuilt, Option.bind_some]
      by_cases hdone : (s.round maxSize built).2 = true
      · rw [if_pos hdone]
        exact ⟨_, rfl⟩
      · rw [if_neg hdone]
        exact ih hkept hn' (by omega)
    · rw [if_neg hgoes]
      exact ⟨_, rfl⟩

include hstart

theorem buildTable_returns :
    ∃ result, buildTable entries (2 * entries.length + 2) start maxSize = some result ∧
      Found entries start maxSize 1 result := by
  have hfuel : (firstSearch entries start maxSize).measure < 2 * entries.length + 2 := by
    have hright : (firstSearch entries start maxSize).right ≤ entries.length := Nat.sub_le _ _
    unfold Search.measure
    generalize firstSearch entries start maxSize = s at hright
    split <;> omega
  obtain ⟨result, hloop⟩ := buildLoop_returns hsize hmin hmax hafford _ (.init (Nat.le_of_lt hstart) hmax)
    (count_firstSearch hmax) hfuel
  have hresult := congrArg (Option.map fun result => if 0 < result.2 then result else ([], 0)) hloop
  exact ⟨_, hresult, buildTable_result (by unfold wordSize; omega) hmax (by omega) (by decide) hstart hresult⟩

/-- The candidates are inside. -/
theorem Tries.searching (h : Tries entries start maxSize s) :
    Searching entries start maxSize 1 s ∧ s.left < s.right ∧ s.n ≤ maxSize := by
  induction h with
  | first hgoes => exact ⟨.init (Nat.le_of_lt hstart) hmax, hgoes, count_firstSearch hmax⟩
  | @next s built _ hbuilt hgoes ih =>
    obtain ⟨hsearch, hmore, hn⟩ := ih
    obtain ⟨hkept, -, hn'⟩ := round_of_affordable hsize hmin hmax hafford hsearch hmore hn hbuilt
    exact ⟨hkept, hgoes.2, hn'⟩

theorem searchSound_of_affordable : SearchSound entries start maxSize := by
  constructor
  · obtain ⟨result, hresult, hfound⟩ := buildTable_returns hsize hmin hmax hafford hstart
    have hmany := hfound.many
    exact ⟨_, result.1, result.2, hresult, hfound.fits, by omega⟩
  · intro s htries
    obtain ⟨hsearch, hgoes, hn⟩ := htries.searching hsize hmin hmax hafford hstart
    exact (hsearch.between hmax hgoes hn).2.2

omit hafford in
/-- A first table that is too large by more makes the search leave the list. -/
theorem not_searchSound
    (hbuilt : buildEntries entries start (firstSearch entries start maxSize).n = some (some buf))
    (htoo : 5 * maxSize + 13 * ((firstSearch entries start maxSize).n + 1) ≤ 5 * buf.length) :
    ¬ SearchSound entries start maxSize := by
  intro hsound
  have hgoes : (firstSearch entries start maxSize).left < (firstSearch entries start maxSize).right :=
    Nat.sub_pos_of_lt hstart
  have hn : (firstSearch entries start maxSize).n ≤ maxSize := count_firstSearch hmax
  have hleft : (firstSearch entries start maxSize).left = 0 := rfl
  have htries := Tries.first hgoes
  generalize firstSearch entries start maxSize = s at *
  have hlarge : maxSize < buf.length := by omega
  have hbytes := length_buildEntries (by unfold wordSize; omega) (hsound.inside s htries) (by omega) hbuilt
  obtain ⟨hten, hless, -⟩ := adj_le hbytes hn hmax (by omega)
  have hadj := mt (hless hlarge).mpr (Nat.not_lt.mpr htoo)
  have hpred : sub64 s.n 1 = s.n - 1 := sub64_of_le (by omega) (by unfold wordSize; omega)
  have hnext : Tries entries start maxSize (s.round maxSize (some buf)).1 := by
    apply htries.next hbuilt
    rw [Search.round_large hlarge, hpred]
    exact ⟨rfl, by dsimp only; omega⟩
  have hinside := hsound.inside _ hnext
  rw [Search.round_large hlarge] at hinside
  have hwraps := sub64_wraps (Nat.lt_of_not_le hadj) (hten hlarge) (by omega)
  have := Nat.le_trans (Nat.le_trans hwraps (Nat.le_max_left _ s.left)) (Nat.le_trans (Nat.le_add_left _ start) hinside)
  omega

end

end Search

/-! ## The tables of a file -/

section Chunks

open Unwind (Current chunkSize)

variable (entries : List Entry)

/-- The `max_size` of the next table. -/
def spaceLeft (c : Current) : Nat := chunkSize - c.size - 16

/-- The loop at the end of `read_eh_frame`, with the number of rounds each search may
take: where each table starts and its `out_entries`. -/
def chunkLoop (rounds : Nat) : Nat → Current → Nat → Option (List (Nat × Nat))
  | 0, _, _ => none
  | fuel + 1, c, start =>
    if start < entries.length then
      (buildTable entries rounds start (spaceLeft c)).bind fun built =>
        (chunkLoop rounds fuel (c.advance built.1.length) (start + built.2)).map ((start, built.2) :: ·)
    else some []

/-- The tables together have every entry once. -/
def CoversOnce (c : Current) : Prop :=
  ∃ rounds fuel chunks, chunkLoop entries rounds fuel c 0 = some chunks ∧
    (chunks.map fun chunk => segment entries chunk.1 chunk.2).flatten = entries

variable {entries} {start : Nat} {c : Current}

theorem spaceLeft_ge (hc : c.size < chunkSize - 200) : 184 ≤ spaceLeft c := by
  unfold spaceLeft chunkSize at *
  omega

theorem size_advance (c : Current) (size : Nat) : (c.advance size).size < chunkSize - 200 := by
  unfold Current.advance
  split
  · exact Nat.lt_of_lt_of_eq (by decide : 0 < 261944) rfl
  next hroom => exact Nat.lt_of_not_le hroom

theorem segment_append_drop (start len : Nat) :
    segment entries start len ++ entries.drop (start + len) = entries.drop start := by
  rw [segment, ← List.drop_drop, List.take_append_drop]

/-- Each table is built for the space that is left, from 184 bytes to a whole chunk. -/
def AllAffordable (entries : List Entry) : Prop :=
  ∀ start maxSize, start < entries.length → 184 ≤ maxSize → maxSize ≤ chunkSize - 16 → Affordable entries start maxSize

theorem chunkLoop_covers (hsize : entries.length < 2 ^ 63) (fuel : Nat) (hc : c.size < chunkSize - 200)
    (hafford : AllAffordable entries) (hfuel : entries.length - start < fuel) :
    ∃ chunks, chunkLoop entries (2 * entries.length + 2) fuel c start = some chunks ∧
      (chunks.map fun chunk => segment entries chunk.1 chunk.2).flatten = entries.drop start := by
  induction fuel generalizing c start with
  | zero => omega
  | succ fuel ih =>
    rw [chunkLoop]
    by_cases hstart : start < entries.length
    · have hmin := spaceLeft_ge hc
      have hmax : spaceLeft c ≤ chunkSize - 16 := Nat.sub_le_sub_right (Nat.sub_le _ _) _
      obtain ⟨built, hbuilt, hmany, -, -⟩ := buildTable_returns hsize hmin (Nat.lt_of_le_of_lt hmax (by decide))
        (hafford start _ hstart hmin hmax) hstart
      obtain ⟨chunks, hchunks, hjoined⟩ :=
        ih (size_advance c built.1.length) (by omega : entries.length - (start + built.2) < fuel)
      rw [if_pos hstart, hbuilt, Option.bind_some, hchunks, Option.map_some]
      use (start, built.2) :: chunks, rfl
      rw [List.map_cons, List.flatten_cons, hjoined, segment_append_drop]
    · rw [if_neg hstart]
      use [], rfl
      exact (List.drop_eq_nil_of_le (Nat.le_of_not_lt hstart)).symm

def four : List Entry := [(1, 10), (2, 20), (3, 30), (4, 40)]

/-- Twenty entries far apart, with large values. -/
def spread : List Entry := (List.range 20).map fun i => (0x2000 * (i + 1), 0x400)

end Chunks

end UnwindTable
