import Ubpftrace.LpmTrie
import Ubpftrace.TrieNodes

/-!
# Flags, entries and nodes of the map of longest prefixes

What an update answers is told by the node of its prefix alone. `BPF_NOEXIST` is
refused wherever there is such a node, also when it is a branch or was left by a
delete. `n_entries` counts the nodes with a value, and no node is ever freed: the
trie has one for every prefix it ever stored and for every place where two of
them part. The search for a first key follows the nodes to the left, deleted ones
too, and does not come back.
-/

namespace LpmTrie

open PrefixTrie
open Runs (trace after trace_append after_append)

variable {ds vs : Nat}

/-! ## Shape -/

def Node.size : Node ds vs → Nat
  | .null => 0
  | .node _ _ _ child0 child1 => child0.size + child1.size + 1

def Node.live : Node ds vs → Nat
  | .null => 0
  | .node _ _ value child0 child1 => child0.live + child1.live + if value.isSome then 1 else 0

/-- The prefix of the node is longer than the given one, agrees with it and goes on with the bit. -/
def Node.Under (prefixlen : Nat) (data : Vector UInt8 ds) (bit : Bool) : Node ds vs → Prop
  | .null => True
  | .node prefixlen' data' _ _ _ =>
    prefixlen < prefixlen' ∧ (∀ i < prefixlen, extractBit data' i = extractBit data i) ∧
      extractBit data' prefixlen = bit

/-- Every child strictly extends its parent and hangs on the side of its next bit. -/
def Node.Shaped : Node ds vs → Prop
  | .null => True
  | .node prefixlen data _ child0 child1 =>
    child0.Under prefixlen data false ∧ child1.Under prefixlen data true ∧ child0.Shaped ∧ child1.Shaped

theorem Node.size_abs (t : Node ds vs) : t.abs.size = t.size := by
  induction t with
  | null => rfl
  | node prefixlen data value child0 child1 ih0 ih1 => simp [Node.abs, Trie.size, Node.size, ih0, ih1]

theorem Node.live_abs (t : Node ds vs) : t.abs.live = t.live := by
  induction t with
  | null => rfl
  | node prefixlen data value child0 child1 ih0 ih1 => simp [Node.abs, Trie.live, Node.live, ih0, ih1]

variable {t : Node ds vs} {ctx : List Bool}

theorem Node.under_of_wellFormed {bound prefixlen : Nat} {data : Vector UInt8 ds} {bit : Bool}
    (h : t.abs.WellFormed bound (bits data prefixlen ++ [bit])) : t.Under prefixlen data bit := by
  cases t with
  | null => trivial
  | node prefixlen' data' value child0 child1 =>
    obtain ⟨hpre, hbit⟩ := snoc_prefix_iff.mp h.1
    rw [length_bits] at hbit
    have hlt : prefixlen < prefixlen' := by
      obtain ⟨hlt, -⟩ := List.getElem?_eq_some_iff.mp hbit
      rwa [length_bits] at hlt
    refine ⟨hlt, fun i hi => ?_, ?_⟩
    · have hsame := List.prefix_iff_getElem?.mp hpre i (by rwa [length_bits])
      rw [← getD_bits data' (Nat.lt_trans hi hlt), ← getD_bits data hi, List.getD_eq_getElem?_getD, hsame,
        Option.getD_some, List.getD_eq_getElem]
    · rw [← getD_bits data' hlt, List.getD_eq_getElem?_getD, hbit, Option.getD_some]

theorem Node.shaped_of_wellFormed {bound : Nat} (h : t.abs.WellFormed bound ctx) : t.Shaped := by
  induction t generalizing ctx with
  | null => trivial
  | node prefixlen data value child0 child1 ih0 ih1 =>
    obtain ⟨-, -, h0, h1⟩ := h
    exact ⟨under_of_wellFormed h0, under_of_wellFormed h1, ih0 h0, ih1 h1⟩

/-! ## What an update answers -/

/-- The answer, from the node of the prefix and the number of nodes that are missing:
whether an entry is added. -/
def Request.outcome (r : Request ds vs) (found : Option (Option (Value vs))) (missing : Nat) : Except Errno Bool :=
  match found with
  | some value =>
    if r.flags = BPF_NOEXIST then .error .EEXIST
    else if value.isSome then .ok false
    else if r.flags = BPF_EXIST then .error .ENOENT
    else if r.full then .error .ENOSPC
    else .ok true
  | none =>
    if r.flags = BPF_EXIST then .error .ENOENT
    else if r.full then .error .ENOSPC
    else if r.free < missing then .error .badAlloc
    else .ok true

/-- The number of nodes that storing a prefix adds to the trie. -/
def Node.missing (t : Node ds vs) (key : Key ds) (value : Value vs) : Nat :=
  (t.abs.insert key.bits value).size - t.abs.size

variable (r : Request ds vs)

theorem Request.newEntry_outcome (nodes : Nat) (t : Node ds vs) :
    (r.newEntry nodes t).map Prod.snd = r.outcome none nodes := by
  unfold Request.newEntry Request.outcome
  split_ifs <;> rfl

theorem map_map_snd {α β : Type} (f : α → β) (x : Except Errno (α × Bool)) :
    (x.map fun c => (f c.1, c.2)).map Prod.snd = x.map Prod.snd := by
  cases x <;> rfl

theorem Request.found_outcome (value : Option (Value vs)) (t : Node ds vs) (missing : Nat) :
    (r.found value t).map Prod.snd = r.outcome (some value) missing := by
  unfold Request.found Request.outcome
  cases value with
  | none =>
    simp only [Option.isNone_none, Option.isSome_none, and_true, if_true, Bool.false_eq_true, if_false]
    split_ifs <;> rfl
  | some v =>
    simp only [Option.isNone_some, Option.isSome_some, Bool.false_eq_true, and_false, if_false, if_true]
    split_ifs <;> rfl

theorem Request.update_outcome (hmax : r.key.prefixlen ≤ maxPrefixlen ds)
    (hwf : t.abs.WellFormed (maxPrefixlen ds) ctx) :
    (r.update t).map Prod.snd = r.outcome (t.abs.find r.key.bits) (t.missing r.key r.value) := by
  induction t generalizing ctx with
  | null => exact r.newEntry_outcome 1 r.leaf
  | node prefixlen data value child0 child1 ih0 ih1 =>
    have hnode := hwf
    obtain ⟨-, -, h0, h1⟩ := hwf
    rw [r.update_node hmax, Node.missing]
    simp only [Node.abs, Trie.insert] at hnode ⊢
    by_cases hdown : bits data prefixlen <+: r.key.bits ∧ bits data prefixlen ≠ r.key.bits
    · have hbit := (snoc_prefix_iff.mp (snoc_getD_below hdown.1 hdown.2)).2
      rw [bit_of_goes_on (goes_on_iff.mpr hdown)] at hbit
      rw [if_pos hdown, if_pos hdown, bit_of_goes_on (goes_on_iff.mpr hdown)]
      cases hb : extractBit r.key.data prefixlen with
      | false =>
        rw [if_neg (by simp), map_map_snd fun c => Node.node prefixlen data value c child1, ih0 h0,
          Trie.find_child0 hdown.2.symm (hb ▸ hbit), Node.missing]
        simp only [Trie.size]
        congr 1
        omega
      | true =>
        rw [if_pos rfl, map_map_snd fun c => Node.node prefixlen data value child0 c, ih1 h1,
          Trie.find_child1 hdown.2.symm (hb ▸ hbit), Node.missing]
        simp only [Trie.size]
        congr 1
        omega
    · rw [if_neg hdown, if_neg hdown]
      by_cases heq : bits data prefixlen = r.key.bits
      · rw [if_pos heq, if_pos heq, Trie.find, if_pos heq.symm]
        exact r.found_outcome value _ _
      · have hnone := hnode.find_node_eq_none fun hp => hdown ⟨hp, heq⟩
        rw [if_neg heq, if_neg heq, hnone]
        by_cases hup : r.key.bits <+: bits data prefixlen
        · rw [if_pos hup, if_pos hup, Request.newEntry_outcome, Trie.size_branch]
          simp [Trie.size]
        · rw [if_neg hup, if_neg hup, Request.newEntry_outcome, Trie.size_branch]
          congr 1
          simp only [Trie.size]
          omega

/-- An update that succeeds adds an entry exactly for a prefix without a value, and then
there was room for it. -/
theorem Request.outcome_eq_ok {r : Request ds vs} {found : Option (Option (Value vs))} {missing : Nat} {added : Bool}
    (h : r.outcome found missing = .ok added) : added = found.join.isNone ∧ (added → r.full = false) := by
  rcases found with _ | _ | v
  all_goals
    simp only [Request.outcome] at h
    split_ifs at h
    all_goals
      simp_all

theorem Request.added_of_ok (hmax : r.key.prefixlen ≤ maxPrefixlen ds) (hwf : t.abs.WellFormed (maxPrefixlen ds) ctx)
    {c : Node ds vs × Bool} (h : r.update t = .ok c) :
    c.2 = (t.abs.get r.key.bits).isNone ∧ (c.2 → r.full = false) := by
  have hout := r.update_outcome hmax hwf
  rw [h] at hout
  exact Request.outcome_eq_ok hout.symm

theorem Request.noexist_ok_iff {r : Request ds vs} (hflags : r.flags = BPF_NOEXIST)
    (found : Option (Option (Value vs))) (missing : Nat) :
    (∃ added, r.outcome found missing = .ok added) ↔ found = none ∧ r.full = false ∧ missing ≤ r.free := by
  have hne : ¬ BPF_NOEXIST = BPF_EXIST := by decide
  rcases found with _ | value
  · simp only [Request.outcome, hflags, if_neg hne]
    split_ifs <;> simp_all
  · simp [Request.outcome, hflags]

theorem Request.exist_ok_iff {r : Request ds vs} (hflags : r.flags = BPF_EXIST) (found : Option (Option (Value vs)))
    (missing : Nat) : (∃ added, r.outcome found missing = .ok added) ↔ found.join ≠ none := by
  have hne : ¬ BPF_EXIST = BPF_NOEXIST := by decide
  rcases found with _ | _ | v
  all_goals simp [Request.outcome, hflags, hne]

/-! ## Entries and nodes along a history -/

def inserted (history : List (Call ds vs × Option Errno)) : Finset (List Bool) :=
  (history.filterMap fun e =>
    match e with
    | (.update key _ _ _, none) => some key.bits
    | _ => none).toFinset

section

variable (history : List (Call ds vs × Option Errno))

theorem inserted_updated (key : Key ds) (value : Value vs) (flags : UInt64) (free : Nat) :
    inserted (history ++ [(Call.update key value flags free, none)]) = insert key.bits (inserted history) := by
  rw [inserted, List.filterMap_append, List.toFinset_append, Finset.union_comm, Finset.insert_eq]
  rfl

theorem inserted_other {c : Call ds vs} {e : Option Errno} (h : inserted [(c, e)] = ∅) :
    inserted (history ++ [(c, e)]) = inserted history := by
  rw [inserted, List.filterMap_append, List.toFinset_append]
  exact (congrArg _ h).trans (Finset.union_empty _)

theorem inserted_failed (c : Call ds vs) (e : Errno) :
    inserted (history ++ [(c, some e)]) = inserted history :=
  inserted_other history (by cases c <;> rfl)

theorem inserted_deleted (key : Key ds) (e : Option Errno) :
    inserted (history ++ [(Call.delete key, e)]) = inserted history :=
  inserted_other history (by cases e <;> rfl)

end

/-- The counters of the map, and which prefixes have a node. -/
structure Accounts (maxEntries : Nat) (m : LpmTrieMap ds vs) (history : List (Call ds vs × Option Errno)) : Prop where
  inv : Inv m history
  maxEntries_eq : m.maxEntries = maxEntries
  nEntries_eq : m.nEntries = m.root.abs.live
  nEntries_le : m.nEntries ≤ maxEntries
  prefixes_eq : m.root.abs.prefixes.toFinset = meets (inserted history)

section Steps

variable {maxEntries : Nat} {m : LpmTrieMap ds vs} {history : List (Call ds vs × Option Errno)}

theorem accounts_init (ds vs maxEntries : Nat) : Accounts maxEntries (init ds vs maxEntries) [] :=
  ⟨inv_init ds vs maxEntries, rfl, rfl, Nat.zero_le _, rfl⟩

theorem Accounts.failed (h : Accounts maxEntries m history) (c : Call ds vs) (e : Errno) :
    Accounts maxEntries m (history ++ [(c, some e)]) := by
  refine { h with inv := h.inv.failed c e, prefixes_eq := ?_ }
  rw [inserted_failed]
  exact h.prefixes_eq

theorem Accounts.step (h : Accounts maxEntries m history) (c : Call ds vs) :
    Accounts maxEntries (step m c).2 (history ++ [(c, (step m c).1)]) := by
  have hinv := h.inv.step c
  have hwf := h.inv.wellFormed
  cases c with
  | update key value flags free =>
    simp only [LpmTrie.step, LpmTrieMap.elemUpdate] at hinv ⊢
    split_ifs at hinv ⊢ with hflags hlen
    · exact h.failed _ _
    · exact h.failed _ _
    · have hkey : key.prefixlen ≤ maxPrefixlen ds := by omega
      split at hinv
      · next e he =>
        exact h.failed _ _
      · next root added hok =>
        have hroot : root.abs = m.root.abs.insert key.bits value := Request.abs_update _ hkey hok
        obtain ⟨hadded, hroom⟩ := Request.added_of_ok _ hkey hwf hok
        refine ⟨hinv, h.maxEntries_eq, ?_, ?_, ?_⟩
        · rw [hroot, hwf.live_insert, ← h.nEntries_eq, ← hadded]
          cases added <;> rfl
        · have hle := h.nEntries_le
          cases added with
          | false => exact hle
          | true =>
            have hfull : ¬ m.nEntries ≥ m.maxEntries := of_decide_eq_false (hroom rfl)
            rw [h.maxEntries_eq] at hfull
            exact Nat.lt_of_not_ge hfull
        · rw [hroot, inserted_updated]
          exact Trie.prefixes_insert_meets hwf List.nil_prefix (by simpa using hkey) h.prefixes_eq
  | delete key =>
    simp only [LpmTrie.step, LpmTrieMap.elemDelete] at hinv ⊢
    by_cases hlen : key.prefixlen > maxPrefixlen ds
    · rw [if_pos hlen]
      exact h.failed _ _
    · rw [if_neg hlen] at hinv ⊢
      split at hinv
      · next e he =>
        exact h.failed _ _
      · next root hok =>
        obtain ⟨hroot, v, hv⟩ := abs_deleteLoop hok
        have hlive := hwf.live_erase (k := key.bits) (by rw [Trie.get, hv]; rfl)
        have hn := h.nEntries_eq
        have hle := h.nEntries_le
        refine ⟨hinv, h.maxEntries_eq, ?_, ?_, ?_⟩
        · rw [hroot]
          simp only
          split_ifs <;> omega
        · simp only
          split_ifs <;> omega
        · rw [hroot, Trie.prefixes_erase, inserted_deleted]
          exact h.prefixes_eq

end Steps

theorem accounts_after (ds vs maxEntries : Nat) (calls : List (Call ds vs)) :
    Accounts maxEntries (after step (init ds vs maxEntries) calls) (trace step (init ds vs maxEntries) calls) := by
  induction calls using List.reverseRecOn with
  | nil => exact accounts_init ds vs maxEntries
  | append_singleton calls c ih =>
    rw [trace_append, after_append]
    exact ih.step c

/-! ## The flags -/

/-- There is an entry left, and memory for the nodes the prefix adds. -/
def LpmTrieMap.Room (m : LpmTrieMap ds vs) (key : Key ds) (value : Value vs) (free : Nat) : Prop :=
  m.nEntries < m.maxEntries ∧ m.root.missing key value ≤ free

/-- `BPF_NOEXIST` stores a prefix that is not live, `BPF_EXIST` one that is, and what
fails changes no live prefix, no value and no counter. -/
structure FlagsHonoured (m : LpmTrieMap ds vs) (live : Option (Value vs)) (key : Key ds) (value : Value vs)
    (free : Nat) : Prop where
  noexist : (m.elemUpdate key value BPF_NOEXIST free).1 = none ↔ live = none ∧ m.Room key value free
  exist : (m.elemUpdate key value BPF_EXIST free).1 = none ↔ live ≠ none
  failed : ∀ flags, (m.elemUpdate key value flags free).1 ≠ none →
    (∀ p, (m.elemUpdate key value flags free).2.root.abs.get p = m.root.abs.get p) ∧
      (m.elemUpdate key value flags free).2.nEntries = m.nEntries

/-- The prefix has an intermediate node, or is longer than any the map may hold. -/
def LpmTrieMap.Blocked (m : LpmTrieMap ds vs) (key : Key ds) : Prop :=
  key.prefixlen > maxPrefixlen ds ∨ m.root.abs.find key.bits = some none

section Flags

variable {m : LpmTrieMap ds vs} {key : Key ds} {value : Value vs} {flags : UInt64} {free : Nat}

theorem elemUpdate_failed (h : (m.elemUpdate key value flags free).1 ≠ none) :
    (m.elemUpdate key value flags free).2 = m := by
  unfold LpmTrieMap.elemUpdate at h ⊢
  split_ifs at h ⊢
  · rfl
  · rfl
  · split at h
    · rfl
    · exact absurd rfl h

theorem elemUpdate_too_long (hlen : key.prefixlen > maxPrefixlen ds) :
    (m.elemUpdate key value flags free).1 ≠ none := by
  unfold LpmTrieMap.elemUpdate
  split_ifs <;> simp

section

variable (hwf : m.root.abs.WellFormed (maxPrefixlen ds) [])
include hwf

section

variable (hlen : ¬ key.prefixlen > maxPrefixlen ds)
include hlen

theorem elemUpdate_ok_iff (hflags : ¬ (flags ≠ 0 ∧ flags ≠ BPF_NOEXIST ∧ flags ≠ BPF_EXIST)) :
    (m.elemUpdate key value flags free).1 = none ↔
      ∃ added, Request.outcome ⟨key, value, flags, m.nEntries ≥ m.maxEntries, free⟩ (m.root.abs.find key.bits)
        (m.root.missing key value) = .ok added := by
  have hout := Request.update_outcome ⟨key, value, flags, m.nEntries ≥ m.maxEntries, free⟩ (Nat.le_of_not_gt hlen) hwf
  rw [LpmTrieMap.elemUpdate, if_neg hflags, if_neg hlen, ← hout]
  split
  · next e he => simp [he, Except.map]
  · next root added hok => simp [hok, Except.map]

theorem noexist_iff :
    (m.elemUpdate key value BPF_NOEXIST free).1 = none ↔
      m.root.abs.find key.bits = none ∧ m.Room key value free := by
  rw [elemUpdate_ok_iff hwf hlen (by decide), Request.noexist_ok_iff rfl, LpmTrieMap.Room, decide_eq_false_iff_not,
    Nat.not_le]

theorem exist_iff : (m.elemUpdate key value BPF_EXIST free).1 = none ↔ m.root.abs.get key.bits ≠ none := by
  rw [elemUpdate_ok_iff hwf hlen (by decide), Request.exist_ok_iff rfl]
  rfl

end

theorem not_too_long (hfind : m.root.abs.find key.bits ≠ none) :
    ¬ key.prefixlen > maxPrefixlen ds := by
  have hle := (hwf.of_mem (hwf.mem_prefixes_iff.mpr hfind)).2
  rw [length_keyBits] at hle
  omega

theorem get_too_long (hlen : key.prefixlen > maxPrefixlen ds) :
    m.root.abs.get key.bits = none := by
  have hnone : m.root.abs.find key.bits = none := not_not.mp fun hfind => not_too_long hwf hfind hlen
  rw [Trie.get, hnone]
  rfl

end

end Flags

/-- What an update leaves that gives an intermediate node a value and fails in `data.resize`: the
flag is cleared before the exception, and the counter is behind it. The place of the value is
not in the vector. Without memory for new nodes no other update adds an entry. -/
def LpmTrieMap.halfRevived (m : LpmTrieMap ds vs) (key : Key ds) (stale : Value vs) : LpmTrieMap ds vs :=
  if key.prefixlen > maxPrefixlen ds then m
  else
    match Request.update ⟨key, stale, 0, m.nEntries ≥ m.maxEntries, 0⟩ m.root with
    | .ok (root, true) => { m with root := root }
    | _ => m

/-- The prefix has an intermediate node, and there is an entry left for it. -/
def LpmTrieMap.Revives (m : LpmTrieMap ds vs) (key : Key ds) : Prop :=
  m.root.abs.find key.bits = some none ∧ m.nEntries < m.maxEntries

theorem Node.missing_pos {key : Key ds} (value : Value vs) (hkey : key.prefixlen ≤ maxPrefixlen ds)
    (hwf : t.abs.WellFormed (maxPrefixlen ds) []) (hnone : t.abs.find key.bits = none) : 0 < t.missing key value := by
  have hinsert := hwf.insert List.nil_prefix (k := key.bits) (by simpa using hkey) value
  obtain ⟨hself, hsubset⟩ := Trie.subset_prefixes_insert key.bits value t.abs
  have hnew : key.bits ∉ t.abs.prefixes.toFinset := by
    rw [List.mem_toFinset, hwf.mem_prefixes_iff, not_not]
    exact hnone
  have hlt : t.abs.prefixes.toFinset ⊂ (t.abs.insert key.bits value).prefixes.toFinset := by
    refine Finset.ssubset_iff_subset_ne.mpr ⟨fun p hp => ?_, fun heq => hnew (heq ▸ List.mem_toFinset.mpr hself)⟩
    exact List.mem_toFinset.mpr (hsubset (List.mem_toFinset.mp hp))
  have hcard := Finset.card_lt_card hlt
  rw [← hwf.size_eq_card, ← hinsert.size_eq_card] at hcard
  exact Nat.sub_pos_of_lt hcard

/-- The update succeeds and adds an entry, without memory for a node, just if the prefix has an
intermediate node. -/
theorem Request.adds_iff {key : Key ds} (stale : Value vs) (full : Bool) (hkey : key.prefixlen ≤ maxPrefixlen ds)
    (hwf : t.abs.WellFormed (maxPrefixlen ds) []) :
    (∃ root, Request.update ⟨key, stale, 0, full, 0⟩ t = .ok (root, true)) ↔
      t.abs.find key.bits = some none ∧ full = false := by
  have hout := Request.update_outcome ⟨key, stale, 0, full, 0⟩ hkey hwf
  have hzero : (0 : UInt64) ≠ BPF_EXIST ∧ (0 : UInt64) ≠ BPF_NOEXIST := by decide
  have hok : (∃ root, Request.update ⟨key, stale, 0, full, 0⟩ t = .ok (root, true)) ↔
      (Request.update ⟨key, stale, 0, full, 0⟩ t).map Prod.snd = .ok true := by
    rcases Request.update ⟨key, stale, 0, full, 0⟩ t with e | ⟨root, added⟩ <;> simp [Except.map]
  rw [hok, hout]
  rcases hfind : t.abs.find key.bits with _ | _ | v
  · have hpos := Node.missing_pos stale hkey hwf hfind
    simp only [Request.outcome, if_neg hzero.1, if_pos hpos]
    split_ifs <;> simp
  · simp only [Request.outcome, if_neg hzero.1, if_neg hzero.2]
    cases full <;> simp
  · simp [Request.outcome, if_neg hzero.2]

theorem Accounts.halfRevived {maxEntries : Nat} {m : LpmTrieMap ds vs} {history : List (Call ds vs × Option Errno)}
    (h : Accounts maxEntries m history) (key : Key ds) (stale : Value vs) :
    (m.halfRevived key stale).root.abs.WellFormed (maxPrefixlen ds) [] ∧
      (m.halfRevived key stale).nEntries = m.nEntries ∧
      ((m.halfRevived key stale).root.abs.live = m.nEntries ↔ ¬ m.Revives key) := by
  have hwf := h.inv.wellFormed
  by_cases hlen : key.prefixlen > maxPrefixlen ds
  · have hnot : ¬ m.Revives key := fun hrevives => not_too_long hwf (by simp [hrevives.1]) hlen
    rw [LpmTrieMap.halfRevived, if_pos hlen]
    exact ⟨hwf, rfl, iff_of_true h.nEntries_eq.symm hnot⟩
  · have hkey := Nat.le_of_not_gt hlen
    have hroom : decide (m.nEntries ≥ m.maxEntries) = false ↔ m.nEntries < m.maxEntries := by simp
    have hadds := Request.adds_iff stale (m.nEntries ≥ m.maxEntries) hkey hwf
    rw [hroom] at hadds
    by_cases hrevives : m.Revives key
    · obtain ⟨root, hroot⟩ := hadds.mpr hrevives
      have hnew : m.halfRevived key stale = { m with root := root } := by
        rw [LpmTrieMap.halfRevived, if_neg hlen, hroot]
      have habs : root.abs = m.root.abs.insert key.bits stale := Request.abs_update _ hkey hroot
      have hget : m.root.abs.get key.bits = none := by rw [Trie.get, hrevives.1]; rfl
      rw [hnew, habs, hwf.live_insert, hget, h.nEntries_eq]
      exact ⟨hwf.insert List.nil_prefix (by simpa using hkey) stale, rfl, by simp [hrevives]⟩
    · have hsame : m.halfRevived key stale = m := by
        rw [LpmTrieMap.halfRevived, if_neg hlen]
        split
        · next root hroot => exact absurd (hadds.mp ⟨root, hroot⟩) hrevives
        · rfl
      rw [hsame]
      exact ⟨hwf, rfl, iff_of_true h.nEntries_eq.symm hrevives⟩

/-- After any updates and deletes every child extends its parent on the side of its next bit,
and `n_entries` counts the nodes with a value and keeps to the maximum. An update that fails in
`data.resize` keeps the shape and the maximum, but not the count. -/
theorem lpm_trie_shape (ds vs maxEntries : Nat) (calls : List (Call ds vs)) :
    let m := after step (init ds vs maxEntries) calls
    (m.root.Shaped ∧ m.nEntries = m.root.live ∧ m.nEntries ≤ maxEntries) ∧
      ∀ key stale, (m.halfRevived key stale).root.Shaped ∧ (m.halfRevived key stale).nEntries ≤ maxEntries ∧
        ((m.halfRevived key stale).nEntries = (m.halfRevived key stale).root.live ↔ ¬ m.Revives key) := by
  intro m
  have h : Accounts maxEntries m _ := accounts_after ds vs maxEntries calls
  refine ⟨⟨Node.shaped_of_wellFormed h.inv.wellFormed, ?_, h.nEntries_le⟩, fun key stale => ?_⟩
  · rw [h.nEntries_eq, Node.live_abs]
  · obtain ⟨hwf, hentries, hlive⟩ := h.halfRevived key stale
    refine ⟨Node.shaped_of_wellFormed hwf, hentries ▸ h.nEntries_le, ?_⟩
    rw [hentries, ← Node.live_abs, eq_comm]
    exact hlive

/-- Two prefixes that part at the first bit, and no memory for the value of the empty prefix. -/
theorem revived_node_not_counted :
    let m := (after step (init 1 1 4) [.update ⟨8, #v[0]⟩ #v[1] 0 8, .update ⟨8, #v[128]⟩ #v[1] 0 8]).halfRevived
      ⟨0, #v[0]⟩ #v[0]
    m.nEntries = 2 ∧ m.root.live = 3 := by
  decide

/-! ## Memory -/

/-- The trie has a node for every prefix it ever stored and for every place where two of
them part; so it keeps to twice its entries exactly as long as there are no more of them. -/
theorem allocated_nodes_iff (ds vs maxEntries : Nat) (calls : List (Call ds vs)) :
    (after step (init ds vs maxEntries) calls).root.size ≤ 2 * maxEntries ↔
      (meets (inserted (trace step (init ds vs maxEntries) calls))).card ≤ 2 * maxEntries := by
  have h := accounts_after ds vs maxEntries calls
  rw [← Node.size_abs, h.inv.wellFormed.size_eq_card, h.prefixes_eq]

/-- A map of one entry with two deleted prefixes and a third one. -/
theorem deleted_nodes_stay :
    let calls : List (Call 1 1) :=
      [.update ⟨8, #v[0]⟩ #v[1] 0 8, .delete ⟨8, #v[0]⟩, .update ⟨8, #v[1]⟩ #v[1] 0 8, .delete ⟨8, #v[1]⟩,
        .update ⟨8, #v[2]⟩ #v[1] 0 8]
    (after step (init 1 1 1) calls).nEntries = 1 ∧ (after step (init 1 1 1) calls).root.size = 5 := by
  decide

/-! ## The first key -/

theorem firstKey_abs (t : Node ds vs) : (firstKey t).map Key.bits = t.abs.firstLive := by
  induction t with
  | null => rfl
  | node prefixlen data value child0 child1 ih0 ih1 =>
    rw [Node.abs]
    cases child0 with
    | null =>
      rw [Node.abs, Trie.firstLive_node, Trie.leftBit, if_pos rfl, firstKey, ← ih1]
      split_ifs <;> rfl
    | node =>
      rw [Trie.firstLive_node, Node.abs, Trie.leftBit, if_neg Bool.false_ne_true, ← Node.abs, ← ih0]
      change Option.map Key.bits (if value.isSome then _ else _) = _
      split_ifs <;> rfl

theorem mapGetNextKey_none_iff (m : LpmTrieMap ds vs) (key : Key ds) :
    m.mapGetNextKey none false = .ok key ↔ firstKey m.root = some key := by
  cases hroot : m.root with
  | null => simp [LpmTrieMap.mapGetNextKey, hroot, firstKey]
  | node =>
    simp only [LpmTrieMap.mapGetNextKey, hroot, Bool.false_eq_true, if_false]
    cases firstKey _ <;> simp

end LpmTrie
