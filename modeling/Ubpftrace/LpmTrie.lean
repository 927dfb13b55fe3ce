import Ubpftrace.PrefixTrie
import Ubpftrace.Runs

/-!
# The map of longest prefixes

`lpm_trie_map.cpp`: `BPF_MAP_TYPE_LPM_TRIE` as a path-compressed trie in shared
memory. A deleted prefix stays in the trie as an intermediate node. The search
goes past the intermediate nodes, except for one: a node of the full length ends
it, with or without a value.
-/

namespace LpmTrie

open PrefixTrie
open Runs (trace after trace_append after_append lastAction lastAction_concat)

variable {ds vs : Nat}

/-- `bpf_lpm_trie_key`; the data has `ds` bytes. -/
structure Key (ds : Nat) where
  prefixlen : Nat
  data : Vector UInt8 ds
  deriving DecidableEq

abbrev Value (vs : Nat) := Vector UInt8 vs

/-- `lpm_trie_node` behind a pointer. A node without a value is intermediate. -/
inductive Node (ds vs : Nat) where
  | null
  | node (prefixlen : Nat) (data : Vector UInt8 ds) (value : Option (Value vs)) (child0 child1 : Node ds vs)

/-- How a call fails: with an error, or with the exception `bad_alloc`, since `construct` throws
and never gives the null pointer that `ENOMEM` is for. -/
inductive Errno where
  | ENOENT
  | badAlloc
  | EEXIST
  | EINVAL
  | ENOSPC
  deriving DecidableEq

abbrev BPF_NOEXIST : UInt64 := 1
abbrev BPF_EXIST : UInt64 := 2

def extractBit (data : Vector UInt8 ds) (index : Nat) : Bool :=
  if index ≥ ds * 8 then false
  else data.toList.getD (index / 8) 0 >>> UInt8.ofNat (7 - index % 8) &&& 1 = 1

/-- The loop of `longest_prefix_match`, for as many bits as both prefixes have. -/
def matchLoop (nodeData keyData : Nat → Bool) : Nat → Nat → Nat
  | 0, matched => matched
  | left + 1, matched =>
    if nodeData matched ≠ keyData matched then matched else matchLoop nodeData keyData left (matched + 1)

def longestPrefixMatch (prefixlen : Nat) (data : Vector UInt8 ds) (key : Key ds) : Nat :=
  matchLoop (extractBit data) (extractBit key.data) (min prefixlen key.prefixlen) 0

def maxPrefixlen (ds : Nat) : Nat := ds * 8

structure LpmTrieMap (ds vs : Nat) where
  maxEntries : Nat
  root : Node ds vs
  nEntries : Nat

def init (ds vs maxEntries : Nat) : LpmTrieMap ds vs := ⟨maxEntries, .null, 0⟩

/-- `found` is the value field of the node the search has got to. -/
def lookupLoop (key : Key ds) : Node ds vs → Option (Option (Value vs)) → Option (Option (Value vs))
  | .null, found => found
  | .node prefixlen data value child0 child1, found =>
    let matchlen := longestPrefixMatch prefixlen data key
    if matchlen = maxPrefixlen ds then some value
    else if matchlen < prefixlen then found
    else
      let found := if value.isSome then some value else found
      if matchlen < key.prefixlen then
        match extractBit key.data prefixlen with
        | false => lookupLoop key child0 found
        | true => lookupLoop key child1 found
      else found

def LpmTrieMap.elemLookup (m : LpmTrieMap ds vs) (key : Key ds) : Except Errno (Value vs) :=
  if key.prefixlen > maxPrefixlen ds then .error .EINVAL
  else
    match lookupLoop key m.root none with
    | none => .error .ENOENT
    | some none => .error .ENOENT
    | some (some value) => .ok value

/-- What an update is given: the flags, whether all entries are taken, and how many
nodes the segment has room for. -/
structure Request (ds vs : Nat) where
  key : Key ds
  value : Value vs
  flags : UInt64
  full : Bool
  free : Nat

namespace Request

/-- The checks before a new entry that needs so many new nodes. -/
def newEntry (r : Request ds vs) (nodes : Nat) (t : Node ds vs) : Except Errno (Node ds vs × Bool) :=
  if r.flags = BPF_EXIST then .error .ENOENT
  else if r.full then .error .ENOSPC
  else if r.free < nodes then .error .badAlloc
  else .ok (t, true)

def leaf (r : Request ds vs) : Node ds vs := .node r.key.prefixlen r.key.data (some r.value) .null .null

/-- The new node and the old one under an intermediate node. -/
def split (r : Request ds vs) (matchlen : Nat) (old : Node ds vs) : Node ds vs :=
  if extractBit r.key.data matchlen then .node matchlen r.key.data none old r.leaf
  else .node matchlen r.key.data none r.leaf old

def ancestor (r : Request ds vs) (nextBit : Bool) (old : Node ds vs) : Node ds vs :=
  if nextBit then .node r.key.prefixlen r.key.data (some r.value) .null old
  else .node r.key.prefixlen r.key.data (some r.value) old .null

/-- The walk to the slot and the four cases there; the new slot and whether an
entry is added. -/
def update (r : Request ds vs) : Node ds vs → Except Errno (Node ds vs × Bool)
  | .null => r.newEntry 1 r.leaf
  | .node prefixlen data value child0 child1 =>
    let matchlen := longestPrefixMatch prefixlen data r.key
    let old := Node.node prefixlen data value child0 child1
    if prefixlen ≠ matchlen ∨ prefixlen = r.key.prefixlen ∨ prefixlen = maxPrefixlen ds then
      if prefixlen = r.key.prefixlen then
        if matchlen = r.key.prefixlen then
          if r.flags = BPF_NOEXIST then .error .EEXIST
          else if r.flags = BPF_EXIST ∧ value.isNone then .error .ENOENT
          else if value.isNone then
            if r.full then .error .ENOSPC else .ok (.node prefixlen data (some r.value) child0 child1, true)
          else .ok (.node prefixlen data (some r.value) child0 child1, false)
        else r.newEntry 2 (r.split matchlen old)
      else if matchlen = r.key.prefixlen then r.newEntry 1 (r.ancestor (extractBit data matchlen) old)
      else r.newEntry 2 (r.split matchlen old)
    else
      match extractBit r.key.data prefixlen with
      | false => (update r child0).map fun c => (.node prefixlen data value c.1 child1, c.2)
      | true => (update r child1).map fun c => (.node prefixlen data value child0 c.1, c.2)

end Request

/-- An error and no change, or the new map. -/
def LpmTrieMap.elemUpdate (m : LpmTrieMap ds vs) (key : Key ds) (value : Value vs) (flags : UInt64) (free : Nat) :
    Option Errno × LpmTrieMap ds vs :=
  if flags ≠ 0 ∧ flags ≠ BPF_NOEXIST ∧ flags ≠ BPF_EXIST then (some .EINVAL, m)
  else if key.prefixlen > maxPrefixlen ds then (some .EINVAL, m)
  else
    match Request.update ⟨key, value, flags, m.nEntries ≥ m.maxEntries, free⟩ m.root with
    | .error e => (some e, m)
    | .ok (root, added) => (none, { m with root := root, nEntries := m.nEntries + if added then 1 else 0 })

def deleteLoop (key : Key ds) : Node ds vs → Except Errno (Node ds vs)
  | .null => .error .ENOENT
  | .node prefixlen data value child0 child1 =>
    let matchlen := longestPrefixMatch prefixlen data key
    if prefixlen ≠ matchlen ∨ prefixlen = key.prefixlen then
      if prefixlen ≠ key.prefixlen ∨ matchlen ≠ prefixlen ∨ value.isNone then .error .ENOENT
      else .ok (.node prefixlen data none child0 child1)
    else
      match extractBit key.data prefixlen with
      | false => (deleteLoop key child0).map fun c => .node prefixlen data value c child1
      | true => (deleteLoop key child1).map fun c => .node prefixlen data value child0 c

def LpmTrieMap.elemDelete (m : LpmTrieMap ds vs) (key : Key ds) : Option Errno × LpmTrieMap ds vs :=
  if key.prefixlen > maxPrefixlen ds then (some .EINVAL, m)
  else
    match deleteLoop key m.root with
    | .error e => (some e, m)
    | .ok root => (none, { m with root := root, nEntries := if m.nEntries > 0 then m.nEntries - 1 else m.nEntries })

/-- The walk of `map_get_next_key` to the first node with a value: to the left wherever
there is a left child. -/
def firstKey : Node ds vs → Option (Key ds)
  | .null => none
  | .node prefixlen data value child0 child1 =>
    if value.isSome then some ⟨prefixlen, data⟩
    else
      match child0 with
      | .null => firstKey child1
      | child0 => firstKey child0

/-- What is written to `next_key`, which may be a null pointer. -/
def LpmTrieMap.mapGetNextKey (m : LpmTrieMap ds vs) (key : Option (Key ds)) (nextKeyIsNull : Bool) :
    Except Errno (Key ds) :=
  if nextKeyIsNull then .error .EINVAL
  else
    match m.root, key with
    | .null, _ => .error .ENOENT
    | root, none =>
      match firstKey root with
      | some next => .ok next
      | none => .error .ENOENT
    | _, some _ => .error .ENOENT

inductive Call (ds vs : Nat) where
  | update (key : Key ds) (value : Value vs) (flags : UInt64) (free : Nat)
  | delete (key : Key ds)
  deriving DecidableEq

def step (m : LpmTrieMap ds vs) : Call ds vs → Option Errno × LpmTrieMap ds vs
  | .update key value flags free => m.elemUpdate key value flags free
  | .delete key => m.elemDelete key

/-! ## The trie of bit strings -/

def bitsFrom (data : Nat → Bool) (start n : Nat) : List Bool := (List.range n).map fun i => data (start + i)

def bits (data : Vector UInt8 ds) (n : Nat) : List Bool := bitsFrom (extractBit data) 0 n

/-- The prefix a key stands for. -/
def Key.bits (key : Key ds) : List Bool := LpmTrie.bits key.data key.prefixlen

def Node.abs : Node ds vs → Trie (Value vs)
  | .null => .nil
  | .node prefixlen data value child0 child1 => .node (bits data prefixlen) value child0.abs child1.abs

theorem bitsFrom_succ (data : Nat → Bool) (start n : Nat) :
    bitsFrom data start (n + 1) = data start :: bitsFrom data (start + 1) n := by
  simp [bitsFrom, List.range_succ_eq_map, Function.comp_def, Nat.add_assoc, Nat.add_comm 1]

theorem matchLoop_eq (f g : Nat → Bool) (a b m : Nat) :
    matchLoop f g (min a b) m = m + common (bitsFrom f m a) (bitsFrom g m b) := by
  induction a generalizing b m with
  | zero => simp [matchLoop, bitsFrom, common]
  | succ a ih =>
    cases b with
    | zero => simp [matchLoop, bitsFrom, common]
    | succ b =>
      rw [Nat.add_min_add_right, matchLoop, bitsFrom_succ, bitsFrom_succ, common, ih]
      by_cases h : f m = g m
      · simp only [h, ne_eq, not_true_eq_false, if_false, if_true]
        omega
      · simp [h]

theorem longestPrefixMatch_eq (prefixlen : Nat) (data : Vector UInt8 ds) (key : Key ds) :
    longestPrefixMatch prefixlen data key = common (bits data prefixlen) key.bits := by
  rw [longestPrefixMatch, matchLoop_eq, Nat.zero_add]
  rfl

variable (data : Vector UInt8 ds)

@[simp] theorem length_bits (n : Nat) : (bits data n).length = n := by
  simp [bits, bitsFrom]

@[simp] theorem length_keyBits (key : Key ds) : key.bits.length = key.prefixlen := length_bits _ _

theorem getD_bits {i n : Nat} (h : i < n) : (bits data n).getD i false = extractBit data i := by
  simp [bits, bitsFrom, List.getD_eq_getElem?_getD, h]

theorem take_bits {m n : Nat} (h : m ≤ n) : (bits data n).take m = bits data m := by
  simp [bits, bitsFrom, ← List.map_take, List.take_range, Nat.min_eq_left h]

theorem map_eq_ok {α β : Type} {f : α → β} {x : Except Errno α} {b : β} (h : x.map f = .ok b) :
    ∃ a, x = .ok a ∧ b = f a := by
  cases x with
  | error e => cases h
  | ok a => exact ⟨a, rfl, (Except.ok.inj h).symm⟩

section Walks

variable {prefixlen : Nat} {data : Vector UInt8 ds} {value : Option (Value vs)} {child0 child1 t t' : Node ds vs}
  {key : Key ds} {c : Node ds vs × Bool}

/-- The walks go on exactly below a node that is a proper prefix of the key. -/
theorem goes_on_iff : prefixlen = longestPrefixMatch prefixlen data key ∧ prefixlen ≠ key.prefixlen ↔
    bits data prefixlen <+: key.bits ∧ bits data prefixlen ≠ key.bits := by
  rw [longestPrefixMatch_eq, ← common_eq_left_iff, length_bits, eq_comm]
  refine and_congr_right fun hpre => not_congr ?_
  constructor
  · intro hlen
    exact ((common_eq_left_iff _ _).mp (by rw [hpre, length_bits])).eq_of_length (by simpa using hlen)
  · intro heq
    simpa using congrArg List.length heq

theorem bit_of_goes_on (h : prefixlen = longestPrefixMatch prefixlen data key ∧ prefixlen ≠ key.prefixlen) :
    key.bits.getD (bits data prefixlen).length false = extractBit key.data prefixlen := by
  have hle := common_le_right (bits data prefixlen) key.bits
  rw [← longestPrefixMatch_eq, ← h.1, length_keyBits] at hle
  rw [length_bits]
  exact getD_bits _ (lt_of_le_of_ne hle h.2)

theorem exact_iff : prefixlen = key.prefixlen ∧ longestPrefixMatch prefixlen data key = key.prefixlen ↔
    bits data prefixlen = key.bits := by
  rw [longestPrefixMatch_eq]
  constructor
  · rintro ⟨hlen, hmatch⟩
    have hpre : key.bits <+: bits data prefixlen := (common_eq_right_iff _ _).mp (by rw [hmatch, length_keyBits])
    exact (hpre.eq_of_length (by simpa using hlen.symm)).symm
  · intro heq
    have hlen : prefixlen = key.prefixlen := by simpa using congrArg List.length heq
    have hself : common key.bits key.bits = key.bits.length := (common_eq_left_iff _ _).mpr List.prefix_rfl
    rw [heq, hself, length_keyBits]
    exact ⟨hlen, rfl⟩

theorem Request.newEntry_eq_ok {r : Request ds vs} {nodes : Nat} (h : r.newEntry nodes t = .ok c) : c.1 = t := by
  unfold Request.newEntry at h
  split_ifs at h
  cases h
  rfl

variable (r : Request ds vs)

theorem Request.abs_split (prefixlen : Nat) (data : Vector UInt8 ds) (old : Node ds vs)
    (hlt : common (bits data prefixlen) r.key.bits < r.key.prefixlen) :
    (r.split (longestPrefixMatch prefixlen data r.key) old).abs =
      Trie.branch (r.key.bits.take (common (bits data prefixlen) r.key.bits)) none
        (r.key.bits.getD (common (bits data prefixlen) r.key.bits) false) (.node r.key.bits (some r.value) .nil .nil)
        old.abs := by
  have hbit : r.key.bits.getD (common (bits data prefixlen) r.key.bits) false =
      extractBit r.key.data (common (bits data prefixlen) r.key.bits) := getD_bits _ hlt
  have htake : r.key.bits.take (common (bits data prefixlen) r.key.bits) =
      bits r.key.data (common (bits data prefixlen) r.key.bits) := take_bits _ (Nat.le_of_lt hlt)
  rw [Request.split, Trie.branch, longestPrefixMatch_eq, hbit, htake]
  split
  · rfl
  · rfl

theorem Request.abs_ancestor (nextBit : Bool) (old : Node ds vs) :
    (r.ancestor nextBit old).abs = Trie.branch r.key.bits (some r.value) nextBit old.abs .nil := by
  rw [Request.ancestor, Trie.branch]
  split
  · rfl
  · rfl

/-- The answer at the node of the prefix, which is replaced by `t`. -/
def Request.found (value : Option (Value vs)) (t : Node ds vs) : Except Errno (Node ds vs × Bool) :=
  if r.flags = BPF_NOEXIST then .error .EEXIST
  else if r.flags = BPF_EXIST ∧ value.isNone then .error .ENOENT
  else if value.isNone then if r.full then .error .ENOSPC else .ok (t, true)
  else .ok (t, false)

/-- An update at a node: it goes on below a proper prefix of the key, or ends in one of
the three other relations between two prefixes. -/
theorem Request.update_node (hmax : r.key.prefixlen ≤ maxPrefixlen ds) :
    r.update (.node prefixlen data value child0 child1) =
      if bits data prefixlen <+: r.key.bits ∧ bits data prefixlen ≠ r.key.bits then
        if extractBit r.key.data prefixlen then
          (r.update child1).map fun c => (.node prefixlen data value child0 c.1, c.2)
        else (r.update child0).map fun c => (.node prefixlen data value c.1 child1, c.2)
      else if bits data prefixlen = r.key.bits then
        r.found value (.node prefixlen data (some r.value) child0 child1)
      else if r.key.bits <+: bits data prefixlen then
        r.newEntry 1 (r.ancestor (extractBit data r.key.prefixlen) (.node prefixlen data value child0 child1))
      else
        r.newEntry 2
          (r.split (longestPrefixMatch prefixlen data r.key) (.node prefixlen data value child0 child1)) := by
  have hright := common_le_right (bits data prefixlen) r.key.bits
  rw [length_keyBits] at hright
  have hstop : (prefixlen ≠ longestPrefixMatch prefixlen data r.key ∨ prefixlen = r.key.prefixlen ∨
      prefixlen = maxPrefixlen ds) ↔ ¬ (bits data prefixlen <+: r.key.bits ∧ bits data prefixlen ≠ r.key.bits) := by
    rw [← goes_on_iff, longestPrefixMatch_eq]
    omega
  simp only [Request.update, hstop]
  by_cases hdown : bits data prefixlen <+: r.key.bits ∧ bits data prefixlen ≠ r.key.bits
  · rw [if_neg (not_not.mpr hdown), if_pos hdown]
    cases extractBit r.key.data prefixlen <;> rfl
  · rw [if_pos hdown, if_neg hdown]
    by_cases heq : bits data prefixlen = r.key.bits
    · obtain ⟨hlen, hexact⟩ := exact_iff.mpr heq
      rw [if_pos hlen, if_pos hexact, if_pos heq, Request.found]
    · rw [if_neg heq]
      by_cases hup : r.key.bits <+: bits data prefixlen
      · have hmatch : longestPrefixMatch prefixlen data r.key = r.key.prefixlen := by
          rw [longestPrefixMatch_eq, (common_eq_right_iff _ _).mpr hup, length_keyBits]
        have hlen : prefixlen ≠ r.key.prefixlen := fun hlen => heq (exact_iff.mp ⟨hlen, hmatch⟩)
        rw [if_neg hlen, if_pos hmatch, if_pos hup, hmatch]
      · have hmatch : longestPrefixMatch prefixlen data r.key ≠ r.key.prefixlen := by
          rw [longestPrefixMatch_eq, ← length_keyBits]
          exact fun he => hup ((common_eq_right_iff _ _).mp he)
        rw [if_neg hmatch, if_neg hmatch, ite_self, if_neg hup]

theorem Request.abs_update (hmax : r.key.prefixlen ≤ maxPrefixlen ds) (h : r.update t = .ok c) :
    c.1.abs = t.abs.insert r.key.bits r.value := by
  induction t generalizing c with
  | null =>
    rw [Request.newEntry_eq_ok h]
    rfl
  | node prefixlen data value child0 child1 ih0 ih1 =>
    rw [r.update_node hmax] at h
    simp only [Node.abs, Trie.insert]
    by_cases hdown : bits data prefixlen <+: r.key.bits ∧ bits data prefixlen ≠ r.key.bits
    · rw [if_pos hdown] at h
      rw [if_pos hdown, bit_of_goes_on (goes_on_iff.mpr hdown)]
      split at h
      · next hb =>
        obtain ⟨c', hc', rfl⟩ := map_eq_ok h
        simp only [Node.abs, ih1 hc', hb]
      · next hb =>
        obtain ⟨c', hc', rfl⟩ := map_eq_ok h
        simp only [Node.abs, ih0 hc', hb]
    · rw [if_neg hdown] at h
      rw [if_neg hdown]
      by_cases heq : bits data prefixlen = r.key.bits
      · rw [if_pos heq]
        rw [if_pos heq, Request.found] at h
        split_ifs at h
        all_goals
          cases h
          rfl
      · rw [if_neg heq] at h
        rw [if_neg heq]
        by_cases hup : r.key.bits <+: bits data prefixlen
        · have hlt : r.key.prefixlen < prefixlen := by
            have hle := hup.length_le
            rw [length_bits, length_keyBits] at hle
            exact lt_of_le_of_ne hle fun he => heq (hup.eq_of_length (by simpa using he)).symm
          rw [if_pos hup] at h
          rw [if_pos hup, Request.newEntry_eq_ok h, Request.abs_ancestor, length_keyBits, getD_bits _ hlt]
          rfl
        · have hle := common_le_right (bits data prefixlen) r.key.bits
          have hne : common (bits data prefixlen) r.key.bits ≠ r.key.bits.length := fun he =>
            hup ((common_eq_right_iff _ _).mp he)
          rw [length_keyBits] at hle hne
          rw [if_neg hup] at h
          rw [if_neg hup, Request.newEntry_eq_ok h, Request.abs_split r prefixlen data _ (lt_of_le_of_ne hle hne)]
          rfl

theorem abs_deleteLoop (h : deleteLoop key t = .ok t') :
    t'.abs = t.abs.erase key.bits ∧ ∃ v, t.abs.find key.bits = some (some v) := by
  induction t generalizing t' with
  | null => cases h
  | node prefixlen data value child0 child1 ih0 ih1 =>
    have hstop : (prefixlen ≠ longestPrefixMatch prefixlen data key ∨ prefixlen = key.prefixlen) ↔
        ¬ (bits data prefixlen <+: key.bits ∧ bits data prefixlen ≠ key.bits) := by
      rw [← goes_on_iff]
      tauto
    simp only [deleteLoop, hstop] at h
    simp only [Node.abs, Trie.erase]
    by_cases hdown : bits data prefixlen <+: key.bits ∧ bits data prefixlen ≠ key.bits
    · rw [if_neg (not_not.mpr hdown)] at h
      have hbit := (snoc_prefix_iff.mp (snoc_getD_below hdown.1 hdown.2)).2
      rw [if_pos hdown, bit_of_goes_on (goes_on_iff.mpr hdown)]
      rw [bit_of_goes_on (goes_on_iff.mpr hdown)] at hbit
      cases hb : extractBit key.data prefixlen with
      | false =>
        rw [hb] at h hbit
        obtain ⟨c, hc, rfl⟩ := map_eq_ok h
        obtain ⟨habs, hfind⟩ := ih0 hc
        rw [Trie.find_child0 hdown.2.symm hbit]
        exact ⟨by rw [Node.abs, habs], hfind⟩
      | true =>
        rw [hb] at h hbit
        obtain ⟨c, hc, rfl⟩ := map_eq_ok h
        obtain ⟨habs, hfind⟩ := ih1 hc
        rw [Trie.find_child1 hdown.2.symm hbit]
        exact ⟨by rw [Node.abs, habs], hfind⟩
    · split_ifs at h with hno
      cases h
      simp only [not_or, not_not] at hno
      obtain ⟨hlen, hmatch, hlive⟩ := hno
      have heq := exact_iff.mp ⟨hlen, hmatch.trans hlen⟩
      rw [Option.isNone_iff_eq_none] at hlive
      obtain ⟨v, rfl⟩ := Option.ne_none_iff_exists'.mp hlive
      rw [if_neg hdown, if_pos heq]
      exact ⟨rfl, v, by simp [Trie.find, heq]⟩

/-- The search returns the longest known prefix, or what it had before; a node of
the full length without a value hides both. -/
theorem join_lookupLoop (ctx : List Bool) (hwf : t.abs.WellFormed (maxPrefixlen ds) ctx) (hctx : ctx <+: key.bits)
    (hmax : key.prefixlen ≤ maxPrefixlen ds) (found : Option (Option (Value vs))) :
    (lookupLoop key t found).join =
      if key.prefixlen = maxPrefixlen ds ∧ t.abs.find key.bits = some none then none
      else (longest t.abs.get key.bits).or found.join := by
  induction t generalizing ctx found with
  | null =>
    have hnone : longest (Trie.nil : Trie (Value vs)).get key.bits = none := longestUpTo_eq_none fun _ _ => rfl
    simp [lookupLoop, Node.abs, Trie.find, hnone]
  | node prefixlen data value child0 child1 ih0 ih1 =>
    have hleft := common_le_left (bits data prefixlen) key.bits
    have hright := common_le_right (bits data prefixlen) key.bits
    rw [← longestPrefixMatch_eq, length_bits] at hleft
    rw [← longestPrefixMatch_eq, length_keyBits] at hright
    have hlen : prefixlen ≤ maxPrefixlen ds := by simpa using hwf.2.1
    rw [Node.abs] at hwf ⊢
    rw [lookupLoop]
    by_cases heq : bits data prefixlen = key.bits
    · -- the node of the query itself: nothing below it is a prefix of the query
      obtain ⟨rfl, hmatch⟩ := exact_iff.mpr heq
      have hlongest :
        longest (Trie.node (bits data key.prefixlen) value child0.abs child1.abs).get key.bits = value := by
        rw [← heq]
        exact hwf.longest_self
      have hfind : (Trie.node (bits data key.prefixlen) value child0.abs child1.abs).find key.bits = some value := by
        simp [Trie.find, heq]
      simp only [hmatch, lt_irrefl, if_false, hlongest, hfind, Option.some_inj]
      cases value with
      | none => by_cases hmaxlen : key.prefixlen = maxPrefixlen ds <;> simp [hmaxlen]
      | some v => by_cases hmaxlen : key.prefixlen = maxPrefixlen ds <;> simp [hmaxlen]
    · have hfull : longestPrefixMatch prefixlen data key ≠ maxPrefixlen ds := by
        intro hfull
        exact heq (exact_iff.mp ⟨by omega, by omega⟩)
      rw [if_neg hfull]
      by_cases hpre : bits data prefixlen <+: key.bits
      · have hgoes := goes_on_iff.mpr ⟨hpre, heq⟩
        have hnext := snoc_getD_below hpre heq
        rw [bit_of_goes_on hgoes] at hnext
        have hbit := (snoc_prefix_iff.mp hnext).2
        have hfound : (if value.isSome then some value else found).join = value.or found.join := by
          cases value <;> rfl
        rw [hwf.longest_child hnext, if_neg (by omega), if_pos (by omega), Option.or_assoc, ← hfound]
        cases hb : extractBit key.data prefixlen with
        | false =>
          simp only [Trie.find_child0 (Ne.symm heq) (hb ▸ hbit)]
          exact ih0 _ hwf.2.2.1 (hb ▸ hnext) _
        | true =>
          simp only [Trie.find_child1 (Ne.symm heq) (hb ▸ hbit)]
          exact ih1 _ hwf.2.2.2 (hb ▸ hnext) _
      · have hshort : longestPrefixMatch prefixlen data key < prefixlen := by
          refine lt_of_le_of_ne hleft fun he => hpre ((common_eq_left_iff _ _).mp ?_)
          rw [← longestPrefixMatch_eq, he, length_bits]
        rw [if_pos hshort, hwf.find_node_eq_none hpre, hwf.longest_of_apart hpre]
        simp

end Walks

/-! ## Histories -/

def Call.bits : Call ds vs → List Bool
  | .update key _ _ _ | .delete key => key.bits

/-- The last update or delete of a prefix that succeeded. -/
def lastSuccess (p : List Bool) (history : List (Call ds vs × Option Errno)) : Option (Call ds vs) :=
  lastAction (fun e => e.1.bits = p ∧ e.2 = none) history

/-- The value most recently stored for a prefix, if the prefix is live. -/
def stored (history : List (Call ds vs × Option Errno)) (p : List Bool) : Option (Value vs) :=
  match lastSuccess p history with
  | some (.update _ value _ _) => some value
  | some (.delete _) | none => none

/-- What a search should return after a history. -/
def expected (history : List (Call ds vs × Option Errno)) (key : Key ds) : Except Errno (Value vs) :=
  if key.prefixlen > maxPrefixlen ds then .error .EINVAL
  else
    match longest (stored history) key.bits with
    | some value => .ok value
    | none => .error .ENOENT

/-- The query is a full-length prefix that was deleted, and a shorter one is live. -/
def Shadowed (history : List (Call ds vs × Option Errno)) (key : Key ds) : Prop :=
  key.prefixlen = maxPrefixlen ds ∧ (∃ k, lastSuccess key.bits history = some (.delete k)) ∧
    longest (stored history) key.bits ≠ none

theorem lastSuccess_failed (p : List Bool) (history : List (Call ds vs × Option Errno)) (c : Call ds vs) (e : Errno) :
    lastSuccess p (history ++ [(c, some e)]) = lastSuccess p history := by
  simp [lastSuccess, lastAction_concat]

theorem lastSuccess_self (history : List (Call ds vs × Option Errno)) (c : Call ds vs) :
    lastSuccess c.bits (history ++ [(c, none)]) = some c := by
  simp [lastSuccess, lastAction_concat]

theorem lastSuccess_other {p : List Bool} (history : List (Call ds vs × Option Errno)) {c : Call ds vs}
    (hp : p ≠ c.bits) : lastSuccess p (history ++ [(c, none)]) = lastSuccess p history := by
  simp [lastSuccess, lastAction_concat, hp.symm]

/-- The trie after a history: what is stored, and which full-length prefixes it has nodes for. -/
structure Inv (m : LpmTrieMap ds vs) (history : List (Call ds vs × Option Errno)) : Prop where
  wellFormed : m.root.abs.WellFormed (maxPrefixlen ds) []
  get_eq : ∀ p, m.root.abs.get p = stored history p
  full_iff : ∀ p, p.length = maxPrefixlen ds → (m.root.abs.find p = none ↔ lastSuccess p history = none)

section Steps

variable {m : LpmTrieMap ds vs} {history : List (Call ds vs × Option Errno)}

theorem inv_init (ds vs maxEntries : Nat) : Inv (init ds vs maxEntries) [] :=
  ⟨trivial, fun _ => rfl, fun _ _ => ⟨fun _ => rfl, fun _ => rfl⟩⟩

section

variable (h : Inv m history)
include h

theorem Inv.failed (c : Call ds vs) (e : Errno) : Inv m (history ++ [(c, some e)]) := by
  refine ⟨h.wellFormed, fun p => ?_, fun p hp => ?_⟩
  · rw [stored, lastSuccess_failed]
    exact h.get_eq p
  · rw [lastSuccess_failed]
    exact h.full_iff p hp

/-- A successful call changes what its own prefix stands for and nothing else. -/
theorem Inv.succeeded (c : Call ds vs) (n : Nat) (root : Node ds vs) (value : Option (Value vs))
    (hwf : root.abs.WellFormed (maxPrefixlen ds) []) (hself : root.abs.find c.bits = some value)
    (hvalue : stored (history ++ [(c, none)]) c.bits = value)
    (hother : ∀ p, p ≠ c.bits → root.abs.get p = m.root.abs.get p ∧
      (p.length = maxPrefixlen ds → root.abs.find p = m.root.abs.find p))
    : Inv { m with root := root, nEntries := n } (history ++ [(c, none)]) := by
  refine ⟨hwf, fun p => ?_, fun p hp => ?_⟩
  · by_cases hpc : p = c.bits
    · rw [hpc, hvalue, Trie.get]
      exact congrArg Option.join hself
    · rw [stored, lastSuccess_other history hpc, ← stored, ← h.get_eq]
      exact (hother p hpc).1
  · by_cases hpc : p = c.bits
    · rw [hpc, lastSuccess_self, hself]
      simp
    · rw [lastSuccess_other history hpc, ← h.full_iff p hp, (hother p hpc).2 hp]

theorem Inv.updated (key : Key ds) (value : Value vs) (flags : UInt64) (free n : Nat) (root : Node ds vs)
    (hkey : key.prefixlen ≤ maxPrefixlen ds) (hroot : root.abs = m.root.abs.insert key.bits value) :
    Inv { m with root := root, nEntries := n } (history ++ [(Call.update key value flags free, none)]) := by
  apply h.succeeded (.update key value flags free) n root (some value)
  · rw [hroot]
    exact h.wellFormed.insert List.nil_prefix (by simpa using hkey) value
  · rw [hroot]
    exact h.wellFormed.find_insert_self value
  · rw [stored, lastSuccess_self]
  · intro p (hp : p ≠ key.bits)
    rw [hroot, Trie.get, Trie.get]
    rcases h.wellFormed.find_insert_of_ne hp value with hsame | ⟨hnone, hnew, hlt⟩
    · rw [hsame]
      exact ⟨rfl, fun _ => rfl⟩
    · rw [hnone, hnew]
      refine ⟨rfl, fun hfull => ?_⟩
      rw [length_keyBits] at hlt
      omega

theorem Inv.deleted (key : Key ds) (n : Nat) (root : Node ds vs) (hroot : root.abs = m.root.abs.erase key.bits)
    (hlive : ∃ v, m.root.abs.find key.bits = some (some v)) :
    Inv { m with root := root, nEntries := n } (history ++ [(Call.delete key, none)]) := by
  obtain ⟨v, hv⟩ := hlive
  apply h.succeeded (.delete key) n root none
  · rw [hroot]
    exact h.wellFormed.erase key.bits
  · rw [hroot, Call.bits, h.wellFormed.find_erase, if_pos rfl, hv]
    rfl
  · rw [stored, lastSuccess_self]
  · intro p (hp : p ≠ key.bits)
    rw [hroot, Trie.get, Trie.get, h.wellFormed.find_erase, if_neg hp]
    exact ⟨rfl, fun _ => rfl⟩

theorem Inv.step (c : Call ds vs) : Inv (step m c).2 (history ++ [(c, (step m c).1)]) := by
  cases c with
  | update key value flags free =>
    simp only [LpmTrie.step, LpmTrieMap.elemUpdate]
    split_ifs with hflags hlen
    · exact h.failed _ _
    · exact h.failed _ _
    · have hkey : key.prefixlen ≤ maxPrefixlen ds := by omega
      split
      · exact h.failed _ _
      · next root added hok => exact h.updated key value flags free _ root hkey (Request.abs_update _ hkey hok)
  | delete key =>
    simp only [LpmTrie.step, LpmTrieMap.elemDelete]
    by_cases hlen : key.prefixlen > maxPrefixlen ds
    · rw [if_pos hlen]
      exact h.failed _ _
    · rw [if_neg hlen]
      split
      · exact h.failed _ _
      · next root hok =>
        obtain ⟨hroot, hlive⟩ := abs_deleteLoop hok
        exact h.deleted key _ root hroot hlive

end

theorem inv_after (ds vs maxEntries : Nat) (calls : List (Call ds vs)) :
    Inv (after step (init ds vs maxEntries) calls) (trace step (init ds vs maxEntries) calls) := by
  induction calls using List.reverseRecOn with
  | nil => exact inv_init ds vs maxEntries
  | append_singleton calls c ih =>
    rw [trace_append, after_append]
    exact ih.step c

/-- A full-length node without a value is a deleted prefix. -/
theorem Inv.find_eq_some_none_iff (h : Inv m history) {key : Key ds} (hfull : key.prefixlen = maxPrefixlen ds) :
    m.root.abs.find key.bits = some none ↔ ∃ k, lastSuccess key.bits history = some (.delete k) := by
  have hget := h.get_eq key.bits
  have hiff := h.full_iff key.bits (by simpa using hfull)
  rw [Trie.get, stored] at hget
  cases hlast : lastSuccess key.bits history with
  | none =>
    rw [hlast] at hiff
    simp [hiff.mpr rfl]
  | some c =>
    rw [hlast] at hiff hget
    have hne : m.root.abs.find key.bits ≠ none := fun hnone => absurd (hiff.mp hnone) (Option.some_ne_none c)
    obtain ⟨value, hvalue⟩ := Option.ne_none_iff_exists'.mp hne
    rw [hvalue] at hget ⊢
    cases c with
    | update k v flags free =>
      have hsome : value = some v := hget
      simp [hsome]
    | delete k =>
      have hnone : value = none := hget
      simp [hnone]

end Steps

end LpmTrie
