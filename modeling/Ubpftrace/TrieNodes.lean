import Mathlib.Data.Finset.NAry
import Ubpftrace.PrefixTrie

/-!
# The nodes of a path-compressed trie

Which strings have a node, how many nodes there are and how many of them carry a
value. The strings with a node are closed under common prefixes, so a trie that
never drops a node has one for every string it was given and for every place
where two of them part.
-/

namespace PrefixTrie

variable {ν : Type}

/-! ## Where two strings part -/

/-- The longest string that both extend. -/
def meet (p q : List Bool) : List Bool := p.take (common p q)

theorem common_comm (p q : List Bool) : common p q = common q p := by
  fun_induction common p q with
  | case1 a as bs ih => simp [common, ih]
  | case2 a as b bs h => simp [common, Ne.symm h]
  | case3 q => cases q <;> rfl
  | case4 p => cases p <;> rfl

theorem meet_comm (p q : List Bool) : meet p q = meet q p := by
  rw [meet, meet, take_common, common_comm]

theorem meet_prefix_left (p q : List Bool) : meet p q <+: p := List.take_prefix _ p

theorem meet_prefix_right (p q : List Bool) : meet p q <+: q := meet_comm p q ▸ meet_prefix_left q p

theorem length_meet (p q : List Bool) : (meet p q).length = common p q :=
  List.length_take_of_le (common_le_left p q)

variable {p q c : List Bool}

theorem prefix_meet_iff : c <+: meet p q ↔ c <+: p ∧ c <+: q := by
  constructor
  · intro h
    exact ⟨h.trans (meet_prefix_left p q), h.trans (meet_prefix_right p q)⟩
  · rintro ⟨hp, hq⟩
    refine List.prefix_of_prefix_length_le hp (meet_prefix_left p q) ?_
    rw [length_meet]
    exact le_common hp hq

theorem meet_eq_left (h : p <+: q) : meet p q = p := by
  rw [meet, (common_eq_left_iff p q).mpr h, List.take_length]

theorem meet_eq_right (h : q <+: p) : meet p q = q := by
  rw [meet_comm, meet_eq_left h]

theorem meet_self (p : List Bool) : meet p p = p := meet_eq_left List.prefix_rfl

/-- Two strings that go on differently behind a common prefix part there. -/
theorem meet_eq_of_sides {b : Bool} (hp : c ++ [b] <+: p) (hq : c ++ [!b] <+: q) : meet p q = c := by
  obtain ⟨hcp, hbp⟩ := snoc_prefix_iff.mp hp
  obtain ⟨hcq, hbq⟩ := snoc_prefix_iff.mp hq
  by_contra hne
  -- the bit with which the common prefix goes on would be a bit of both
  obtain ⟨hp', hq'⟩ := prefix_meet_iff.mp (snoc_getD_below (prefix_meet_iff.mpr ⟨hcp, hcq⟩) (Ne.symm hne))
  have hp'' := (snoc_prefix_iff.mp hp').2
  have hq'' := (snoc_prefix_iff.mp hq').2
  rw [hbp] at hp''
  rw [hbq, ← hp''] at hq''
  cases b <;> cases hq''

/-- A string that leaves `p` before its end leaves every extension of `p` there. -/
theorem meet_extension {a k : List Bool} (h : p <+: a) (hk : ¬ p <+: k) : meet p k = meet a k := by
  have hle : meet p k <+: meet a k := prefix_meet_iff.mpr ⟨(meet_prefix_left p k).trans h, meet_prefix_right p k⟩
  have hshort : meet a k <+: p := by
    refine (List.prefix_or_prefix_of_prefix (meet_prefix_left a k) h).resolve_right fun hp => ?_
    exact hk (hp.trans (meet_prefix_right a k))
  exact hle.eq_of_length_le (prefix_meet_iff.mpr ⟨hshort, meet_prefix_right a k⟩).length_le

/-- All strings of a set and all places where two of them part. -/
def meets (P : Finset (List Bool)) : Finset (List Bool) := Finset.image₂ meet P P

variable {P : Finset (List Bool)}

theorem mem_meets : p ∈ meets P ↔ ∃ a ∈ P, ∃ b ∈ P, meet a b = p :=
  Finset.mem_image₂

theorem subset_meets (P : Finset (List Bool)) : P ⊆ meets P := by
  intro p hp
  exact mem_meets.mpr ⟨p, hp, p, hp, meet_self p⟩

theorem meets_mono {Q : Finset (List Bool)} (h : P ⊆ Q) : meets P ⊆ meets Q := Finset.image₂_subset h h

/-! ## Left and right -/

/-- Where the strings part, the first goes on with 0 and the second with 1. -/
def LeftOf (p q : List Bool) : Prop := ∃ c, c ++ [false] <+: p ∧ c ++ [true] <+: q

theorem not_snoc_both (h0 : c ++ [false] <+: p) (h1 : c ++ [true] <+: p) : False := by
  have hbit := (snoc_prefix_iff.mp h0).2.symm.trans (snoc_prefix_iff.mp h1).2
  cases hbit

theorem LeftOf.not_prefix_right (h : LeftOf p q) : ¬ p <+: q := by
  obtain ⟨c, hp, hq⟩ := h
  exact fun hpq => not_snoc_both (hp.trans hpq) hq

theorem LeftOf.asymm (h : LeftOf p q) : ¬ LeftOf q p := by
  rintro ⟨d, hq1, hp1⟩
  obtain ⟨c, hp0, hq0⟩ := h
  -- both part at the end of what they have in common
  have hc := meet_eq_of_sides (b := false) hp0 hq0
  have hd := meet_eq_of_sides (b := true) hp1 hq1
  obtain rfl : c = d := hc.symm.trans hd
  exact not_snoc_both hp0 hp1

/-- Nothing in the set lies below the string or to the left of it. -/
def Leftmost (P : Finset (List Bool)) (l : List Bool) : Prop := l ∈ P ∧ ∀ q ∈ P, q <+: l ∨ LeftOf l q

theorem Leftmost.unique {l l' : List Bool} (h : Leftmost P l) (h' : Leftmost P l') : l = l' := by
  rcases h.2 l' h'.1 with hbelow | hleft
  · rcases h'.2 l h.1 with hbelow' | hleft'
    · exact hbelow'.eq_of_length_le hbelow.length_le
    · exact absurd hbelow hleft'.not_prefix_right
  · rcases h'.2 l h.1 with hbelow' | hleft'
    · exact absurd hbelow' hleft.not_prefix_right
    · exact absurd hleft' hleft.asymm

/-- A leftmost string of the meets is one of the strings themselves. -/
theorem leftmost_of_meets {l : List Bool} (h : Leftmost (meets P) l) : Leftmost P l := by
  obtain ⟨a, ha, b, -, hmeet⟩ := mem_meets.mp h.1
  have hla : l <+: a := hmeet ▸ meet_prefix_left a b
  have hal : a <+: l :=
    (h.2 a (subset_meets P ha)).resolve_right fun hleft => hleft.not_prefix_right hla
  obtain rfl : a = l := hal.eq_of_length_le hla.length_le
  exact ⟨ha, fun q hq => h.2 q (subset_meets P hq)⟩

namespace Trie

/-! ## The strings with a node -/

def prefixes : Trie ν → List (List Bool)
  | .nil => []
  | .node pre _ child0 child1 => pre :: (prefixes child0 ++ prefixes child1)

def size : Trie ν → Nat
  | .nil => 0
  | .node _ _ child0 child1 => child0.size + child1.size + 1

/-- The number of nodes with a value. -/
def live : Trie ν → Nat
  | .nil => 0
  | .node _ value child0 child1 => child0.live + child1.live + if value.isSome then 1 else 0

variable {bound : Nat} {ctx pre k p q : List Bool} {value : Option ν} {v : ν} {child0 child1 t u : Trie ν} {b : Bool}

theorem length_prefixes (t : Trie ν) : t.prefixes.length = t.size := by
  induction t with
  | nil => rfl
  | node pre value child0 child1 ih0 ih1 => simp [prefixes, size, ih0, ih1]

section

variable (h : WellFormed bound ctx t)
include h

theorem WellFormed.of_mem (hp : p ∈ t.prefixes) : ctx <+: p ∧ p.length ≤ bound := by
  induction t generalizing ctx with
  | nil => cases hp
  | node pre value child0 child1 ih0 ih1 =>
    obtain ⟨hctx, hlen, h0, h1⟩ := h
    simp only [prefixes, List.mem_cons, List.mem_append] at hp
    rcases hp with rfl | hp | hp
    · exact ⟨hctx, hlen⟩
    · exact (ih0 h0 hp).imp_left fun hsnoc => hctx.trans (snoc_prefix_iff.mp hsnoc).1
    · exact (ih1 h1 hp).imp_left fun hsnoc => hctx.trans (snoc_prefix_iff.mp hsnoc).1

theorem WellFormed.prefix_of_mem (hp : p ∈ t.prefixes) : ctx <+: p := (h.of_mem hp).1

theorem WellFormed.mem_prefixes_iff : p ∈ t.prefixes ↔ t.find p ≠ none := by
  induction t generalizing ctx with
  | nil => simp [prefixes, find]
  | node pre value child0 child1 ih0 ih1 =>
    obtain ⟨-, -, h0, h1⟩ := h
    simp only [prefixes, List.mem_cons, List.mem_append]
    have hside {c : Trie ν} {b : Bool} (hc : WellFormed bound (pre ++ [b]) c) (hp : p ∈ c.prefixes) :
        p ≠ pre ∧ p[pre.length]? = some b := by
      have hbit := (snoc_prefix_iff.mp (hc.prefix_of_mem hp)).2
      refine ⟨?_, hbit⟩
      rintro rfl
      simp at hbit
    constructor
    · rintro (rfl | hp | hp)
      · simp [find]
      · obtain ⟨hne, hb⟩ := hside h0 hp
        rw [find_child0 hne hb]
        exact (ih0 h0).mp hp
      · obtain ⟨hne, hb⟩ := hside h1 hp
        rw [find_child1 hne hb]
        exact (ih1 h1).mp hp
    · intro hp
      by_cases hne : p = pre
      · exact .inl hne
      · rw [find, if_neg hne] at hp
        split at hp
        · exact absurd rfl hp
        · exact .inr (.inl ((ih0 h0).mpr hp))
        · exact .inr (.inr ((ih1 h1).mpr hp))

theorem WellFormed.nodup_prefixes : t.prefixes.Nodup := by
  induction t generalizing ctx with
  | nil => exact List.nodup_nil
  | node pre value child0 child1 ih0 ih1 =>
    obtain ⟨-, -, h0, h1⟩ := h
    rw [prefixes, List.nodup_cons, List.nodup_append', List.mem_append]
    refine ⟨?_, ih0 h0, ih1 h1, ?_⟩
    · rintro (hp | hp)
      · simpa using (snoc_prefix_iff.mp (h0.prefix_of_mem hp)).2
      · simpa using (snoc_prefix_iff.mp (h1.prefix_of_mem hp)).2
    · intro p hp0 hp1
      have hb0 := (snoc_prefix_iff.mp (h0.prefix_of_mem hp0)).2
      have hb1 := (snoc_prefix_iff.mp (h1.prefix_of_mem hp1)).2
      rw [hb0] at hb1
      cases hb1

/-- Where the strings of two nodes part there is a node. -/
theorem WellFormed.meet_mem_prefixes (hp : p ∈ t.prefixes) (hq : q ∈ t.prefixes) :
    meet p q ∈ t.prefixes := by
  induction t generalizing ctx with
  | nil => cases hp
  | node pre value child0 child1 ih0 ih1 =>
    obtain ⟨-, hlen, h0, h1⟩ := h
    have hnode : WellFormed bound pre (.node pre value child0 child1) := ⟨List.prefix_rfl, hlen, h0, h1⟩
    have hpre := hnode.prefix_of_mem hp
    have hqre := hnode.prefix_of_mem hq
    simp only [prefixes, List.mem_cons, List.mem_append] at hp hq ⊢
    rcases hp with rfl | hp | hp
    · exact .inl (meet_eq_left hqre)
    · rcases hq with rfl | hq | hq
      · exact .inl (meet_eq_right hpre)
      · exact .inr (.inl (ih0 h0 hp hq))
      · exact .inl (meet_eq_of_sides (h0.prefix_of_mem hp) (h1.prefix_of_mem hq))
    · rcases hq with rfl | hq | hq
      · exact .inl (meet_eq_right hpre)
      · exact .inl (meet_eq_of_sides (h1.prefix_of_mem hp) (h0.prefix_of_mem hq))
      · exact .inr (.inr (ih1 h1 hp hq))

end

theorem size_branch : (branch pre value b t u).size = t.size + u.size + 1 := by
  unfold branch
  cases b <;> simp [size, Nat.add_comm]

theorem mem_prefixes_branch : p ∈ (branch pre value b t u).prefixes ↔ p = pre ∨ p ∈ t.prefixes ∨ p ∈ u.prefixes := by
  unfold branch
  cases b <;> simp [prefixes, or_comm]

/-- What an insertion adds: its own string, and where that leaves a node at most one more. -/
theorem mem_prefixes_insert (h : p ∈ (t.insert k v).prefixes) :
    p = k ∨ p ∈ t.prefixes ∨ ∃ q ∈ t.prefixes, ¬ q <+: k ∧ p = meet q k := by
  induction t with
  | nil => exact .inl (by simpa [Trie.insert, prefixes] using h)
  | node pre value child0 child1 ih0 ih1 =>
    rw [Trie.insert] at h
    have hlift {c : Trie ν} (hc : c.prefixes ⊆ (Trie.node pre value child0 child1).prefixes)
        (hp : p = k ∨ p ∈ c.prefixes ∨ ∃ q ∈ c.prefixes, ¬ q <+: k ∧ p = meet q k) :
        p = k ∨ p ∈ (Trie.node pre value child0 child1).prefixes ∨
          ∃ q ∈ (Trie.node pre value child0 child1).prefixes, ¬ q <+: k ∧ p = meet q k := by
      rcases hp with hp | hp | ⟨q, hq, hrest⟩
      · exact .inl hp
      · exact .inr (.inl (hc hp))
      · exact .inr (.inr ⟨q, hc hq, hrest⟩)
    split_ifs at h with hdown heq hup
    · split at h
      · simp only [prefixes, List.mem_cons, List.mem_append] at h
        rcases h with h | h | h
        · exact .inr (.inl (by simp [prefixes, h]))
        · exact hlift (by simp [prefixes]) (ih0 h)
        · exact .inr (.inl (by simp [prefixes, h]))
      · simp only [prefixes, List.mem_cons, List.mem_append] at h
        rcases h with h | h | h
        · exact .inr (.inl (by simp [prefixes, h]))
        · exact .inr (.inl (by simp [prefixes, h]))
        · exact hlift (by simp [prefixes]) (ih1 h)
    · exact .inr (.inl h)
    · rw [mem_prefixes_branch] at h
      rcases h with h | h | h
      · exact .inl h
      · exact .inr (.inl h)
      · cases h
    · rw [mem_prefixes_branch] at h
      rcases h with h | h | h
      · have hmeet : k.take (common pre k) = meet pre k := (take_common pre k).symm
        exact .inr (.inr ⟨pre, by simp [prefixes], fun hp => hdown ⟨hp, heq⟩, h.trans hmeet⟩)
      · exact .inl (by simpa [prefixes] using h)
      · exact .inr (.inl h)

theorem subset_prefixes_insert (k : List Bool) (v : ν) (t : Trie ν) :
    k ∈ (t.insert k v).prefixes ∧ t.prefixes ⊆ (t.insert k v).prefixes := by
  induction t with
  | nil => simp [Trie.insert, prefixes]
  | node pre value child0 child1 ih0 ih1 =>
    rw [Trie.insert]
    split_ifs with hdown heq hup
    · split
      · refine ⟨by simp [prefixes, ih0.1], ?_⟩
        intro p hp
        simp only [prefixes, List.mem_cons, List.mem_append] at hp ⊢
        exact hp.imp_right (Or.imp_left (ih0.2 ·))
      · refine ⟨by simp [prefixes, ih1.1], ?_⟩
        intro p hp
        simp only [prefixes, List.mem_cons, List.mem_append] at hp ⊢
        exact hp.imp_right (Or.imp_right (ih1.2 ·))
    · exact ⟨by simp [prefixes, heq], fun p hp => hp⟩
    · exact ⟨mem_prefixes_branch.mpr (.inl rfl), fun p hp => mem_prefixes_branch.mpr (.inr (.inl hp))⟩
    · refine ⟨mem_prefixes_branch.mpr (.inr (.inl (by simp [prefixes]))), ?_⟩
      exact fun p hp => mem_prefixes_branch.mpr (.inr (.inr hp))

@[simp] theorem prefixes_erase (k : List Bool) (t : Trie ν) : (t.erase k).prefixes = t.prefixes := by
  induction t with
  | nil => rfl
  | node pre value child0 child1 ih0 ih1 =>
    rw [Trie.erase]
    split_ifs
    · split
      · simp [prefixes, ih0]
      · simp [prefixes, ih1]
    · rfl
    · rfl

/-- The nodes of a trie that was given the strings of a set and never dropped one. -/
theorem prefixes_insert_meets {P : Finset (List Bool)} (h : WellFormed bound ctx t) (hctx : ctx <+: k)
    (hk : k.length ≤ bound) (hP : t.prefixes.toFinset = meets P) :
    (t.insert k v).prefixes.toFinset = meets (Insert.insert k P) := by
  have hmem (p : List Bool) : p ∈ t.prefixes ↔ p ∈ meets P := by rw [← hP, List.mem_toFinset]
  obtain ⟨hself, hkeep⟩ := subset_prefixes_insert k v t
  ext p
  rw [List.mem_toFinset]
  constructor
  · intro hp
    rcases mem_prefixes_insert hp with rfl | hp | ⟨q, hq, hnot, rfl⟩
    · exact subset_meets _ (Finset.mem_insert_self _ _)
    · exact meets_mono (Finset.subset_insert k P) ((hmem p).mp hp)
    · obtain ⟨a, ha, b, -, rfl⟩ := mem_meets.mp ((hmem q).mp hq)
      refine mem_meets.mpr ⟨a, Finset.mem_insert_of_mem ha, k, Finset.mem_insert_self k P, ?_⟩
      exact (meet_extension (meet_prefix_left a b) hnot).symm
  · intro hp
    have hgiven {a : List Bool} (ha : a ∈ Insert.insert k P) : a ∈ (t.insert k v).prefixes := by
      rcases Finset.mem_insert.mp ha with rfl | ha
      · exact hself
      · exact hkeep ((hmem a).mpr (subset_meets P ha))
    obtain ⟨a, ha, b, hb, rfl⟩ := mem_meets.mp hp
    exact (h.insert hctx hk v).meet_mem_prefixes (hgiven ha) (hgiven hb)

theorem WellFormed.size_eq_card (h : WellFormed bound ctx t) : t.size = t.prefixes.toFinset.card := by
  rw [List.toFinset_card_of_nodup h.nodup_prefixes, length_prefixes]

end Trie

namespace Trie

variable {bound : Nat} {ctx pre k p q : List Bool} {value : Option ν} {v : ν} {child0 child1 t u : Trie ν} {b : Bool}

/-! ## Nodes with a value -/

theorem live_branch : (branch pre value b t u).live = t.live + u.live + if value.isSome then 1 else 0 := by
  unfold branch
  cases b <;> simp [live, Nat.add_comm]

theorem WellFormed.live_insert (h : WellFormed bound ctx t) (v : ν) :
    (t.insert k v).live = t.live + (t.get k).isNone.toNat := by
  induction t generalizing ctx with
  | nil => rfl
  | node pre value child0 child1 ih0 ih1 =>
    have hnode := h
    obtain ⟨-, -, h0, h1⟩ := h
    rw [Trie.insert]
    split_ifs with hdown heq hup
    · have hbit := (snoc_prefix_iff.mp (snoc_getD_below hdown.1 hdown.2)).2
      split
      · next hb =>
        rw [get, find_child0 hdown.2.symm (hb ▸ hbit), ← get, live, live, ih0 h0]
        omega
      · next hb =>
        rw [get, find_child1 hdown.2.symm (hb ▸ hbit), ← get, live, live, ih1 h1]
        omega
    · cases value <;> simp [live, get, find, heq]
    · have hnone := hnode.find_node_eq_none fun hp => hdown ⟨hp, heq⟩
      rw [live_branch, get, hnone]
      simp [live]
    · have hnone := hnode.find_node_eq_none fun hp => hdown ⟨hp, heq⟩
      rw [live_branch, get, hnone]
      simp [live, Nat.add_comm]

theorem WellFormed.live_erase (h : WellFormed bound ctx t) (hk : (t.get k).isSome) : (t.erase k).live + 1 = t.live := by
  induction t generalizing ctx with
  | nil => cases hk
  | node pre value child0 child1 ih0 ih1 =>
    have hnode := h
    obtain ⟨-, -, h0, h1⟩ := h
    rw [Trie.erase]
    split_ifs with hdown heq
    · have hbit := (snoc_prefix_iff.mp (snoc_getD_below hdown.1 hdown.2)).2
      split
      · next hb =>
        rw [get, find_child0 hdown.2.symm (hb ▸ hbit), ← get] at hk
        rw [live, live, ← ih0 h0 hk]
        omega
      · next hb =>
        rw [get, find_child1 hdown.2.symm (hb ▸ hbit), ← get] at hk
        rw [live, live, ← ih1 h1 hk]
        omega
    · have hvalue : value.isSome := by simpa [get, find, heq] using hk
      simp [live, hvalue]
    · rw [get, hnode.find_node_eq_none fun hp => hdown ⟨hp, heq⟩] at hk
      cases hk

/-! ## The walk to the left -/

/-- The first string with a value on the walk that goes to the left wherever it can. -/
def firstLive : Trie ν → Option (List Bool)
  | .nil => none
  | .node pre value child0 child1 =>
    if value.isSome then some pre
    else
      match child0 with
      | .nil => child1.firstLive
      | child0 => child0.firstLive

/-- The bit of the child that the walk goes on to. -/
def leftBit : Trie ν → Bool
  | .nil => true
  | .node .. => false

theorem firstLive_node : (Trie.node pre value child0 child1).firstLive =
    if value.isSome then some pre else (if child0.leftBit then child1 else child0).firstLive := by
  cases child0 <;> rfl

theorem get_node : (Trie.node pre value child0 child1).get p =
    if p = pre then value else p[pre.length]?.bind fun b => if b then child1.get p else child0.get p := by
  rw [get, find]
  split
  · rfl
  · cases p[pre.length]? with
    | none => rfl
    | some b => cases b <;> rfl

theorem get_node_below (hp : pre ++ [b] <+: p) :
    (Trie.node pre value child0 child1).get p = (if b then child1 else child0).get p := by
  have hbit := (snoc_prefix_iff.mp hp).2
  have hne : p ≠ pre := by
    rintro rfl
    simp at hbit
  rw [get_node, if_neg hne, hbit]
  cases b <;> rfl

theorem WellFormed.prefix_of_get (h : WellFormed bound ctx t) (hp : (t.get p).isSome) : ctx <+: p := by
  refine h.prefix_of_find fun hnone => ?_
  rw [get, hnone] at hp
  cases hp

theorem WellFormed.get_of_firstLive (h : WellFormed bound ctx t) (hp : t.firstLive = some p) : (t.get p).isSome := by
  induction t generalizing ctx with
  | nil => cases hp
  | node pre value child0 child1 ih0 ih1 =>
    obtain ⟨-, -, h0, h1⟩ := h
    rw [firstLive_node] at hp
    split_ifs at hp with hvalue hbit
    · cases hp
      rwa [get_node, if_pos rfl]
    · have hget := ih1 h1 hp
      rwa [get_node_below (h1.prefix_of_get hget)]
    · have hget := ih0 h0 hp
      rwa [get_node_below (h0.prefix_of_get hget)]

/-- The strings with a value on the way to a leaf below a node are the node's own and
those of the child. -/
theorem WellFormed.path_dead_iff {l : List Bool} (h : WellFormed bound ctx (.node pre value child0 child1))
    (hl : pre ++ [b] <+: l) :
    (∀ p, p <+: l → (Trie.node pre value child0 child1).get p = none) ↔
      value = none ∧ ∀ p, p <+: l → (if b then child1 else child0).get p = none := by
  have hwf : WellFormed bound (pre ++ [b]) (if b then child1 else child0) := by
    cases b
    · exact h.2.2.1
    · exact h.2.2.2
  constructor
  · intro hdead
    constructor
    · have hpre := hdead pre (snoc_prefix_iff.mp hl).1
      rwa [get_node, if_pos rfl] at hpre
    · intro p hp
      by_cases hbelow : pre ++ [b] <+: p
      · rw [← get_node_below hbelow]
        exact hdead p hp
      · rw [get, hwf.find_eq_none hbelow]
        rfl
  · rintro ⟨rfl, hdead⟩ p hp
    by_cases hbelow : pre ++ [b] <+: p
    · rw [get_node_below hbelow]
      exact hdead p hp
    · have hshort : p <+: pre ++ [b] := (List.prefix_or_prefix_of_prefix hp hl).resolve_right hbelow
      have hpre : p <+: pre := (List.prefix_concat_iff.mp hshort).resolve_left fun he => hbelow (he ▸ List.prefix_rfl)
      rw [get_node, List.getElem?_eq_none hpre.length_le]
      simp

/-- The walk ends at a leaf with every other string above it or to its right, and finds
a value if there is one above the leaf. -/
theorem WellFormed.exists_leftmost (h : WellFormed bound ctx t) (hne : t ≠ .nil) :
    ∃ l ∈ t.prefixes, (∀ q ∈ t.prefixes, q <+: l ∨ LeftOf l q) ∧
      (t.firstLive = none ↔ ∀ p, p <+: l → t.get p = none) := by
  induction t generalizing ctx with
  | nil => exact absurd rfl hne
  | node pre value child0 child1 ih0 ih1 =>
    have hnode := h
    obtain ⟨-, -, h0, h1⟩ := h
    simp only [prefixes, List.mem_cons, List.mem_append]
    by_cases hnil : child0 = .nil
    · subst hnil
      rw [firstLive_node, leftBit, if_pos rfl]
      by_cases hnil1 : child1 = .nil
      · subst hnil1
        refine ⟨pre, .inl rfl, fun q hq => ?_, ?_⟩
        · obtain rfl : q = pre := by simpa [prefixes] using hq
          exact .inl List.prefix_rfl
        · constructor
          · intro hnone p hp
            have hvalue : value = none := by simpa [firstLive] using hnone
            rw [get_node, List.getElem?_eq_none hp.length_le]
            simp [hvalue]
          · intro hdead
            have hpre := hdead pre List.prefix_rfl
            rw [get_node, if_pos rfl] at hpre
            simp [hpre, firstLive]
      · obtain ⟨l, hl, hleft, hlive⟩ := ih1 h1 hnil1
        have hbelow := h1.prefix_of_mem hl
        refine ⟨l, .inr (.inr hl), fun q hq => ?_, ?_⟩
        · rcases hq with rfl | hq | hq
          · exact .inl (snoc_prefix_iff.mp hbelow).1
          · cases hq
          · exact hleft q hq
        · rw [hnode.path_dead_iff hbelow]
          cases value <;> simp [hlive]
    · obtain ⟨l, hl, hleft, hlive⟩ := ih0 h0 hnil
      have hbelow := h0.prefix_of_mem hl
      have hbit : child0.leftBit = false := by
        cases child0 with
        | nil => exact absurd rfl hnil
        | node => rfl
      rw [firstLive_node, hbit, if_neg Bool.false_ne_true]
      refine ⟨l, .inr (.inl hl), fun q hq => ?_, ?_⟩
      · rcases hq with rfl | hq | hq
        · exact .inl (snoc_prefix_iff.mp hbelow).1
        · exact hleft q hq
        · exact .inr ⟨pre, hbelow, h1.prefix_of_mem hq⟩
      · rw [hnode.path_dead_iff hbelow]
        cases value <;> simp [hlive]

end Trie

end PrefixTrie
