import Mathlib.Data.List.GetD
import Mathlib.Data.Nat.Basic

/-!
# Path-compressed binary tries and longest prefixes

A node stands for a bit string and may carry a value; every node below it
extends the string, on the side of its next bit. `longest` is what such a trie is
for: the value of the longest prefix of a query that a table knows.
-/

namespace PrefixTrie

variable {ν : Type} {q : List Bool}

/-! ## Common prefixes -/

def common : List Bool → List Bool → Nat
  | a :: as, b :: bs => if a = b then common as bs + 1 else 0
  | [], _ | _, [] => 0

theorem common_le_left (p q : List Bool) : common p q ≤ p.length := by
  fun_induction common <;> simp_all

theorem common_le_right (p q : List Bool) : common p q ≤ q.length := by
  fun_induction common <;> simp_all

theorem take_common (p q : List Bool) : p.take (common p q) = q.take (common p q) := by
  fun_induction common <;> simp_all

theorem getElem?_common_ne (p q : List Bool) (hp : common p q < p.length) (hq : common p q < q.length) :
    p[common p q]? ≠ q[common p q]? := by
  fun_induction common <;> simp_all

theorem le_common {c p : List Bool} (hp : c <+: p) (hq : c <+: q) : c.length ≤ common p q := by
  obtain ⟨s, rfl⟩ := hp
  obtain ⟨t, rfl⟩ := hq
  induction c with
  | nil => simp
  | cons b c ih => simpa [common] using ih

theorem common_eq_left_iff (p q : List Bool) : common p q = p.length ↔ p <+: q := by
  constructor
  · intro h
    have htake := take_common p q
    rw [h, List.take_length] at htake
    exact List.prefix_iff_eq_take.mpr htake
  · intro h
    exact le_antisymm (common_le_left p q) (le_common List.prefix_rfl h)

theorem common_eq_right_iff (p q : List Bool) : common p q = q.length ↔ q <+: p := by
  constructor
  · intro h
    have htake := take_common p q
    rw [h, List.take_length] at htake
    exact List.prefix_iff_eq_take.mpr htake.symm
  · intro h
    exact le_antisymm (common_le_right p q) (le_common h List.prefix_rfl)

theorem snoc_prefix_iff {p : List Bool} {b : Bool} : p ++ [b] <+: q ↔ p <+: q ∧ q[p.length]? = some b := by
  constructor
  · rintro ⟨s, rfl⟩
    exact ⟨⟨b :: s, by simp⟩, by simp⟩
  · rintro ⟨⟨s, rfl⟩, hb⟩
    cases s with
    | nil => simp at hb
    | cons a s =>
      obtain rfl : a = b := by simpa using hb
      exact ⟨s, by simp⟩

theorem snoc_getD_below {p : List Bool} (h : p <+: q) (hne : p ≠ q) : p ++ [q.getD p.length false] <+: q := by
  have hlt : p.length < q.length := lt_of_le_of_ne h.length_le fun he => hne (h.eq_of_length he)
  exact snoc_prefix_iff.mpr ⟨h, by rw [List.getElem?_eq_getElem hlt, List.getD_eq_getElem _ _ hlt]⟩

/-! ## The longest known prefix -/

def longestUpTo (table : List Bool → Option ν) (q : List Bool) : Nat → Option ν
  | 0 => table []
  | n + 1 => (table (q.take (n + 1))).or (longestUpTo table q n)

/-- The value of the longest prefix of the query that the table knows. -/
def longest (table : List Bool → Option ν) (q : List Bool) : Option ν := longestUpTo table q q.length

theorem longestUpTo_eq_none {table : List Bool → Option ν} {n : Nat} (h : ∀ j ≤ n, table (q.take j) = none) :
    longestUpTo table q n = none := by
  induction n with
  | zero => exact h 0 le_rfl
  | succ n ih => rw [longestUpTo, h (n + 1) le_rfl, ih fun j hj => h j (by omega), Option.or_none]

/-- What is known above length `m` is looked for first, then the prefix of length `m`. -/
theorem longestUpTo_split {table upper : List Bool → Option ν} {m n : Nat} (hmn : m ≤ n)
    (hbelow : ∀ j < m, table (q.take j) = none) (hupper : ∀ j ≤ m, upper (q.take j) = none)
    (hagree : ∀ j, m < j → j ≤ n → table (q.take j) = upper (q.take j)) :
    longestUpTo table q n = (longestUpTo upper q n).or (table (q.take m)) := by
  induction n with
  | zero =>
    obtain rfl : m = 0 := by omega
    have := hupper 0 le_rfl
    rw [List.take_zero] at this
    simp [longestUpTo, this]
  | succ n ih =>
    by_cases hm : m = n + 1
    · subst hm
      rw [longestUpTo_eq_none hupper, longestUpTo, longestUpTo_eq_none fun j hj => hbelow j (by omega), Option.or_none,
        Option.none_or]
    · have hrest := ih (by omega) fun j hj hjn => hagree j hj (by omega)
      rw [longestUpTo, longestUpTo, hrest, hagree (n + 1) (by omega) le_rfl, Option.or_assoc]

theorem longest_congr {table table' : List Bool → Option ν} (h : ∀ p, table p = table' p) (q : List Bool) :
    longest table q = longest table' q := by
  rw [funext h]

/-! ## Tries -/

inductive Trie (ν : Type) where
  | nil
  | node (pre : List Bool) (value : Option ν) (child0 child1 : Trie ν)
  deriving DecidableEq

namespace Trie

/-- The value field of the node of a string, if there is such a node. -/
def find : Trie ν → List Bool → Option (Option ν)
  | .nil, _ => none
  | .node pre value child0 child1, p =>
    if p = pre then some value
    else
      match p[pre.length]? with
      | none => none
      | some false => find child0 p
      | some true => find child1 p

def get (t : Trie ν) (p : List Bool) : Option ν := (t.find p).join

/-- A node with `t` on the side of the bit and `u` on the other. -/
def branch (pre : List Bool) (value : Option ν) (bit : Bool) (t u : Trie ν) : Trie ν :=
  if bit then .node pre value u t else .node pre value t u

def insert (k : List Bool) (v : ν) : Trie ν → Trie ν
  | .nil => .node k (some v) .nil .nil
  | .node pre value child0 child1 =>
    if pre <+: k ∧ pre ≠ k then
      match k.getD pre.length false with
      | false => .node pre value (insert k v child0) child1
      | true => .node pre value child0 (insert k v child1)
    else if pre = k then .node pre (some v) child0 child1
    else if k <+: pre then branch k (some v) (pre.getD k.length false) (.node pre value child0 child1) .nil
    else
      branch (k.take (common pre k)) none (k.getD (common pre k) false) (.node k (some v) .nil .nil)
        (.node pre value child0 child1)

/-- The node of the string loses its value and stays. -/
def erase (k : List Bool) : Trie ν → Trie ν
  | .nil => .nil
  | .node pre value child0 child1 =>
    if pre <+: k ∧ pre ≠ k then
      match k.getD pre.length false with
      | false => .node pre value (erase k child0) child1
      | true => .node pre value child0 (erase k child1)
    else if pre = k then .node pre none child0 child1
    else .node pre value child0 child1

/-- Every node extends the string that leads to it, and none is longer than the bound. -/
def WellFormed (bound : Nat) : List Bool → Trie ν → Prop
  | _, .nil => True
  | ctx, .node pre _ child0 child1 =>
    ctx <+: pre ∧ pre.length ≤ bound ∧ WellFormed bound (pre ++ [false]) child0 ∧
      WellFormed bound (pre ++ [true]) child1

variable {bound : Nat} {ctx pre k p : List Bool} {value : Option ν} {v : ν} {child0 child1 t u : Trie ν} {b : Bool}

theorem find_branch : (branch pre value b t u).find p =
    if p = pre then some value
    else p[pre.length]?.bind fun b' => if b' = b then t.find p else u.find p := by
  unfold branch
  cases b <;> simp only [if_true, if_false, Bool.false_eq_true, find]
  all_goals
    split
    · rfl
    · cases p[pre.length]? with
      | none => rfl
      | some b' => cases b' <;> simp

theorem wellFormed_branch (hctx : ctx <+: pre) (hlen : pre.length ≤ bound) (ht : WellFormed bound (pre ++ [b]) t)
    (hu : WellFormed bound (pre ++ [!b]) u) : WellFormed bound ctx (branch pre value b t u) := by
  cases b
  · exact ⟨hctx, hlen, ht, hu⟩
  · exact ⟨hctx, hlen, hu, ht⟩

theorem WellFormed.prefix_of_find (h : WellFormed bound ctx t) (hp : t.find p ≠ none) : ctx <+: p := by
  induction t generalizing ctx with
  | nil => exact absurd rfl hp
  | node pre value child0 child1 ih0 ih1 =>
    obtain ⟨hctx, -, h0, h1⟩ := h
    rw [find] at hp
    split at hp
    · next heq => exact heq ▸ hctx
    · split at hp
      · exact absurd rfl hp
      · exact hctx.trans (snoc_prefix_iff.mp (ih0 h0 hp)).1
      · exact hctx.trans (snoc_prefix_iff.mp (ih1 h1 hp)).1

theorem WellFormed.find_eq_none (h : WellFormed bound ctx t) (hp : ¬ ctx <+: p) : t.find p = none := by
  by_contra hne
  exact hp (h.prefix_of_find hne)

theorem WellFormed.find_node_eq_none (h : WellFormed bound ctx (.node pre value child0 child1)) (hp : ¬ pre <+: p) :
    (Trie.node pre value child0 child1).find p = none := by
  obtain ⟨-, hlen, h0, h1⟩ := h
  have h' : WellFormed bound pre (.node pre value child0 child1) := ⟨List.prefix_rfl, hlen, h0, h1⟩
  exact h'.find_eq_none hp

/-- The two strings part behind their common prefix. -/
theorem parting {p : List Bool} (hp : ¬ p <+: q) (hq : ¬ q <+: p) :
    q.take (common p q) ++ [q.getD (common p q) false] <+: q ∧
      q.take (common p q) ++ [!q.getD (common p q) false] <+: p := by
  have hltp : common p q < p.length :=
    lt_of_le_of_ne (common_le_left p q) fun he => hp ((common_eq_left_iff p q).mp he)
  have hltq : common p q < q.length :=
    lt_of_le_of_ne (common_le_right p q) fun he => hq ((common_eq_right_iff p q).mp he)
  have hlen : (q.take (common p q)).length = common p q := List.length_take_of_le (Nat.le_of_lt hltq)
  have hne := getElem?_common_ne p q hltp hltq
  have hbit : p[common p q] = !q[common p q] := by
    cases hb : p[common p q] <;> cases hb' : q[common p q] <;> simp_all
  rw [List.getD_eq_getElem _ _ hltq]
  constructor
  · refine snoc_prefix_iff.mpr ⟨ List.take_prefix _ q, ?_⟩
    rw [hlen, List.getElem?_eq_getElem hltq]
  · refine snoc_prefix_iff.mpr ⟨take_common p q ▸ List.take_prefix _ p, ?_⟩
    rw [hlen, List.getElem?_eq_getElem hltp, hbit]

theorem WellFormed.insert (h : WellFormed bound ctx t) (hctx : ctx <+: k) (hk : k.length ≤ bound) (v : ν) :
    WellFormed bound ctx (t.insert k v) := by
  induction t generalizing ctx with
  | nil => exact ⟨hctx, hk, trivial, trivial⟩
  | node pre value child0 child1 ih0 ih1 =>
    obtain ⟨hpre, hlen, h0, h1⟩ := h
    rw [Trie.insert]
    split_ifs with hdown heq hup
    · have hnext := snoc_getD_below hdown.1 hdown.2
      split
      · next hbit => exact ⟨hpre, hlen, ih0 h0 (hbit ▸ hnext), h1⟩
      · next hbit => exact ⟨hpre, hlen, h0, ih1 h1 (hbit ▸ hnext)⟩
    · exact ⟨hpre, hlen, h0, h1⟩
    · exact wellFormed_branch hctx hk ⟨snoc_getD_below hup (Ne.symm heq), hlen, h0, h1⟩ trivial
    · have hdown' : ¬ pre <+: k := fun hp => hdown ⟨hp, heq⟩
      obtain ⟨hnew, hold⟩ := parting hdown' hup
      have hle : ctx.length ≤ common pre k := le_common hpre hctx
      refine wellFormed_branch ?_ ?_ ⟨hnew, hk, trivial, trivial⟩ ⟨hold, hlen, h0, h1⟩
      · exact List.prefix_of_prefix_length_le hctx ( List.take_prefix _ k)
          (by rw [List.length_take_of_le (common_le_right pre k)]; exact hle)
      · exact Nat.le_trans (List.length_take_le' _ k) hk

theorem find_child0 (hne : p ≠ pre) (hb : p[pre.length]? = some false) :
    (Trie.node pre value child0 child1).find p = child0.find p := by
  simp [find, hne, hb]

theorem find_child1 (hne : p ≠ pre) (hb : p[pre.length]? = some true) :
    (Trie.node pre value child0 child1).find p = child1.find p := by
  simp [find, hne, hb]

section

variable (h : WellFormed bound ctx t)
include h

theorem WellFormed.find_insert_self (v : ν) : (t.insert k v).find k = some (some v) := by
  induction t generalizing ctx with
  | nil => simp [Trie.insert, find]
  | node pre value child0 child1 ih0 ih1 =>
    obtain ⟨hpre, hlen, h0, h1⟩ := h
    rw [Trie.insert]
    split_ifs with hdown heq hup
    · have hnext := snoc_getD_below hdown.1 hdown.2
      split
      · next hbit =>
        rw [find_child0 hdown.2.symm (snoc_prefix_iff.mp (hbit ▸ hnext)).2]
        exact ih0 h0
      · next hbit =>
        rw [find_child1 hdown.2.symm (snoc_prefix_iff.mp (hbit ▸ hnext)).2]
        exact ih1 h1
    · simp [find, heq]
    · rw [find_branch, if_pos rfl]
    · have hdown' : ¬ pre <+: k := fun hp => hdown ⟨hp, heq⟩
      obtain ⟨hnew, -⟩ := parting hdown' hup
      have hne : k ≠ k.take (common pre k) := by
        intro he
        rw [← he] at hnew
        have := hnew.length_le
        rw [List.length_append, List.length_singleton] at this
        omega
      rw [find_branch, if_neg hne, (snoc_prefix_iff.mp hnew).2]
      simp [find]

/-- Besides the inserted node at most a branch without a value is new, and it is
shorter than the inserted string. -/
theorem WellFormed.find_insert_of_ne (hp : p ≠ k) (v : ν) :
    (t.insert k v).find p = t.find p ∨
      t.find p = none ∧ (t.insert k v).find p = some none ∧ p.length < k.length := by
  induction t generalizing ctx with
  | nil =>
    left
    simp [Trie.insert, find, hp]
    split <;> rfl
  | node pre value child0 child1 ih0 ih1 =>
    have hnode := h
    obtain ⟨hpre, hlen, h0, h1⟩ := h
    rw [Trie.insert]
    split_ifs with hdown heq hup
    · split
      · simp only [find]
        split
        · exact .inl rfl
        · split
          · exact .inl rfl
          · exact ih0 h0
          · exact .inl rfl
      · simp only [find]
        split
        · exact .inl rfl
        · split
          · exact .inl rfl
          · exact .inl rfl
          · exact ih1 h1
    · simp [find, heq ▸ hp]
    · left
      rw [find_branch, if_neg hp]
      by_cases hext : pre <+: p
      · have hbit := snoc_prefix_iff.mp ((snoc_getD_below hup (Ne.symm heq)).trans hext)
        simp [hbit.2]
      · rw [hnode.find_node_eq_none hext]
        cases p[k.length]? with
        | none => rfl
        | some b => simp [find]
    · have hdown' : ¬ pre <+: k := fun hp => hdown ⟨hp, heq⟩
      obtain ⟨hnew, hold⟩ := parting hdown' hup
      rw [find_branch]
      split
      · next hbranch =>
        right
        have hlt : p.length < k.length := by
          have := hnew.length_le
          rw [List.length_append, ← hbranch] at this
          exact this
        have hnot : ¬ pre <+: p := by
          intro hext
          have := Nat.le_trans hold.length_le hext.length_le
          rw [List.length_append, List.length_singleton, ← hbranch] at this
          omega
        exact ⟨hnode.find_node_eq_none hnot, rfl, hlt⟩
      · left
        by_cases hext : pre <+: p
        · have hbit := (snoc_prefix_iff.mp (hold.trans hext)).2
          rw [hbit, Option.bind_some, if_neg (by simp)]
        · rw [hnode.find_node_eq_none hext]
          cases p[(k.take (common pre k)).length]? with
          | none => rfl
          | some b =>
            simp only [Option.bind_some, find, hp, if_false]
            split
            · split <;> rfl
            · rfl

theorem WellFormed.erase (k : List Bool) : WellFormed bound ctx (t.erase k) := by
  induction t generalizing ctx with
  | nil => trivial
  | node pre value child0 child1 ih0 ih1 =>
    obtain ⟨hpre, hlen, h0, h1⟩ := h
    rw [Trie.erase]
    split_ifs
    · split
      · exact ⟨hpre, hlen, ih0 h0, h1⟩
      · exact ⟨hpre, hlen, h0, ih1 h1⟩
    · exact ⟨hpre, hlen, h0, h1⟩
    · exact ⟨hpre, hlen, h0, h1⟩

theorem WellFormed.find_erase : (t.erase k).find p = if p = k then (t.find k).map fun _ => none else t.find p := by
  induction t generalizing ctx with
  | nil => simp [Trie.erase, find]
  | node pre value child0 child1 ih0 ih1 =>
    have hnode := h
    obtain ⟨-, -, h0, h1⟩ := h
    rw [Trie.erase]
    by_cases hpk : p = k
    · subst hpk
      rw [if_pos rfl]
      split_ifs with hdown heq
      · have hnext := snoc_getD_below hdown.1 hdown.2
        split
        · next hbit =>
          have hb := (snoc_prefix_iff.mp (hbit ▸ hnext)).2
          rw [find_child0 hdown.2.symm hb, find_child0 hdown.2.symm hb, ih0 h0, if_pos rfl]
        · next hbit =>
          have hb := (snoc_prefix_iff.mp (hbit ▸ hnext)).2
          rw [find_child1 hdown.2.symm hb, find_child1 hdown.2.symm hb, ih1 h1, if_pos rfl]
      · simp [find, heq]
      · have hnot : ¬ pre <+: p := fun hp => hdown ⟨hp, heq⟩
        rw [hnode.find_node_eq_none hnot]
        rfl
    · split_ifs with hdown heq
      · split
        · simp only [find, ih0 h0, if_neg hpk]
        · simp only [find, ih1 h1, if_neg hpk]
      · have hne : p ≠ pre := heq ▸ hpk
        simp only [find, if_neg hne]
      · rfl

end

section

variable (h : WellFormed bound ctx (.node pre value child0 child1))
include h

/-- The longest known prefix of a query in a trie is looked for below the node that
the query passes, then at the node itself. -/
theorem WellFormed.longest_of_apart (hp : ¬ pre <+: p) :
    longest (Trie.node pre value child0 child1).get p = none := by
  apply longestUpTo_eq_none
  intro j _
  have hnot : ¬ pre <+: p.take j := fun hpre => hp (hpre.trans ( List.take_prefix j p))
  rw [get, h.find_node_eq_none hnot]
  rfl

theorem WellFormed.longest_node (hpre : pre <+: p)
    (upper : Trie ν) (hup : ∀ j ≤ pre.length, upper.get (p.take j) = none)
    (hagree : ∀ j, pre.length < j → j ≤ p.length →
      (Trie.node pre value child0 child1).get (p.take j) = upper.get (p.take j)) :
    longest (Trie.node pre value child0 child1).get p = (longest upper.get p).or value := by
  have htake : p.take pre.length = pre := (List.prefix_iff_eq_take.mp hpre).symm
  have hvalue : (Trie.node pre value child0 child1).get (p.take pre.length) = value := by
    simp [get, find, htake]
  rw [longest, longest, longestUpTo_split hpre.length_le _ hup hagree, hvalue]
  intro j hj
  have hnot : ¬ pre <+: p.take j := by
    intro hext
    have := Nat.le_trans hext.length_le (List.length_take_le j p)
    omega
  rw [get, h.find_node_eq_none hnot]
  rfl

theorem WellFormed.longest_self :
    longest (Trie.node pre value child0 child1).get pre = value := by
  rw [h.longest_node List.prefix_rfl .nil (fun _ _ => rfl) fun j hj hle => absurd hj (by omega), longest,
    longestUpTo_eq_none fun _ _ => rfl, Option.none_or]

theorem WellFormed.longest_child (hnext : pre ++ [b] <+: p) :
    longest (Trie.node pre value child0 child1).get p =
      (longest (if b then child1 else child0).get p).or value := by
  obtain ⟨hpre, hbit⟩ := snoc_prefix_iff.mp hnext
  have hchild : WellFormed bound (pre ++ [b]) (if b then child1 else child0) := by
    cases b
    · exact h.2.2.1
    · exact h.2.2.2
  apply h.longest_node hpre
  · intro j hj
    have hnot : ¬ pre ++ [b] <+: p.take j := by
      intro hext
      have := Nat.le_trans hext.length_le (List.length_take_le j p)
      rw [List.length_append, List.length_singleton] at this
      omega
    rw [get, hchild.find_eq_none hnot]
    rfl
  · intro j hj hle
    have hbit' : (p.take j)[pre.length]? = some b := by
      rw [List.getElem?_take_of_lt hj, hbit]
    have hne : p.take j ≠ pre := by
      intro he
      have := congrArg List.length he
      rw [List.length_take_of_le hle] at this
      omega
    cases b
    · rw [get, find_child0 hne hbit']
      rfl
    · rw [get, find_child1 hne hbit']
      rfl

end

end Trie

end PrefixTrie
