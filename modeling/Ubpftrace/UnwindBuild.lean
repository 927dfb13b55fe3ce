import Ubpftrace.UnwindTable

/-!
# Building the unwind table

`build_recurse` writes the bytes of a well-formed tree over its range of entries, and
`dwunwind_build_table` ends with a range of at least four of them unless fewer are left.
A table of four entries or more has a node at its root and is read as it was written; a
shorter one is a single leaf without the marker, which the reader takes for a node.
-/

namespace UnwindTable

open Bytes DoubleQuotients

/-! ## Sizes -/

theorem length_encDummy : encDummy.length = 2 := rfl

theorem length_encEntry (ownKey : Nat) (e : Entry) :
    2 ≤ (encEntry ownKey e).length ∧ (encEntry ownKey e).length ≤ 13 := by
  have := length_encRelKey (sub64 e.1 ownKey)
  have := length_encValue e.2
  rw [encEntry, List.length_append]
  omega

theorem length_encLeaf {parentKey : Nat} {es : List Entry} {marker : Bool} (hlen : es.length ≤ 3) :
    2 * es.length ≤ (encLeaf parentKey es marker).length ∧
      (encLeaf parentKey es marker).length ≤ max 7 (24 * es.length) := by
  have hmarker : (if marker then encLeafMarker else []).length ≤ 1 := by cases marker <;> decide
  match es, hlen with
  | [], _ =>
    have : (encRelKey 0 ++ ((if marker then encLeafMarker else []) ++ encLeafBody [])).length ≤ 7 := by
      cases marker <;> decide
    exact ⟨Nat.zero_le _, this⟩
  | [e], _ =>
    have := length_encRelKey (sub64 e.1 parentKey)
    have := length_encValue e.2
    rw [encLeaf_of_own rfl]
    simp only [encLeafBody, List.length_append, length_encDummy, List.length_cons, List.length_nil]
    omega
  | [l, e], _ =>
    have := length_encRelKey (sub64 e.1 parentKey)
    have := length_encValue e.2
    have := length_encEntry e.1 l
    rw [encLeaf_of_own rfl]
    simp only [encLeafBody, List.length_append, length_encDummy, List.length_cons, List.length_nil]
    omega
  | [l, e, r], _ =>
    have := length_encRelKey (sub64 e.1 parentKey)
    have := length_encValue e.2
    have := length_encEntry e.1 l
    have := length_encEntry e.1 r
    rw [encLeaf_of_own rfl]
    simp only [encLeafBody, List.length_append, List.length_cons, List.length_nil]
    omega

section Pointers

variable {toLeaf : Bool} {relPtr : Nat} {bs : List UInt8}

theorem encPtr_isSome_iff : (encPtr toLeaf relPtr).isSome ↔ relPtr ≤ 0x3ffff := by
  unfold encPtr encRelLeafPtr encRelPtr
  split_ifs <;> simp <;> omega

theorem length_encPtr (h : encPtr toLeaf relPtr = some bs) : bs.length ≤ 3 := by
  unfold encPtr encRelLeafPtr encRelPtr at h
  split_ifs at h <;> cases h <;> simp

end Pointers

/-- A table takes between 2 and 24 bytes an entry, an empty leaf 7 at most. -/
theorem length_encode {parentKey : Nat} {isLeaf : Bool} (T : Tree) (hwf : WellFormed isLeaf T) :
    2 * T.entries.length ≤ (encode parentKey T).length ∧
      (encode parentKey T).length ≤ max 7 (24 * T.entries.length) := by
  induction T generalizing isLeaf parentKey with
  | leaf es marker => exact length_encLeaf hwf.1
  | node left key value right ihl ihr =>
    obtain ⟨-, hfull, hwl, hwr, hfits⟩ := hwf
    obtain ⟨ptr, hptr⟩ := Option.isSome_iff_exists.mp hfits
    have hkey := length_encRelKey (sub64 key parentKey)
    have hvalue := length_encValue value
    have hptr_len := length_encPtr hptr
    have hl := @ihl key _ hwl
    have hr := @ihr key _ hwr
    rw [encode, hptr, Option.getD_some]
    simp only [Tree.entries, List.length_append, List.length_cons]
    omega

/-! ## The ranges of entries -/

section Build

variable {entries : List Entry}

/-- The entries from `start` on, `len` of them. -/
def segment (entries : List Entry) (start len : Nat) : List Entry := (entries.drop start).take len

variable {start len : Nat}

theorem length_segment (h : start + len ≤ entries.length) : (segment entries start len).length = len := by
  rw [segment, List.length_take, List.length_drop]
  omega

theorem segment_eq_map (h : start + len ≤ entries.length) :
    segment entries start len = (List.range len).map fun i => entries.getD (start + i) (0, 0) := by
  apply List.ext_getElem
  · rw [length_segment h, List.length_map, List.length_range]
  · intro i hi _
    rw [length_segment h] at hi
    have hlt : start + i < entries.length := by omega
    simp [segment, hlt]

theorem segment_split {s : Nat} (hs : s < len) (h : start + len ≤ entries.length) :
    segment entries start len =
      segment entries start s ++ entries.getD (s + start) (0, 0) :: segment entries (s + start + 1)
        (len - (s + 1)) := by
  have hlt : s + start < entries.length := by omega
  have hlen : len = s + (1 + (len - (s + 1))) := by omega
  have hown : entries.getD (s + start) (0, 0) = entries[s + start] := by simp [hlt]
  rw [hown, segment]
  nth_rewrite 1 [hlen]
  rw [List.take_add, List.drop_drop, Nat.add_comm start s, List.drop_eq_getElem_cons hlt, Nat.add_comm 1,
    List.take_succ_cons]
  rfl

theorem Valid.segment (h : Valid entries) : Valid (segment entries start len) :=
  h.sublist ((List.take_sublist _ _).trans (List.drop_sublist _ _))

-- `sub64` must not be unfolded here, so simp is to give explicit proofs
variable {buf : List UInt8} {parentKey : Nat} {unmarkedLeaf : Bool}

theorem buildLeaf_eq (hlen : len ≤ 3)
    (h : start + len ≤ entries.length) :
    buildLeaf entries buf start len parentKey unmarkedLeaf =
      encLeaf parentKey (segment entries start len) unmarkedLeaf ++ buf := by
  rw [segment_eq_map h]
  match len, hlen with
  | 0, _ => cases unmarkedLeaf <;> simp [buildLeaf, push, encLeaf, leafOwn, encLeafBody, encDummy]
  | 1, _ =>
    rw [show List.range 1 = [0] from rfl, List.map_cons, List.map_nil, encLeaf_of_own rfl]
    cases unmarkedLeaf <;> simp -implicitDefEqProofs [buildLeaf, push, encLeafBody, encDummy]
  | 2, _ =>
    rw [show List.range 2 = [0, 1] from rfl, List.map_cons, List.map_cons, List.map_nil, encLeaf_of_own rfl]
    cases unmarkedLeaf <;> simp -implicitDefEqProofs [buildLeaf, push, encLeafBody, encDummy, encEntry]
  | 3, _ =>
    rw [show List.range 3 = [0, 1, 2] from rfl, List.map_cons, List.map_cons, List.map_cons, List.map_nil,
      encLeaf_of_own rfl]
    cases unmarkedLeaf <;> simp -implicitDefEqProofs [buildLeaf, push, encLeafBody, encEntry]

/-! ## One table -/

variable {fuel : Nat}

/-- The split point is the largest `2 ^ i - 1` that leaves the tree its own entry. -/
theorem splitLoop_spec {split j : Nat} (hsplit : split + 1 = 2 ^ j) (hle : split + 1 ≤ len) (hlen : len < 2 ^ 63)
    (hfuel : len < 2 ^ (j + fuel)) :
    ∃ s i, splitLoop len fuel split = some s ∧ j ≤ i ∧ s + 1 = 2 ^ i ∧ s + 1 ≤ len ∧ len < 2 * s + 2 := by
  induction fuel generalizing split j with
  | zero =>
    rw [Nat.add_zero, ← hsplit] at hfuel
    omega
  | succ fuel ih =>
    have hnext : (2 * split + 1 + 1) % wordSize = 2 * split + 1 + 1 := Nat.mod_eq_of_lt (by unfold wordSize; omega)
    have hnext' : (2 * split + 1) % wordSize = 2 * split + 1 := Nat.mod_eq_of_lt (by unfold wordSize; omega)
    rw [splitLoop, hnext, hnext']
    split
    · next hmore =>
      have hpow : 2 * split + 1 + 1 = 2 ^ (j + 1) := by
        rw [Nat.pow_succ, ← hsplit]
        omega
      rw [show j + (fuel + 1) = j + 1 + fuel by omega] at hfuel
      obtain ⟨s, i, hs, hi, hrest⟩ := ih hpow hmore hfuel
      exact ⟨s, i, hs, by omega, hrest⟩
    · exact ⟨split, j, rfl, Nat.le_refl j, hsplit, hle, by omega⟩

/-- For lengths of `2 ^ 63` and more the search for the split point does not end. -/
theorem splitLoop_diverges {split : Nat} (hlen : 2 ^ 63 ≤ len)
    (hsplit : (∃ j ≤ 64, split + 1 = 2 ^ j)) : splitLoop len fuel split = none := by
  induction fuel generalizing split with
  | zero => rfl
  | succ fuel ih =>
    obtain ⟨j, hj, hsplit⟩ := hsplit
    have hcond : (2 * split + 1 + 1) % wordSize ≤ len ∧ ∃ j ≤ 64, (2 * split + 1) % wordSize + 1 = 2 ^ j := by
      obtain hlt | rfl | rfl : j < 63 ∨ j = 63 ∨ j = 64 := by omega
      · have hpow : 2 ^ (j + 1) ≤ 2 ^ 63 := Nat.pow_le_pow_right (by decide) hlt
        have hdouble : 2 * split + 1 + 1 = 2 ^ (j + 1) := by
          rw [Nat.pow_succ, ← hsplit]
          omega
        refine ⟨Nat.le_trans (Nat.mod_le _ _) (by omega), j + 1, by omega, ?_⟩
        rw [← hdouble, Nat.mod_eq_of_lt (by unfold wordSize; omega)]
      all_goals exact ⟨by unfold wordSize; omega, 64, Nat.le_refl 64, by unfold wordSize; omega⟩
    rw [splitLoop, if_pos hcond.1]
    exact ih hcond.2

/-- What a call of `build_recurse` writes over the entries `es`. -/
structure Built (es : List Entry) (unmarkedLeaf : Bool) (T : Tree) : Prop where
  entries : T.entries = es
  wellFormed : WellFormed (decide (es.length ≤ 3) && !unmarkedLeaf) T
  isLeaf : T.isLeaf = decide (es.length ≤ 3)
  height : ∀ h, es.length < 2 ^ (h + 2) → T.height ≤ h

theorem sub64_of_le {a b : Nat} (h : b ≤ a) (ha : a < wordSize) : sub64 a b = a - b := by
  unfold sub64 wordSize at *
  omega

theorem forall_segment_iff (h : start + len ≤ entries.length) (P : Entry → Prop) :
    (∀ e ∈ segment entries start len, P e) ↔ ∀ i < len, P (entries.getD (start + i) (0, 0)) := by
  simp [segment_eq_map h]

theorem buildRecurse_leaf {stop : Nat} (hend : start + len ≤ entries.length)
    (hlen : sub64 stop start = len) (hle : len ≤ 3) :
    buildRecurse entries (fuel + 1) buf start stop parentKey unmarkedLeaf =
      if ∀ e ∈ segment entries start len, e.2 ≤ maxValue then
        some (some (buildLeaf entries buf start len parentKey unmarkedLeaf))
      else none := by
  subst hlen
  rw [buildRecurse, if_pos hle, if_congr (forall_segment_iff hend _) rfl rfl]

theorem buildRecurse_node {stop s rest : Nat}
    (hlen : sub64 stop start = len) (hgt : ¬ len ≤ 3) (hsplit : splitPoint len = some s)
    (hleft : sub64 (s + start) start = s) (hright : sub64 stop (s + start + 1) = rest) :
    buildRecurse entries (fuel + 1) buf start stop parentKey unmarkedLeaf =
      (buildRecurse entries fuel buf start (s + start) (entries.getD (s + start) (0, 0)).1 false).bind fun left =>
        left.elim (some none) fun lbuf =>
          (buildRecurse entries fuel lbuf (s + start + 1) stop (entries.getD (s + start) (0, 0)).1
            (decide (rest ≤ 3) && !decide (s = 3))).bind fun right =>
            right.elim (some none) fun rbuf =>
              if (entries.getD (s + start) (0, 0)).2 ≤ maxValue then
                some (buildNode (entries.getD (s + start) (0, 0)) parentKey (decide (s = 3)) lbuf rbuf)
              else none := by
  subst hlen hright
  rw [buildRecurse, if_neg hgt, hsplit, Option.bind_some]
  simp only [hleft]

theorem splitPoint_spec (hgt : 3 < len) (hlen : len < 2 ^ 63) :
    ∃ s i, splitPoint len = some s ∧ 2 ≤ i ∧ s + 1 = 2 ^ i ∧ s + 1 ≤ len ∧ len < 2 * s + 2 :=
  splitLoop_spec rfl hgt hlen (Nat.lt_trans hlen (by decide))

variable {own : Entry}

theorem buildNode_eq {L R : Tree} {lbuf : List UInt8}
    (hlbuf : lbuf = encode own.1 L ++ buf) :
    buildNode own parentKey L.isLeaf lbuf (encode own.1 R ++ lbuf) =
      if (encPtr L.isLeaf (encValue own.2 ++ encode own.1 R).length).isSome then
        some (encode parentKey (.node L own.1 own.2 R) ++ buf) else none := by
  have hbehind : (push (encode own.1 R ++ lbuf) (encValue own.2)).length - lbuf.length =
      (encValue own.2 ++ encode own.1 R).length := by
    simp only [push, List.length_append]
    omega
  rw [buildNode, hbehind]
  cases hptr : encPtr L.isLeaf (encValue own.2 ++ encode own.1 R).length with
  | none => rfl
  | some ptr =>
    rw [Option.map_some, Option.isSome_some, if_pos rfl, encode, hptr, Option.getD_some, hlbuf]
    simp only [push, List.append_assoc]

/-- The two halves of a node's entries take half of the height. -/
theorem split_small {s i h : Nat} (hpow : s + 1 = 2 ^ i) (hown : s + 1 ≤ len) (hhalf : len < 2 * s + 2)
    (hlen : len < 2 ^ (h + 1)) : s < 2 ^ h ∧ len - (s + 1) < 2 ^ h := by
  have hlt : i < h + 1 := (Nat.pow_lt_pow_iff_right (by decide)).mp (by omega : 2 ^ i < 2 ^ (h + 1))
  have hle : 2 ^ i ≤ 2 ^ h := Nat.pow_le_pow_right (by decide) (by omega)
  omega

/-- A leaf on the left means a leaf on the right, so that only a right leaf beside a node
needs the marker. -/
theorem Built.node {es es' : List Entry} {L R : Tree} {i : Nat}
    (hleft : Built es false L)
    (hright : Built es' (decide (es'.length ≤ 3) && !decide (es.length = 3)) R) (hthree : 3 ≤ es.length)
    (hpow : es.length + 1 = 2 ^ i) (hhalf : es'.length ≤ es.length)
    (hfits : (encPtr L.isLeaf (encValue own.2 ++ encode own.1 R).length).isSome) :
    Built (es ++ own :: es') unmarkedLeaf (.node L own.1 own.2 R) where
  entries := by rw [Tree.entries, hleft.entries, hright.entries]
  wellFormed := by
    have hlong : ¬ (es ++ own :: es').length ≤ 3 := by
      rw [List.length_append, List.length_cons]
      omega
    have hwl := hleft.wellFormed
    have hwr := hright.wellFormed
    rw [Bool.not_false, Bool.and_true, ← hleft.isLeaf] at hwl
    refine ⟨by rw [decide_eq_false hlong, Bool.false_and], by rw [hleft.entries]; omega, hwl, ?_, hfits⟩
    rw [hleft.isLeaf]
    by_cases hleaf : es.length = 3
    · have hrest : es'.length ≤ 3 := by omega
      simpa only [hleaf, hrest, decide_true, Bool.not_true, Bool.and_false, Bool.not_false, Bool.and_true,
        Nat.le_refl] using hwr
    · have hnode : ¬ es.length ≤ 3 := by omega
      simpa only [hleaf, hnode, decide_false, Bool.not_false, Bool.and_true, Bool.and_not_self] using hwr
  isLeaf := by
    refine (decide_eq_false ?_).symm
    rw [List.length_append, List.length_cons]
    omega
  height := by
    intro h hlen
    rw [List.length_append, List.length_cons] at hlen
    obtain ⟨hsmall, hsmall'⟩ := split_small hpow (by omega) (by omega) hlen
    have hpos : 1 ≤ h := by
      by_contra hzero
      obtain rfl : h = 0 := by omega
      omega
    obtain ⟨h, rfl⟩ : ∃ k, h = k + 1 := ⟨h - 1, by omega⟩
    have hl := hleft.height h hsmall
    have hr := hright.height h (Nat.lt_of_le_of_lt hhalf hsmall)
    rw [Tree.height]
    omega

/-- What a call of `build_recurse` with a buffer ends with. -/
inductive Outcome (es : List Entry) (unmarkedLeaf : Bool) (parentKey : Nat) (buf : List UInt8) :
    Option (Option (List UInt8)) → Prop
  | gaveUp (hlen : 10000 < es.length) : Outcome es unmarkedLeaf parentKey buf (some none)
  | built {T : Tree} (hT : Built es unmarkedLeaf T) :
    Outcome es unmarkedLeaf parentKey buf (some (some (encode parentKey T ++ buf)))
  | bug {e : Entry} (he : e ∈ es) (hlarge : ¬ e.2 ≤ maxValue) : Outcome es unmarkedLeaf parentKey buf none

theorem buildNode_outcome {es es' : List Entry} {L R : Tree} {s rest i : Nat}
    (hs : es.length = s) (hrest : es'.length = rest) (hleft : Built es false L)
    (hright : Built es' (decide (rest ≤ 3) && !decide (s = 3)) R) (hi : 2 ≤ i) (hpow : s + 1 = 2 ^ i)
    (hhalf : rest ≤ s) :
    Outcome (es ++ own :: es') unmarkedLeaf parentKey buf
      (some (buildNode own parentKey (decide (s = 3)) (encode own.1 L ++ buf)
        (encode own.1 R ++ (encode own.1 L ++ buf)))) := by
  subst hs hrest
  have hthree : 2 ^ 2 ≤ 2 ^ i := Nat.pow_le_pow_right (by decide) hi
  have hisLeaf : decide (es.length = 3) = L.isLeaf := by
    rw [hleft.isLeaf]
    exact decide_eq_decide.mpr (by omega)
  rw [hisLeaf, buildNode_eq rfl]
  split
  · next hfits => exact .built (hleft.node hright (by omega) hpow hhalf hfits)
  · next hfits =>
    refine .gaveUp ?_
    have hvalue := length_encValue own.2
    have hsize := @length_encode own.1 _ R hright.wellFormed
    rw [hright.entries] at hsize
    rw [encPtr_isSome_iff, List.length_append] at hfits
    rw [List.length_append, List.length_cons]
    omega

/-- `build_recurse` writes a tree over its entries; it gives up over more than 10000 of them only, and
does not return only for a value that is too large. -/
theorem buildRecurse_spec (hsize : entries.length < wordSize) (fuel : Nat)
    (hend : start + len ≤ entries.length) (hlen : len < 2 ^ 63) (hpos : 1 ≤ fuel)
    (hfuel : len < 2 ^ (fuel + 1)) :
    Outcome (segment entries start len) unmarkedLeaf parentKey buf
      (buildRecurse entries fuel buf start (start + len) parentKey unmarkedLeaf) := by
  induction fuel generalizing start len parentKey buf unmarkedLeaf with
  | zero => omega
  | succ fuel ih =>
    have hwhole : sub64 (start + len) start = len := by
      rw [sub64_of_le (Nat.le_add_right _ _) (by omega), Nat.add_sub_cancel_left]
    have hsegment := length_segment hend
    by_cases hleaf : len ≤ 3
    · rw [buildRecurse_leaf hend hwhole hleaf, buildLeaf_eq hleaf hend]
      split
      · refine .built (T := .leaf (segment entries start len) unmarkedLeaf) ⟨rfl, ?_, ?_, fun h _ => Nat.zero_le h⟩
        · rw [WellFormed, hsegment, decide_eq_true hleaf, Bool.true_and, Bool.not_not]
          exact ⟨hleaf, rfl⟩
        · rw [hsegment, decide_eq_true hleaf]
          rfl
      · next hlarge =>
        obtain ⟨e, he, hvalue⟩ : ∃ e ∈ segment entries start len, ¬ e.2 ≤ maxValue := by simpa using hlarge
        exact .bug he hvalue
    · obtain ⟨s, i, hsplit, hi, hpow, hown, hhalf⟩ := splitPoint_spec (Nat.lt_of_not_le hleaf) hlen
      obtain ⟨hsfuel, hrfuel⟩ := split_small hpow hown hhalf hfuel
      have hdeeper : 1 ≤ fuel := by
        by_contra hzero
        obtain rfl : fuel = 0 := by omega
        omega
      have hlast : start + len = s + start + 1 + (len - (s + 1)) := by omega
      have hleft : sub64 (s + start) start = s := by
        rw [sub64_of_le (Nat.le_add_left _ _) (by omega), Nat.add_sub_cancel]
      have hright : sub64 (start + len) (s + start + 1) = len - (s + 1) := by
        rw [sub64_of_le (by omega) (by omega)]
        omega
      have hls : (segment entries start s).length = s := length_segment (by omega)
      have hrs : (segment entries (s + start + 1) (len - (s + 1))).length = len - (s + 1) := length_segment (by omega)
      rw [buildRecurse_node hwhole hleaf hsplit hleft hright, segment_split hown hend, hlast]
      generalize entries.getD (s + start) (0, 0) = own
      have hl : Outcome (segment entries start s) false own.1 buf
          (buildRecurse entries fuel buf start (s + start) own.1 false) := by
        rw [Nat.add_comm s start]
        exact ih (by omega) (by omega) hdeeper hsfuel
      generalize buildRecurse entries fuel buf start (s + start) own.1 false = left at hl
      cases hl with
      | gaveUp hmany =>
        refine .gaveUp ?_
        rw [List.length_append]
        omega
      | bug he hlarge => exact .bug (List.mem_append_left _ he) hlarge
      | @built L hL =>
        rw [Option.bind_some, Option.elim_some]
        have hr : Outcome (segment entries (s + start + 1) (len - (s + 1)))
            (decide (len - (s + 1) ≤ 3) && !decide (s = 3)) own.1 (encode own.1 L ++ buf)
            (buildRecurse entries fuel (encode own.1 L ++ buf) (s + start + 1) (s + start + 1 + (len - (s + 1))) own.1
              (decide (len - (s + 1) ≤ 3) && !decide (s = 3))) :=
          ih (by omega) (by omega) hdeeper hrfuel
        generalize buildRecurse entries fuel (encode own.1 L ++ buf) (s + start + 1) _ own.1 _ = right at hr
        cases hr with
        | gaveUp hmany =>
          refine .gaveUp ?_
          rw [List.length_append, List.length_cons]
          omega
        | bug he hlarge => exact .bug (List.mem_append_right _ (List.mem_cons_of_mem _ he)) hlarge
        | @built R hR =>
          rw [Option.bind_some, Option.elim_some]
          split
          · exact buildNode_outcome hls hrs hL hR hi hpow (by omega)
          · next hlarge => exact .bug (List.mem_append_right _ List.mem_cons_self) hlarge

/-! ## The search for the number of entries -/

theorem bytesPerEntry_eq : 5 * bytesPerEntry = 13 * 2 ^ 51 + 1 := by
  unfold bytesPerEntry
  rfl

/-- The unit in the last place of such a quotient. -/
theorem exists_scale {x D : Nat} (hx : x < 2 ^ 48) (hD : 5 * D = 13 * 2 ^ 51 + 1) :
    ∃ k, Nat.log2 (x * 2 ^ 51 / D) + k = 52 ∧ 4 ≤ k ∧ x * 2 ^ k < 4 * D := by
  by_cases hzero : x * 2 ^ 51 / D = 0
  · have hlt : x * 2 ^ 51 < D := (Nat.div_eq_zero_iff.mp hzero).resolve_left (by omega)
    rw [hzero, Nat.log2_zero]
    have hunits : x * 2 ^ 52 < 4 * D := by
      rw [Nat.pow_succ, ← Nat.mul_assoc]
      generalize x * 2 ^ 51 = y at hlt
      omega
    exact ⟨52, Nat.zero_add 52, by decide, hunits⟩
  · obtain ⟨hlow, hhigh⟩ := log2_bounds hzero (by omega)
    generalize Nat.log2 (x * 2 ^ 51 / D) = e at hlow hhigh ⊢
    have hexp : e < 48 := by
      have hlt : 2 ^ e * D < 2 ^ 48 * D := by omega
      exact (Nat.pow_lt_pow_iff_right (by decide)).mp (Nat.lt_of_mul_lt_mul_right hlt)
    obtain ⟨k, hk⟩ : ∃ k, e + k = 52 := ⟨52 - e, by omega⟩
    have hpow : 2 ^ (e + 1) * D * 2 ^ k = 2 ^ 53 * D := by
      rw [Nat.mul_right_comm, ← Nat.pow_add, show e + 1 + k = 53 by omega]
    have hmul : x * 2 ^ 51 * 2 ^ k < 2 ^ 53 * D := hpow ▸ Nat.mul_lt_mul_of_pos_right hhigh (Nat.two_pow_pos k)
    rw [Nat.mul_right_comm] at hmul
    exact ⟨k, hk, by omega, by omega⟩

/-- For sizes that occur, the quotient in double precision is exact. -/
theorem estimate_eq {x : Nat} (hx : x < 2 ^ 48) : estimate x = 5 * x / 13 := by
  have hofNat : ofNat x = x := ofNat_eq (by omega)
  have hD := bytesPerEntry_eq
  rw [estimate, hofNat]
  generalize bytesPerEntry = D at hD
  obtain ⟨k, hk, hfine, hunits⟩ := exists_scale hx hD
  have hpow : 2 ^ 4 ≤ 2 ^ k := Nat.pow_le_pow_right (by decide) hfine
  have hlow : 13 * (5 * x / 13 * 2 ^ k) ≤ 5 * (x * 2 ^ k) := by
    rw [← Nat.mul_assoc, ← Nat.mul_assoc]
    exact Nat.mul_le_mul_right _ (by omega)
  have hhigh : 5 * (x * 2 ^ k) + 2 ^ k ≤ 13 * ((5 * x / 13 + 1) * 2 ^ k) := by
    rw [← Nat.mul_assoc, ← Nat.mul_assoc, ← Nat.succ_mul]
    exact Nat.mul_le_mul_right _ (by omega)
  have hbits : x * 2 ^ 51 * 2 ^ k = x * 2 ^ k * 2 ^ 51 := Nat.mul_right_comm _ _ _
  generalize 5 * x / 13 = q at *
  apply quotient_eq (by omega) hk
  · rw [hbits]
    generalize x * 2 ^ k = y at *
    have h5 : 5 * (q * 2 ^ k * D) = q * 2 ^ k * (13 * 2 ^ 51) + q * 2 ^ k := by
      rw [Nat.mul_left_comm, hD, Nat.mul_add, Nat.mul_one]
    generalize q * 2 ^ k = z at *
    omega
  · rw [hbits]
    generalize x * 2 ^ k = y at *
    have h5 : 5 * ((q + 1) * 2 ^ k * D) = (q + 1) * 2 ^ k * (13 * 2 ^ 51) + (q + 1) * 2 ^ k := by
      rw [Nat.mul_left_comm, hD, Nat.mul_add, Nat.mul_one]
    generalize (q + 1) * 2 ^ k = z at *
    omega

variable {size maxSize : Nat}

theorem sizeDiff_eq (hsize : size < 2 ^ 62) (hmax : maxSize < 2 ^ 62) :
    sizeDiff size maxSize = ((size : Int) - maxSize).natAbs := by
  unfold sizeDiff toSigned sub64 wordSize
  omega

/-- The `max_size` of a table that has a map of its own. -/
def maxTableSize : Nat := offsetmapSize - 16

variable {n : Nat}

theorem buildEntries_spec (hsize : entries.length < wordSize) (hend : start + n ≤ entries.length)
    (hn : n < 2 ^ 63) : Outcome (segment entries start n) false 0 [] (buildEntries entries start n) := by
  rw [buildEntries, Nat.mod_eq_of_lt (by omega)]
  exact buildRecurse_spec hsize 64 hend hn (by decide) (by omega)

theorem buildEntries_huge (hstart : start < wordSize) (hlow : 2 ^ 63 ≤ n) (hhigh : n < wordSize) :
    buildEntries entries start n = none := by
  have hlen : sub64 ((start + n) % wordSize) start = n := by
    unfold sub64 wordSize at *
    omega
  have hsplit : splitPoint n = none := splitLoop_diverges hlow ⟨2, by decide, rfl⟩
  rw [buildEntries, buildRecurse, hlen, if_neg (by omega), hsplit, Option.bind_none]

/-- A table of `result.2` entries. -/
structure IsTable (entries : List Entry) (start : Nat) (result : List UInt8 × Nat) (T : Tree) : Prop where
  inside : start + result.2 ≤ entries.length
  built : Built (segment entries start result.2) false T
  bytes : result.1 = encode 0 T

section

variable (hsize : entries.length < wordSize) (hend : start + n ≤ entries.length) (hn : n < 2 ^ 63)
include hsize hend hn

theorem isTable_of_built (hbuilt : buildEntries entries start n = some (some buf)) :
    ∃ T, IsTable entries start (buf, n) T := by
  have hout := buildEntries_spec hsize hend hn
  rw [hbuilt] at hout
  cases hout with
  | @built T hT => exact ⟨T, hend, hT, List.append_nil _⟩

theorem length_buildEntries (hbuilt : buildEntries entries start n = some (some buf)) :
    2 * n ≤ buf.length ∧ buf.length ≤ max 7 (24 * n) := by
  obtain ⟨T, -, hT, hbytes⟩ := isTable_of_built hsize hend hn hbuilt
  have hlen := @length_encode 0 _ T hT.wellFormed
  rwa [hT.entries, length_segment hend, ← hbytes] at hlen

/-- `build_recurse` gives up over many entries only. -/
theorem many_of_none (hbuilt : buildEntries entries start n = some none) : 10000 < n := by
  have hout := buildEntries_spec hsize hend hn
  rw [hbuilt] at hout
  cases hout with
  | gaveUp hlen => rwa [length_segment hend] at hlen

end

/-- The count is between the bounds, or `n - adj` has wrapped around and the next round does not
return. -/
def Counts (left right maxSize n : Nat) : Prop :=
  left ≤ n ∧ n ≤ right ∧ n ≤ maxSize ∨ 2 ^ 63 ≤ n ∧ n < wordSize

/-- The state of the loop, where `m` entries have room in any case. What the lower bound stands
for has been built. -/
structure Searching (entries : List Entry) (start maxSize m : Nat) (s : Search) : Prop where
  left_eq : s.result.2 = s.left
  left_le : s.left ≤ s.right ∧ s.left ≤ maxSize
  right_le : start + s.right ≤ entries.length
  right_ge : min (entries.length - start) m ≤ s.right
  fits : s.result.1.length ≤ maxSize
  built : 0 < s.left → buildEntries entries start s.left = some (some s.result.1)
  count : s.left < s.right → Counts s.left s.right maxSize s.n

/-- How much is left to do: a candidate at the lower bound does not count. -/
def Search.measure (s : Search) : Nat := 2 * (s.right - s.left) + if s.n = s.left then 1 else 0

variable {m : Nat} {s : Search} {result : List UInt8 × Nat}

theorem Searching.init (hstart : start ≤ entries.length) (hmax : maxSize < 2 ^ 43) :
    Searching entries start maxSize m
      { left := 0, right := entries.length - start, n := min (estimate maxSize) (entries.length - start),
        result := ([], 0) } where
  left_eq := rfl
  left_le := ⟨Nat.zero_le _, Nat.zero_le _⟩
  right_le := by
    dsimp only
    omega
  right_ge := Nat.min_le_left _ _
  fits := Nat.zero_le _
  built := fun h => absurd h (Nat.lt_irrefl 0)
  count := by
    intro _
    left
    dsimp only
    rw [estimate_eq (by omega)]
    omega

theorem Search.round_large (h : maxSize < buf.length) :
    s.round maxSize (some buf) =
      ({ s with right := sub64 s.n 1,
                n := max (sub64 s.n (max (estimate (sizeDiff buf.length maxSize)) 1)) s.left }, false) :=
  if_pos h

theorem Search.round_fits (h : ¬ maxSize < buf.length) :
    s.round maxSize (some buf) =
      ({ s with left := s.n, n := min (s.n + max (estimate (sizeDiff buf.length maxSize)) 1) s.right,
                result := (buf, s.n) }, decide (sizeDiff buf.length maxSize < 100)) :=
  if_neg h

theorem Search.measure_below {n' : Nat} (hlt : s.left < s.n) (hle : s.n ≤ s.right) :
    ({ s with right := s.n - 1, n := n' } : Search).measure < s.measure := by
  simp only [Search.measure]
  split <;> omega

theorem Search.measure_above {adj : Nat} (hge : s.left ≤ s.n) (hgoes : s.left < s.right) (hle : s.n ≤ s.right)
    (hadj : 1 ≤ adj) :
    ({ s with left := s.n, n := min (s.n + adj) s.right, result := result } : Search).measure < s.measure := by
  simp only [Search.measure]
  split <;> split <;> omega

/-- By how many entries the search goes up or down, from the size of a table of `n` entries. -/
theorem adj_le (hbytes : 2 * n ≤ size ∧ size ≤ max 7 (24 * n)) (hn : n ≤ maxSize) (hmax : maxSize < 2 ^ 43)
    (hmin : 100 ≤ maxSize) :
    (maxSize < size → max (estimate (sizeDiff size maxSize)) 1 ≤ 10 * n) ∧
      (maxSize < size → (5 * size < 5 * maxSize + 13 * (n + 1) ↔ max (estimate (sizeDiff size maxSize)) 1 ≤ n)) ∧
      (size ≤ maxSize → n + max (estimate (sizeDiff size maxSize)) 1 ≤ maxSize) := by
  rw [sizeDiff_eq (by omega) (by omega), estimate_eq (by omega)]
  omega

theorem reduced_count {left adj : Nat} (hlt : left < n) (hn : n ≤ maxSize) (hmax : maxSize < 2 ^ 43) (hone : 1 ≤ adj)
    (hadj : adj ≤ 10 * n) :
    Counts left (n - 1) maxSize (max (sub64 n adj) left) := by
  unfold Counts sub64 wordSize
  omega

theorem Searching.below {n' : Nat} (h : Searching entries start maxSize m s) (hlt : s.left < s.n) (hlarge : m < s.n)
    (hle : s.n ≤ s.right) (hn' : Counts s.left (s.n - 1) maxSize n') :
    Searching entries start maxSize m { s with right := s.n - 1, n := n' } where
  __ := h
  left_le := ⟨Nat.le_sub_one_of_lt hlt, h.left_le.2⟩
  right_le := by
    have := h.right_le
    dsimp only
    omega
  right_ge := by
    dsimp only
    omega
  count := fun _ => hn'

theorem Searching.above {adj : Nat} (h : Searching entries start maxSize m s) (hle : s.n ≤ s.right)
    (hbuilt : buildEntries entries start s.n = some (some buf)) (hfits : buf.length ≤ maxSize)
    (hroom : s.n + adj ≤ maxSize) :
    Searching entries start maxSize m { s with left := s.n, n := min (s.n + adj) s.right, result := (buf, s.n) } where
  __ := h
  left_eq := rfl
  left_le := ⟨hle, Nat.le_trans (Nat.le_add_right _ _) hroom⟩
  fits := hfits
  built := fun _ => hbuilt
  count := by
    intro _
    left
    dsimp only
    omega

section Loop

variable (hsize : entries.length < wordSize) (hmax : maxSize < 2 ^ 43) (hm : 24 * m + 100 ≤ maxSize ∧ m ≤ 10000)
  (h : Searching entries start maxSize m s)
include hmax h

section Round

variable (hgoes : s.left < s.right) (hn : s.n ≤ maxSize) {built : Option (List UInt8)}
include hgoes hn

theorem Searching.between : s.left ≤ s.n ∧ s.n ≤ s.right ∧ start + s.n ≤ entries.length := by
  have := h.right_le
  obtain hin | hout := h.count hgoes <;> omega

include hsize hm

/-- A table that is too large is one over more entries than the lower bound. -/
theorem Searching.left_lt (hbuilt : buildEntries entries start s.n = some built)
    (hlarge : ∀ buf, built = some buf → maxSize < buf.length) : s.left < s.n ∧ m < s.n := by
  obtain ⟨hge, hle, hend⟩ := h.between hmax hgoes hn
  have hmany : m < s.n := by
    cases built with
    | none =>
      have := many_of_none hsize hend (by omega) hbuilt
      omega
    | some buf =>
      have := length_buildEntries hsize hend (by omega) hbuilt
      have := hlarge buf rfl
      omega
  refine ⟨Nat.lt_of_le_of_ne hge fun heq => ?_, hmany⟩
  have hleft := h.built (by omega)
  rw [heq, hbuilt] at hleft
  have := hlarge s.result.1 (Option.some.inj hleft)
  have := h.fits
  omega

/-- A round keeps the invariant and brings the bounds closer, and the `break` is taken with `m` entries at
least. The count does not wrap around unless the table was much too large. -/
theorem Searching.round (hbuilt : buildEntries entries start s.n = some built) :
    Searching entries start maxSize m (s.round maxSize built).1 ∧ (s.round maxSize built).1.measure < s.measure ∧
      ((s.round maxSize built).2 = true → m ≤ (s.round maxSize built).1.left) ∧
      ((∀ buf, built = some buf → 5 * buf.length < 5 * maxSize + 13 * (s.n + 1)) →
        (s.round maxSize built).1.n ≤ maxSize) := by
  obtain ⟨hge, hle, hend⟩ := h.between hmax hgoes hn
  have hpred : m < s.n → sub64 s.n 1 = s.n - 1 := fun hlarge => sub64_of_le (by omega) (by unfold wordSize; omega)
  cases built with
  | none =>
    obtain ⟨hlt, hlarge⟩ := h.left_lt hsize hmax hm hgoes hn hbuilt fun _ heq => by cases heq
    rw [Search.round, hpred hlarge]
    exact ⟨h.below hlt hlarge hle (.inl (by omega)), Search.measure_below hlt hle,
      fun hdone => absurd hdone Bool.false_ne_true, fun _ => by dsimp only; omega⟩
  | some buf =>
    have hbytes := length_buildEntries hsize hend (by omega) hbuilt
    obtain ⟨hten, hless, hmore⟩ := adj_le hbytes hn hmax (by omega)
    by_cases htoo : maxSize < buf.length
    · obtain ⟨hlt, hlarge⟩ := h.left_lt hsize hmax hm hgoes hn hbuilt fun _ heq => Option.some.inj heq ▸ htoo
      rw [Search.round_large htoo, hpred hlarge]
      refine ⟨h.below hlt hlarge hle (reduced_count hlt hn hmax (Nat.le_max_right _ _) (hten htoo)),
        Search.measure_below hlt hle, fun hdone => absurd hdone Bool.false_ne_true, fun hroom => ?_⟩
      rw [sub64_of_le ((hless htoo).mp (hroom buf rfl)) (by unfold wordSize; omega)]
      exact Nat.max_le.mpr ⟨Nat.le_trans (Nat.sub_le _ _) hn, h.left_le.2⟩
    · rw [Search.round_fits htoo]
      have hroom := hmore (Nat.le_of_not_lt htoo)
      have hone : 1 ≤ max (estimate (sizeDiff buf.length maxSize)) 1 := Nat.le_max_right _ _
      refine ⟨h.above hle hbuilt (Nat.le_of_not_lt htoo) hroom, Search.measure_above hge hgoes hle hone,
        fun hdone => ?_, fun _ => Nat.le_trans (Nat.min_le_left _ _) hroom⟩
      have hfull := of_decide_eq_true hdone
      clear hten hless hmore hroom hone
      rw [sizeDiff_eq (by omega) (by omega)] at hfull
      dsimp only
      omega

end Round

/-- What the search ends with. -/
structure Found (entries : List Entry) (start maxSize m : Nat) (result : List UInt8 × Nat) : Prop where
  many : min (entries.length - start) m ≤ result.2
  fits : result.1.length ≤ maxSize
  table : 0 < result.2 → ∃ T, IsTable entries start result T

include hsize

theorem Searching.found (hmany : min (entries.length - start) m ≤ s.left) : Found entries start maxSize m s.result where
  many := by rwa [h.left_eq]
  fits := h.fits
  table := by
    rw [h.left_eq]
    intro hpos
    have hleft := h.left_le
    have hright := h.right_le
    obtain ⟨T, hT⟩ := isTable_of_built hsize (by omega) (by omega) (h.built hpos)
    rw [← h.left_eq] at hT
    exact ⟨T, hT⟩

include hm

theorem buildLoop_result (hstart : start < entries.length) (fuel : Nat)
    (hresult : buildLoop entries start maxSize fuel s = some result) : Found entries start maxSize m result := by
  induction fuel generalizing s with
  | zero => cases hresult
  | succ fuel ih =>
    rw [buildLoop] at hresult
    by_cases hgoes : s.left < s.right
    · rw [if_pos hgoes] at hresult
      obtain ⟨-, -, hn⟩ | ⟨hlow, hhigh⟩ := h.count hgoes
      · obtain ⟨built, hbuilt, hnext⟩ := Option.bind_eq_some_iff.mp hresult
        obtain ⟨hkept, -, hdone, -⟩ := h.round hsize hmax hm hgoes hn hbuilt
        split at hnext
        · next hbreak =>
          cases hnext
          exact hkept.found hsize hmax (Nat.le_trans (Nat.min_le_right _ _) (hdone hbreak))
        · exact ih hkept hnext
      · rw [buildEntries_huge (by omega) hlow hhigh] at hresult
        cases hresult
    · rw [if_neg hgoes] at hresult
      cases hresult
      exact h.found hsize hmax (Nat.le_trans h.right_ge (Nat.le_of_not_lt hgoes))

omit h in
theorem buildTable_result (hpos : 0 < m) (hstart : start < entries.length)
    (hresult : buildTable entries fuel start maxSize = some result) : Found entries start maxSize m result := by
  obtain ⟨found, hloop, rfl⟩ := Option.map_eq_some_iff.mp hresult
  have hfound := buildLoop_result hsize hmax hm (.init (Nat.le_of_lt hstart) hmax) hstart fuel hloop
  have hmany := hfound.many
  rwa [if_pos (by omega)]

end Loop

end Build

end UnwindTable
