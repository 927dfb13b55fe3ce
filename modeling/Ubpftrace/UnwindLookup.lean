import Ubpftrace.UnwindBuild

/-!
# Looking up in a built table

`find_cft` reads a table of four entries or more as `dwunwind_build_table` wrote it. A
table of up to three entries is a leaf without the marker, and the reader takes the first
bytes of its body for the pointer of a node: whatever the keys are, there are values for
which it answers wrongly.
-/

namespace UnwindTable

open Bytes

/-- `find_cft` answers every key by the entries a returned table covers, wherever the table
stands in its map and whatever stands behind it. -/
def ReadsRight (entries : List Entry) (start : Nat) : Prop :=
  ∀ fuel table outEntries, buildTable entries fuel start maxTableSize = some (table, outEntries) →
    ∀ mem pos, Holds mem pos table → pos + table.length ≤ maxTableSize →
      ∀ searchKey < wordSize, findCft mem searchKey pos = lookup searchKey (segment entries start outEntries) (-1)

variable {es : List Entry}

section Right

variable {entries : List Entry} {start : Nat}

/-- A node's key is not 0: there are smaller ones. -/
theorem Built.rootKey_ne_zero {unmarkedLeaf : Bool} {T : Tree} (h : Built es unmarkedLeaf T) (hlen : 4 ≤ es.length)
    (hinc : (es.map Prod.fst).Pairwise (· < ·)) : T.rootKey ≠ some 0 := by
  have hleaf := h.isLeaf
  have hwf := h.wellFormed
  rw [← h.entries] at hinc
  cases T with
  | leaf es' marker =>
    rw [decide_eq_false (by omega)] at hleaf
    cases hleaf
  | node left key value right =>
    obtain ⟨-, hfull, -⟩ := hwf
    intro hzero
    cases hzero
    obtain ⟨e, he⟩ := List.exists_mem_of_length_pos (Nat.lt_of_lt_of_le (by decide) hfull)
    rw [Tree.entries, List.map_append, List.pairwise_append] at hinc
    exact Nat.not_lt_zero _ (hinc.2.2 e.1 (List.mem_map_of_mem he) 0 List.mem_cons_self)

theorem IsTable.reads {table : List UInt8} {outEntries : Nat} {T : Tree} {mem : Nat → UInt8} {pos searchKey : Nat}
    (h : IsTable entries start (table, outEntries) T) (hvalid : Valid entries) (hfour : 4 ≤ outEntries)
    (hmem : Holds mem pos table) (hend : pos + table.length ≤ maxTableSize) :
    findCft mem searchKey pos = lookup searchKey (segment entries start outEntries) (-1) := by
  have hbuilt : Built (segment entries start outEntries) false T := h.built
  have hsegment : (segment entries start outEntries).length = outEntries := length_segment h.inside
  have hlong : ¬ (segment entries start outEntries).length ≤ 3 := by omega
  have hvalid' : Valid T.entries := by
    rw [hbuilt.entries]
    exact hvalid.segment
  have hwf : WellFormed false T := by
    have := hbuilt.wellFormed
    rwa [decide_eq_false hlong, Bool.false_and] at this
  have hbytes : table = encode 0 T := h.bytes
  have hheight : T.height < maxOffsetsBisectSteps := by
    have hmany : 2 * outEntries ≤ table.length := by
      have := (@length_encode 0 _ T hwf).1
      rwa [hbuilt.entries, hsegment, ← hbytes] at this
    have hfits : table.length ≤ 262128 := Nat.le_trans (Nat.le_add_left _ _) hend
    have hsteps : maxOffsetsBisectSteps = 17 := rfl
    have := hbuilt.height 15 (by omega)
    omega
  subst hbytes
  rw [findCft,
    descend_encode T hwf hvalid' (by decide) (hbuilt.rootKey_ne_zero (by omega) hvalid.segment.increasing) hmem
    hend hheight, hbuilt.entries]

theorem readsRight_of_four (hsize : entries.length < wordSize) (hvalid : Valid entries)
    (hfour : 4 ≤ entries.length - start) :
    ReadsRight entries start := by
  intro fuel table outEntries htable mem pos hmem hend searchKey hkey
  obtain ⟨hmany, -, htree⟩ := @buildTable_result _ _ _ maxTableSize 10000 _ hsize (by decide) (by decide) (by decide)
    (by omega) htable
  dsimp only at hmany htree
  obtain ⟨T, hT⟩ := htree (by omega)
  exact hT.reads hvalid (by omega) hmem hend

end Right

/-! ## Short tables -/

section Short

variable {entries : List Entry} {start r : Nat} {keys : List Nat}

theorem buildTable_short (hsize : entries.length < wordSize) (hlen : entries.length = start + r) (hpos : 0 < r)
    (hr : r ≤ 3)
    (hvalues : ∀ e ∈ segment entries start r, e.2 ≤ maxValue) :
    buildTable entries 2 start maxTableSize = some (encLeaf 0 (segment entries start r) false, r) := by
  have hsegment : (segment entries start r).length = r := length_segment (by omega)
  have hwhole : sub64 (start + r) start = r := by
    rw [sub64_of_le (Nat.le_add_right _ _) (by omega), Nat.add_sub_cancel_left]
  have hbuilt : buildEntries entries start r = some (some (encLeaf 0 (segment entries start r) false)) := by
    rw [buildEntries, Nat.mod_eq_of_lt (by omega), buildRecurse_leaf (by omega) hwhole hr, if_pos hvalues,
      buildLeaf_eq hr (by omega), List.append_nil]
  have hbytes := @length_encLeaf 0 (segment entries start r) false (by omega)
  have hmax : maxTableSize = 262128 := rfl
  have hright : entries.length - start = r := by omega
  have hcount : min (estimate maxTableSize) r = r := by
    rw [estimate_eq (by decide), hmax]
    omega
  have hnext : ¬ sizeDiff (encLeaf 0 (segment entries start r) false).length maxTableSize < 100 := by
    rw [sizeDiff_eq (by omega) (by decide)]
    omega
  have hgrown : ¬ r < r := Nat.lt_irrefl r
  simp only [buildTable, hright, hcount, buildLoop, if_pos hpos, hbuilt, Option.bind_some,
    Search.round_fits (by omega : ¬ maxTableSize < (encLeaf 0 (segment entries start r) false).length),
    decide_eq_false hnext, Bool.false_eq_true, if_false, if_neg hgrown, Option.map_some]

/-- The entries of a short table can be given any values, the others being 0. -/
theorem exists_entries (hinc : keys.Pairwise (· < ·)) (hkeys : ∀ k ∈ keys, k < wordSize) (hstart : start ≤ keys.length)
    (hes : es.map Prod.fst = keys.drop start) (hvalues : ∀ e ∈ es, e.2 < 2 ^ 24) :
    ∃ entries, Valid entries ∧ entries.map Prod.fst = keys ∧ entries.length = start + es.length ∧
      segment entries start es.length = es := by
  have hfst : ((keys.take start).map fun k => (k, 0)).map Prod.fst = keys.take start := by
    rw [List.map_map]
    exact List.map_id _
  have hmap : (((keys.take start).map fun k => (k, 0)) ++ es).map Prod.fst = keys := by
    rw [List.map_append, hfst, hes, List.take_append_drop]
  have hlen : ((keys.take start).map fun k => (k, 0)).length = start := by
    rw [List.length_map, List.length_take, Nat.min_eq_left hstart]
  refine ⟨((keys.take start).map fun k => (k, 0)) ++ es, ⟨?_, ?_, ?_⟩, hmap, ?_, ?_⟩
  · rw [hmap]
    exact hinc
  · intro e he
    apply hkeys
    rw [← hmap]
    exact List.mem_map_of_mem he
  · intro e he
    rw [List.mem_append, List.mem_map] at he
    obtain ⟨k, -, rfl⟩ | he := he
    · exact Nat.two_pow_pos 24
    · exact hvalues e he
  · rw [List.length_append, hlen]
  · rw [segment, List.drop_left' hlen, List.take_length]

theorem short_reads {searchKey : Nat} (hinc : keys.Pairwise (· < ·)) (hkeys : ∀ k ∈ keys, k < wordSize)
    (hsize : keys.length < wordSize) (hstart : start ≤ keys.length)
    (h : ∀ entries, Valid entries → entries.map Prod.fst = keys → ReadsRight entries start)
    (hes : es.map Prod.fst = keys.drop start) (hvalues : ∀ e ∈ es, e.2 < 2 ^ 24) (hpos : 0 < es.length)
    (hlen : es.length ≤ 3) (hkey : searchKey < wordSize) :
    findCft (ofList (encLeaf 0 es false)) searchKey 0 = lookup searchKey es (-1) := by
  obtain ⟨entries, hvalid, hmap, hentries, hsegment⟩ := exists_entries hinc hkeys hstart hes hvalues
  have hsize' : entries.length < wordSize := by
    rw [← hmap, List.length_map] at hsize
    exact hsize
  have hsmall : ∀ e ∈ segment entries start es.length, e.2 ≤ maxValue := by
    rw [hsegment]
    exact fun e he => Nat.le_of_lt_succ (hvalues e he)
  have htable := buildTable_short hsize' hentries hpos hlen hsmall
  have hbytes := @length_encLeaf 0 es false hlen
  rw [hsegment] at htable
  have hmem := holds_ofList [] (encLeaf 0 es false) []
  rw [List.append_nil, List.nil_append] at hmem
  have := h entries hvalid hmap 2 _ _ htable _ 0 hmem (by unfold maxTableSize offsetmapSize; omega) searchKey hkey
  rwa [hsegment] at this

end Short

/-! ## Misreading a leaf -/

section Misread

variable {mem : Nat → UInt8} {searchKey pos parentKey k steps : Nat} {best : Int} {isLeaf : Bool}

theorem encRelKey_forms (ukey : Nat) :
    (∃ b ≤ 222, encRelKey ukey = [UInt8.ofNat b]) ∨
      (∃ high < 32, ∃ low < 256, encRelKey ukey = [UInt8.ofNat (0xe0 + high), UInt8.ofNat low]) ∨
      ∃ bs, encRelKey ukey = 0xdf :: bs := by
  unfold encRelKey
  dsimp only
  split
  · exact .inl ⟨_, by omega, rfl⟩
  · split
    · refine .inr (.inl ⟨ukey >>> 8 % 32, Nat.mod_lt _ (by decide), ukey % 256, Nat.mod_lt _ (by decide), ?_⟩)
      rw [and_1f, and_ff, or_e0 (Nat.mod_lt _ (by decide))]
    · exact .inr (.inr ⟨_, rfl⟩)

theorem descend_end (hpos : pos < 1000) (h : mem pos = 0x6f) :
    descend mem searchKey (steps + 1) pos isLeaf parentKey best = best := by
  have hread : readKey mem pos = (0, pos + 1) := by
    rw [readKey, h]
    rfl
  have hin : ¬ offsetmapSize - 15 ≤ pos := by
    unfold offsetmapSize
    omega
  simp only [descend, if_neg hin, hread, if_true]

theorem descend_outside (h : offsetmapSize ≤ pos) :
    descend mem searchKey (steps + 1) pos isLeaf parentKey best = -1 := by
  have hout : offsetmapSize - 15 ≤ pos := Nat.le_trans (Nat.sub_le _ _) h
  simp only [descend, if_pos hout]

theorem readKey_zero (h : mem pos = 0) : readKey mem pos = (wordSize - 111, pos + 1) := by
  rw [readKey, h]
  rfl

theorem readValue_zero (h : mem pos = 0) : readValue mem pos = (0, pos + 1) := by
  rw [readValue, h]
  rfl

theorem findLeaf_zeros (h : ∀ p ≥ pos, mem p = 0) : findLeaf mem searchKey pos parentKey (-1) ≤ 0 := by
  have hkey : ∀ p ≥ pos, readKey mem p = (wordSize - 111, p + 1) := fun p hp => readKey_zero (h p hp)
  have hvalue : ∀ p ≥ pos, readValue mem p = (0, p + 1) := fun p hp => readValue_zero (h p hp)
  simp only [findLeaf, hkey pos (Nat.le_refl _), hvalue (pos + 1) (by omega), hvalue (pos + 1 + 1) (by omega),
    hkey (pos + 1 + 1 + 1) (by omega), hvalue (pos + 1 + 1 + 1 + 1) (by omega)]
  split_ifs <;> decide

theorem descend_zeros (h : ∀ p ≥ pos, mem p = 0) : descend mem searchKey (steps + 1) pos isLeaf parentKey (-1) ≤ 0 := by
  have hkey := readKey_zero (h pos (Nat.le_refl _))
  have hnext : mem (pos + 1) = 0 := h (pos + 1) (by omega)
  have hne : wordSize - 111 ≠ 0 := by decide
  simp only [descend, hkey, if_neg hne, hnext, if_true]
  split
  · decide
  · split
    · exact findLeaf_zeros fun p hp => h p (by omega)
    · exact findLeaf_zeros fun p hp => h p (by omega)

/-- A leaf at the root, with its key `e`, the relative key of the entry `l` before it, the
values of the two and the rest. -/
def rootLeaf (l e a b : Nat) (rest : List UInt8) : List UInt8 :=
  encRelKey e ++ (encRelKey (sub64 l e) ++ (encValue a ++ (encValue b ++ rest)))

theorem holds_rootLeaf (l e a b : Nat) (rest : List UInt8) :
    Holds (ofList (rootLeaf l e a b rest)) 0 (encRelKey e) ∧
      Holds (ofList (rootLeaf l e a b rest)) (encRelKey e).length
        (encRelKey (sub64 l e) ++ (encValue a ++ (encValue b ++ rest))) := by
  have h := holds_ofList [] (rootLeaf l e a b rest) []
  rw [List.append_nil, List.nil_append, rootLeaf, holds_append] at h
  rwa [List.length_nil, Nat.zero_add] at h

theorem byte_eq (h : mem pos = UInt8.ofNat k) (hk : k < 256) : (mem pos).toNat = k := by
  rw [h, toNat_ofNat, Nat.mod_eq_of_lt hk]

theorem ne_marker (hbyte : (mem pos).toNat = k) (hk : 1 ≤ k) : mem pos ≠ 0 := by
  intro hmarker
  rw [hmarker, UInt8.toNat_zero] at hbyte
  omega

section Cases

variable {l e : Nat} {rest : List UInt8} (he : e < wordSize) (hkey : Holds mem 0 (encRelKey e))

include he hkey

theorem read_root : readKey mem 0 = (e, (encRelKey e).length) ∧ (e + 0) % wordSize = e := by
  have hread := readKey_encRelKey he hkey
  rw [Nat.zero_add] at hread
  exact ⟨hread, Nat.mod_eq_of_lt he⟩

/-- Below the root's key the reader follows what it takes for a pointer. -/
theorem findCft_left {relPtr p : Nat} (hlt : searchKey < e) (hnode : mem (encRelKey e).length ≠ 0)
    (hptr : readRelPtr mem (encRelKey e).length = (relPtr, isLeaf, p)) :
    findCft mem searchKey 0 = descend mem searchKey 16 (p + relPtr) isLeaf e (-1) := by
  obtain ⟨hread, hsame⟩ := read_root he hkey
  have hne : e ≠ 0 := by omega
  rw [findCft, maxOffsetsBisectSteps, descend_turn (by decide) hread hne hsame hnode hptr rfl, if_pos hlt]

/-- From the root's key on it takes the bytes behind for the root's value, and ends at the
key 0. -/
theorem findCft_right {relPtr p value p' : Nat} (hne : e ≠ 0) (hnode : mem (encRelKey e).length ≠ 0)
    (hptr : readRelPtr mem (encRelKey e).length = (relPtr, isLeaf, p)) (hvalue : readValue mem p = (value, p'))
    (hp' : p' < 1000) (hend : mem p' = 0x6f) : findCft mem e 0 = value := by
  obtain ⟨hread, hsame⟩ := read_root he hkey
  rw [findCft, maxOffsetsBisectSteps, descend_turn (by decide) hread hne hsame hnode hptr hvalue,
    if_neg (Nat.lt_irrefl e), descend_end hp' hend]

/-- A body that begins with 0 is taken for a marked leaf. -/
theorem misread_marker (hlt : l < e) (hbody : Holds mem (encRelKey e).length (0 :: 0x6f :: rest)) :
    findCft mem l 0 = -1 := by
  obtain ⟨hread, hsame⟩ := read_root he hkey
  rw [holds_cons, holds_cons] at hbody
  have hleft : readKey mem ((encRelKey e).length + 1) = (0, (encRelKey e).length + 1 + 1) := by
    rw [readKey, hbody.2.1]
    rfl
  rw [findCft, maxOffsetsBisectSteps, descend_stop (by decide) hread (by omega) hsame (.inr hbody.1),
    if_neg (by decide)]
  simp only [findLeaf, hleft, if_pos hlt]
  split_ifs <;> simp_all

/-- A key of one byte is taken for a pointer, the value 0 behind it for the root's and the
value 111 for the key 0. -/
theorem misread_near (hne : e ≠ 0) (hlow : 1 ≤ k) (hhigh : k ≤ 0xcf)
    (hbody : Holds mem (encRelKey e).length (UInt8.ofNat k :: 0 :: 0x6f :: rest)) : findCft mem e 0 = 0 := by
  have hq := length_encRelKey e
  simp only [holds_cons] at hbody
  obtain ⟨hk, hzero, hend, -⟩ := hbody
  have hbyte := byte_eq hk (by omega)
  have hptr : readRelPtr mem (encRelKey e).length = (k, false, (encRelKey e).length + 1) := by
    simp only [readRelPtr, hbyte, if_pos hhigh]
  exact findCft_right he hkey hne (ne_marker hbyte hlow) hptr (readValue_zero hzero) (by omega) hend

/-- A larger key of one byte is taken for a pointer whose other bytes are the two values. -/
theorem misread_far (hlt : l < e) (hlow : 0xd0 ≤ k) (hhigh : k ≤ 0xde)
    (hbody : Holds mem (encRelKey e).length (UInt8.ofNat k :: 1 :: 4 :: rest)) (hzeros : ∀ p ≥ 1000, mem p = 0) :
    findCft mem l 0 ≤ 0 := by
  simp only [holds_cons] at hbody
  obtain ⟨hk, hone, hlarge, -⟩ := hbody
  have hbyte := byte_eq hk (by omega)
  have hlow16 : readLe mem ((encRelKey e).length + 1) 2 = 1025 := by
    simp only [readLe, hone, hlarge]
    rfl
  obtain ⟨relPtr, isLeaf, hfar, hptr⟩ : ∃ relPtr isLeaf, 1000 ≤ relPtr ∧
      readRelPtr mem (encRelKey e).length = (relPtr, isLeaf, (encRelKey e).length + 3) := by
    have hfar : 1000 ≤ (k &&& 0x07) <<< 16 ||| 1025 := Nat.le_trans (by decide) Nat.right_le_or
    simp only [readRelPtr, hbyte, hlow16]
    rw [if_neg (by omega)]
    split
    · exact ⟨_, _, hfar, rfl⟩
    · rw [if_pos (by omega)]
      exact ⟨_, _, hfar, rfl⟩
  rw [findCft_left he hkey hlt (ne_marker hbyte (by omega)) hptr]
  exact descend_zeros fun p hp => hzeros p (Nat.le_trans (Nat.le_add_left_of_le hfar) hp)

/-- A key of two bytes is taken for a leaf pointer and the beginning of the root's value. -/
theorem misread_two {high low value p' : Nat} (hne : e ≠ 0) (hhigh : high < 32)
    (hbody : Holds mem (encRelKey e).length (UInt8.ofNat (0xe0 + high) :: UInt8.ofNat low :: rest))
    (hvalue : readValue mem ((encRelKey e).length + 1) = (value, p')) (hp' : p' < 1000) (hend : mem p' = 0x6f) :
    findCft mem e 0 = value := by
  rw [holds_cons] at hbody
  have hbyte := byte_eq hbody.1 (by omega)
  have hptr : readRelPtr mem (encRelKey e).length = ((0xe0 + high) &&& 0x1f, true, (encRelKey e).length + 1) := by
    simp only [readRelPtr, hbyte]
    rw [if_neg (by omega), if_neg (by omega), if_neg (by omega)]
  exact findCft_right he hkey hne (ne_marker hbyte (by omega)) hptr hvalue hp' hend

/-- A key of nine bytes is taken for a pointer out of the map. -/
theorem misread_nine (hlt : l < e) (hbody : Holds mem (encRelKey e).length (0xdf :: rest)) : findCft mem l 0 = -1 := by
  rw [holds_cons] at hbody
  have hbyte : (mem (encRelKey e).length).toNat = 0xdf := byte_eq hbody.1 (by decide)
  have hptr : readRelPtr mem (encRelKey e).length =
      ((0xdf &&& 0x07) <<< 16 ||| readLe mem ((encRelKey e).length + 1) 2, true, (encRelKey e).length + 3) := by
    simp only [readRelPtr, hbyte]
    rfl
  rw [findCft_left he hkey hlt (ne_marker hbyte (by decide)) hptr]
  apply descend_outside
  have : (0xdf &&& 0x07) <<< 16 ≤ (0xdf &&& 0x07) <<< 16 ||| readLe mem ((encRelKey e).length + 1) 2 := Nat.left_le_or
  have hfar : offsetmapSize ≤ (0xdf &&& 0x07) <<< 16 := by decide
  omega

end Cases

theorem exists_misread {l e : Nat} {rest : List UInt8} (hlt : l < e) (he : e < wordSize) (hrest : rest.length ≤ 100) :
    ∃ a b : Nat, a < 2 ^ 24 ∧ b < 2 ^ 24 ∧
      (findCft (ofList (rootLeaf l e a b rest)) l 0 ≠ a ∨ findCft (ofList (rootLeaf l e a b rest)) e 0 ≠ b) := by
  have hne : e ≠ 0 := by omega
  have hq := length_encRelKey e
  have hroot := fun a b => holds_rootLeaf l e a b rest
  obtain ⟨k, hk, hform⟩ | ⟨high, hhigh, low, hlow, hform⟩ | ⟨bs, hform⟩ := encRelKey_forms (sub64 l e) <;>
    simp only [hform] at hroot
  · obtain rfl | hnear | hfar : k = 0 ∨ (1 ≤ k ∧ k ≤ 0xcf) ∨ 0xd0 ≤ k := by omega
    · refine ⟨111, 0, by decide, by decide, .inl ?_⟩
      rw [misread_marker he (hroot 111 0).1 hlt (hroot 111 0).2]
      decide
    · refine ⟨0, 111, by decide, by decide, .inr ?_⟩
      rw [misread_near he (hroot 0 111).1 hne hnear.1 hnear.2 (hroot 0 111).2]
      decide
    · refine ⟨1, 4, by decide, by decide, .inl ?_⟩
      have hzeros : ∀ p ≥ 1000, ofList (rootLeaf l e 1 4 rest) p = 0 := by
        intro p hp
        have hlen : (rootLeaf l e 1 4 rest).length ≤ p := by
          rw [rootLeaf, hform]
          simp only [List.length_append, List.length_cons, List.length_nil, encValue]
          simp
          omega
        rw [ofList, List.getD_eq_default _ _ hlen]
      have := misread_far he (hroot 1 4).1 hlt hfar hk (hroot 1 4).2 hzeros
      omega
  · obtain hshort | rfl | hlong : low ≤ 0xf6 ∨ low = 0xf7 ∨ 0xf8 ≤ low := by omega
    · -- the value 111 is taken for the key 0 behind the one byte of the root's value
      have hother : ∃ b : Nat, b < 2 ^ 24 ∧ low ≠ b := by
        by_cases hzero : low = 0
        · exact ⟨1, by decide, by omega⟩
        · exact ⟨0, by decide, hzero⟩
      obtain ⟨b, hb, hdiff⟩ := hother
      refine ⟨111, b, by decide, hb, .inr ?_⟩
      have hbytes := (hroot 111 b).2
      simp only [List.cons_append, List.nil_append, holds_cons, show encValue 111 = [0x6f] from rfl] at hbytes
      have hvalue : readValue (ofList (rootLeaf l e 111 b rest)) ((encRelKey e).length + 1) =
          (low, (encRelKey e).length + 1 + 1) := by
        simp only [readValue, byte_eq hbytes.2.1 hlow, if_pos hshort]
      rw [misread_two he (hroot 111 b).1 hne hhigh (hroot 111 b).2 hvalue (by omega) hbytes.2.2.1]
      omega
    · -- here it takes three bytes of the value and ends at its fourth
      refine ⟨0x01006f, 0, by decide, by decide, .inr ?_⟩
      have hbytes := (hroot 0x01006f 0).2
      simp only [List.cons_append, List.nil_append, holds_cons,
        show encValue 0x01006f = [0xf7, 0x01, 0x00, 0x6f] from rfl] at hbytes
      obtain ⟨-, h0, h1, h2, h3, hend, -⟩ := hbytes
      have hvalue : readValue (ofList (rootLeaf l e 0x01006f 0 rest)) ((encRelKey e).length + 1) =
          (0xf70100, (encRelKey e).length + 1 + 4) := by
        simp only [readValue, h0, h1, h2, h3]
        rfl
      rw [misread_two he (hroot 0x01006f 0).1 hne hhigh (hroot 0x01006f 0).2 hvalue (by omega) hend]
      decide
    · -- here the value 0 is the second byte of the root's
      refine ⟨0, 111, by decide, by decide, .inr ?_⟩
      have hbytes := (hroot 0 111).2
      simp only [List.cons_append, List.nil_append, holds_cons, show encValue 111 = [0x6f] from rfl,
        show encValue 0 = [0] from rfl] at hbytes
      obtain ⟨-, hbyte, hzero, hend, -⟩ := hbytes
      have hvalue : readValue (ofList (rootLeaf l e 0 111 rest)) ((encRelKey e).length + 1) =
          (low % 8 * 2 ^ 8, (encRelKey e).length + 1 + 2) := by
        simp only [readValue, byte_eq hbyte hlow, hzero, and_07]
        rw [if_neg (by omega), if_neg (by omega), UInt8.toNat_zero, shl_or (by decide), Nat.add_zero]
      rw [misread_two he (hroot 0 111).1 hne hhigh (hroot 0 111).2 hvalue (by omega) hend]
      omega
  · refine ⟨0, 0, by decide, by decide, .inl ?_⟩
    rw [misread_nine he (hroot 0 0).1 hlt (hroot 0 0).2]
    decide

theorem sub64_zero {e : Nat} (he : e < wordSize) : sub64 e 0 = e := by
  rw [sub64_of_le (Nat.zero_le e) he, Nat.sub_zero]

theorem encLeaf_one (hk : k < wordSize) :
    encLeaf 0 [(k, 111)] false = encRelKey k ++ (0x6f :: 0 :: 0x6f :: encDummy) := by
  rw [encLeaf_of_own rfl]
  simp only [encLeafBody, sub64_zero hk, Bool.false_eq_true, if_false, List.nil_append, List.append_assoc]
  rfl

theorem encLeaf_pair {l e : Nat} (he : e < wordSize) (hfew : es.length ≤ 1) :
    ∃ rest : List UInt8, rest.length ≤ 100 ∧
      ∀ a b, encLeaf 0 ((l, a) :: (e, b) :: es) false = rootLeaf l e a b rest := by
  have hleaf : ∀ a b rest, encLeafBody ((l, a) :: (e, b) :: es) = encEntry e (l, a) ++ encValue b ++ rest →
      encLeaf 0 ((l, a) :: (e, b) :: es) false = rootLeaf l e a b rest := by
    intro a b rest hbody
    have hown : leafOwn ((l, a) :: (e, b) :: es) = some (e, b) := rfl
    rw [encLeaf_of_own hown, hbody, if_neg Bool.false_ne_true, List.nil_append, sub64_zero he, encEntry, rootLeaf,
      List.append_assoc, List.append_assoc]
  cases es with
  | nil => exact ⟨encDummy, by decide, fun a b => hleaf a b _ rfl⟩
  | cons r es =>
    obtain rfl : es = [] := List.eq_nil_of_length_eq_zero (Nat.le_zero.mp (Nat.le_of_succ_le_succ hfew))
    exact ⟨encEntry e r, Nat.le_trans (length_encEntry e r).2 (by decide), fun a b => hleaf a b _ rfl⟩

/-- A single entry with the value 111 is not found. -/
theorem one_misread (hk : k < wordSize) : findCft (ofList (encLeaf 0 [(k, 111)] false)) k 0 ≠ 111 := by
  have hmem := holds_ofList [] (encLeaf 0 [(k, 111)] false) []
  rw [List.append_nil, List.nil_append, List.length_nil] at hmem
  generalize ofList (encLeaf 0 [(k, 111)] false) = mem at *
  rw [encLeaf_one hk, holds_append, Nat.zero_add] at hmem
  obtain ⟨hkey, hbody⟩ := hmem
  by_cases hzero : k = 0
  · subst hzero
    rw [show encRelKey 0 = [0x6f] from rfl, holds_cons] at hkey
    rw [findCft, maxOffsetsBisectSteps, descend_end (by decide) hkey.1]
    decide
  · have hnear : 1 ≤ 111 ∧ 111 ≤ 0xcf := by decide
    rw [misread_near hk hkey hzero hnear.1 hnear.2 hbody]
    decide

theorem lookup_cons {e : Entry} (h : e.1 ≤ searchKey) : lookup searchKey (e :: es) best = lookup searchKey es e.2 := by
  rw [lookup, List.foldl_cons, if_pos h]
  rfl

/-- The first two entries are found under their own keys. -/
theorem lookup_first_two {l e a b : Nat} (hlt : l < e) (habove : ∀ x ∈ es, e < x.1) :
    lookup l ((l, a) :: (e, b) :: es) best = a ∧ lookup e ((l, a) :: (e, b) :: es) best = b := by
  constructor
  · rw [lookup_cons (Nat.le_refl l)]
    apply lookup_above
    intro x hx
    rw [List.mem_cons] at hx
    obtain rfl | hx := hx
    · exact hlt
    · exact Nat.lt_trans hlt (habove x hx)
  · rw [lookup_cons (Nat.le_of_lt hlt), lookup_cons (Nat.le_refl e)]
    exact lookup_above habove

end Misread

/-- For every list of keys and every start in it, `find_cft` answers by the covered entries for
all values of them exactly when at least four entries are left. -/
theorem reads_right_iff_four {keys : List Nat} {start : Nat} (hinc : keys.Pairwise (· < ·))
    (hkeys : ∀ k ∈ keys, k < wordSize) (hsize : keys.length < wordSize) (hstart : start < keys.length) :
    (∀ entries, Valid entries → entries.map Prod.fst = keys → ReadsRight entries start) ↔ 4 ≤ keys.length - start := by
  constructor
  · intro h
    have hlt : ∀ k ∈ keys.drop start, k < wordSize := fun k hk => hkeys k (List.mem_of_mem_drop hk)
    have hsorted : (keys.drop start).Pairwise (· < ·) := hinc.sublist (List.drop_sublist _ _)
    have hreads := fun es searchKey => @short_reads es start keys searchKey hinc hkeys hsize (Nat.le_of_lt hstart) h
    rw [← List.length_drop]
    match hdrop : keys.drop start with
    | [] =>
      rw [List.drop_eq_nil_iff] at hdrop
      omega
    | [k] =>
      rw [hdrop] at hlt hreads
      have hk : k < wordSize := hlt k List.mem_cons_self
      have hread := hreads [(k, 111)] k rfl (by simp) (by simp) (by simp) hk
      rw [lookup_cons (Nat.le_refl k)] at hread
      exact absurd hread (one_misread hk)
    | l :: e :: ks =>
      by_contra hfour
      simp only [List.length_cons] at hfour
      rw [hdrop] at hlt hreads hsorted
      have hl : l < wordSize := hlt l (by simp)
      have he : e < wordSize := hlt e (by simp)
      obtain ⟨⟨hle, -⟩, hks, -⟩ : (l < e ∧ ∀ k ∈ ks, l < k) ∧ (∀ k ∈ ks, e < k) ∧ ks.Pairwise (· < ·) := by
        simpa using hsorted
      obtain ⟨rest, hrest, hbytes⟩ := @encLeaf_pair (ks.map (·, 0)) l e he (by rw [List.length_map]; omega)
      obtain ⟨a, b, ha, hb, hwrong⟩ := exists_misread hle he hrest
      obtain ⟨hfirst, hsecond⟩ := @lookup_first_two (ks.map (·, 0)) (-1) l e a b hle (by simpa using hks)
      have hkeep : (ks.map (·, 0)).map Prod.fst = ks := by
        rw [List.map_map]
        exact List.map_id ks
      have hvalues : ∀ x ∈ (l, a) :: (e, b) :: ks.map (·, 0), x.2 < 2 ^ 24 := by simpa using And.intro ha hb
      have hread := fun k => hreads ((l, a) :: (e, b) :: ks.map (·, 0)) k (by rw [List.map_cons, List.map_cons, hkeep])
        hvalues (Nat.succ_pos _) (by simp only [List.length_cons, List.length_map]; omega)
      rw [← hbytes, hread l hl, hread e he, hfirst, hsecond] at hwrong
      simp at hwrong
  · intro hfour entries hvalid hmap
    subst hmap
    rw [List.length_map] at hsize hfour
    exact readsRight_of_four hsize hvalid hfour

theorem reads_right_iff_four_keys :
    (buildTable [(1, 10), (2, 20), (3, 30), (4, 40)] 2 0 maxTableSize).map Prod.snd = some 4 ∧
      ((∀ entries, Valid entries → entries.map Prod.fst = [1, 2, 3, 4] → ReadsRight entries 0) ↔
        4 ≤ [1, 2, 3, 4].length - 0) :=
  ⟨by decide +kernel, reads_right_iff_four (by decide) (by decide) (by decide) (by decide)⟩

/-- The only entry of a list is written as a leaf without the marker; its value is not found. -/
theorem single_entry_misread :
    Valid [(0x1000, 5)] ∧
      buildTable [(0x1000, 5)] 2 0 maxTableSize = some (encLeaf 0 [(0x1000, 5)] false, 1) ∧
      findCft (ofList (encLeaf 0 [(0x1000, 5)] false)) 0x1000 0 = 0 ∧ lookup 0x1000 [(0x1000, 5)] (-1) = 5 :=
  ⟨⟨by decide, by decide, by decide⟩, by decide +kernel, by decide +kernel, by decide⟩

end UnwindTable
