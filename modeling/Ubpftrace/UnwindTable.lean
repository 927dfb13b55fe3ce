import Mathlib.Data.List.Pairwise
import Ubpftrace.DoubleQuotients
import Ubpftrace.UnwindCodec

/-!
# The unwind table

`dwunwind_build_table` writes the unwind entries as a binary tree, back to front, with
pointers to the left subtrees only; `find_cft` searches it in BPF. Leaves take up to
three entries. The reader tells a leaf by the pointer to it or, for the right child of a
node whose left child is no leaf, by a marker. The root has neither.
-/

namespace UnwindTable

open Bytes

abbrev Entry := Nat × Nat

/-- `uint64_t` subtraction. -/
@[irreducible] def sub64 (a b : Nat) : Nat := (a + wordSize - b) % wordSize

/-- The vector is filled back to front and reversed in the end; here it is written in its
final order. -/
def push (buf data : List UInt8) : List UInt8 := data ++ buf

/-- The search for the split point. -/
def splitLoop (len : Nat) : Nat → Nat → Option Nat
  | 0, _ => none
  | fuel + 1, split =>
    if (2 * split + 1 + 1) % wordSize ≤ len then splitLoop len fuel ((2 * split + 1) % wordSize) else some split

/-- The 64 rounds are not enough exactly where the source's loop does not end, for lengths
of `2 ^ 63` and more. -/
def splitPoint (len : Nat) : Option Nat := splitLoop len 64 3

/-- The pointer over `relPtr` bytes to a left subtree. -/
def encPtr (toLeaf : Bool) (relPtr : Nat) : Option (List UInt8) :=
  if toLeaf then encRelLeafPtr relPtr else encRelPtr relPtr

/-- The end of `build_recurse` at a node, behind its subtrees; none if the pointer does not fit. -/
def buildNode (own : Entry) (parentKey : Nat) (leftIsLeaf : Bool) (lbuf rbuf : List UInt8) : Option (List UInt8) :=
  let vbuf := push rbuf (encValue own.2)
  (encPtr leftIsLeaf (vbuf.length - lbuf.length)).map fun ptr =>
    push (push vbuf ptr) (encRelKey (sub64 own.1 parentKey))

section Build

variable (entries : List Entry)

def buildLeaf (buf : List UInt8) (start len parentKey : Nat) (unmarkedLeaf : Bool) : List UInt8 :=
  let entry := fun i => entries.getD (start + i) (0, 0)
  let ownKey := if len = 0 then parentKey else if len = 1 then (entry 0).1 else (entry 1).1
  let buf :=
    if len = 3 then push (push buf (encValue (entry 2).2)) (encRelKey (sub64 (entry 2).1 ownKey))
    else push (push buf (encValue 0)) (encRelKey 0)
  let buf :=
    if 0 < len then push buf (encValue (entry (if 2 ≤ len then 1 else 0)).2) else push buf (encValue 0)
  let buf :=
    if 2 ≤ len then push (push buf (encValue (entry 0).2)) (encRelKey (sub64 (entry 0).1 ownKey))
    else push (push buf (encValue 0)) (encRelKey 0)
  let buf := if unmarkedLeaf then push buf encLeafMarker else buf
  if 1 ≤ len then push buf (encRelKey (sub64 ownKey parentKey)) else push buf (encRelKey 0)

/-- `enc_value` ends the program with `LOG(BUG)` on larger values. -/
def maxValue : Nat := 0xffffff

/-- `build_recurse`: `none` where it does not return, `some none` for `nullopt`. -/
def buildRecurse : Nat → List UInt8 → Nat → Nat → Nat → Bool → Option (Option (List UInt8))
  | 0, _, _, _, _, _ => none
  | fuel + 1, buf, start, stop, parentKey, unmarkedLeaf =>
    let len := sub64 stop start
    if len ≤ 3 then
      if ∀ i < len, (entries.getD (start + i) (0, 0)).2 ≤ maxValue then
        some (some (buildLeaf entries buf start len parentKey unmarkedLeaf))
      else none
    else
      (splitPoint len).bind fun s =>
        let split := s + start
        let own := entries.getD split (0, 0)
        let leftIsLeaf := decide (sub64 split start = 3)
        let rightIsLeaf := decide (sub64 stop (split + 1) ≤ 3)
        (buildRecurse fuel buf start split own.1 false).bind fun left =>
          left.elim (some none) fun lbuf =>
            (buildRecurse fuel lbuf (split + 1) stop own.1 (rightIsLeaf && !leftIsLeaf)).bind fun right =>
              right.elim (some none) fun rbuf =>
                if own.2 ≤ maxValue then some (buildNode own parentKey leftIsLeaf lbuf rbuf) else none

/-- The double nearest to 2.6, in units of `2 ^ -51`. -/
@[irreducible] def bytesPerEntry : Nat := 5854679515581645

/-- `x / 2.6` in double precision, truncated. -/
@[irreducible] def estimate (x : Nat) : Nat := DoubleQuotients.quotient (DoubleQuotients.ofNat x * 2 ^ 51) bytesPerEntry

/-- `labs(diff)`, where both sizes are read as `signed long`. -/
@[irreducible] def sizeDiff (size maxSize : Nat) : Nat := (toSigned (sub64 size maxSize)).natAbs

/-- The locals of `dwunwind_build_table`'s loop; `result` has the bytes and `result_entries`. -/
structure Search where
  left : Nat
  right : Nat
  n : Nat
  result : List UInt8 × Nat

/-- A round of the loop, behind `build_recurse`, and whether it is left by the `break`. -/
def Search.round (maxSize : Nat) (s : Search) : Option (List UInt8) → Search × Bool
  | none => ({ s with right := sub64 s.n 1, n := (s.left + sub64 s.n 1) / 2 }, false)
  | some buf =>
    let diff := sizeDiff buf.length maxSize
    let adj := max (estimate diff) 1
    if maxSize < buf.length then ({ s with right := sub64 s.n 1, n := max (sub64 s.n adj) s.left }, false)
    else ({ s with left := s.n, n := min (s.n + adj) s.right, result := (buf, s.n) }, decide (diff < 100))

/-- The call of `build_recurse` for the next `n` entries. -/
def buildEntries (start n : Nat) : Option (Option (List UInt8)) :=
  buildRecurse entries 64 [] start ((start + n) % wordSize) 0 false

/-- The search for a number of entries that fills the space; `none` where a round does not
return or the rounds run out. -/
def buildLoop (start maxSize : Nat) : Nat → Search → Option (List UInt8 × Nat)
  | 0, _ => none
  | fuel + 1, s =>
    if s.left < s.right then
      (buildEntries entries start s.n).bind fun built =>
        if (s.round maxSize built).2 then some (s.round maxSize built).1.result
        else buildLoop start maxSize fuel (s.round maxSize built).1
    else some s.result

/-- `dwunwind_build_table`, run for `fuel` rounds: the table and `out_entries`. -/
def buildTable (fuel start maxSize : Nat) : Option (List UInt8 × Nat) :=
  let right := entries.length - start
  let search := { left := 0, right := right, n := min (estimate maxSize) right, result := ([], 0) }
  (buildLoop entries start maxSize fuel search).map fun result => if 0 < result.2 then result else ([], 0)

end Build

/-! ## The reader -/

def offsetmapSize : Nat := 262144

def maxOffsetsBisectSteps : Nat := 17

section Find

variable (mem : Nat → UInt8) (searchKey : Nat)

/-- The end of `find_cft`, at a leaf. -/
def findLeaf (pos parentKey : Nat) (best : Int) : Int :=
  if offsetmapSize - 15 ≤ pos then -1
  else
    let (leftKey, pos) := readKey mem pos
    let (leftValue, pos) := readValue mem pos
    if offsetmapSize - 15 ≤ pos then -1
    else
      let (ownValue, pos) := readValue mem pos
      if searchKey < parentKey then
        if leftKey ≠ 0 ∧ (leftKey + parentKey) % wordSize ≤ searchKey then leftValue else best
      else if offsetmapSize - 15 ≤ pos then -1
      else
        let (rightKey, pos) := readKey mem pos
        let (rightValue, _) := readValue mem pos
        if rightKey ≠ 0 ∧ (rightKey + parentKey) % wordSize ≤ searchKey then rightValue else ownValue

/-- The loop of `find_cft`. -/
def descend : Nat → Nat → Bool → Nat → Int → Int
  | 0, pos, _, parentKey, best => findLeaf mem searchKey pos parentKey best
  | steps + 1, pos, isLeaf, parentKey, best =>
    if offsetmapSize - 15 ≤ pos then -1
    else
      let (relKey, pos) := readKey mem pos
      if relKey = 0 then best
      else
        let currentKey := (relKey + parentKey) % wordSize
        if isLeaf then findLeaf mem searchKey pos currentKey best
        else if mem pos = 0 then findLeaf mem searchKey (pos + 1) currentKey best
        else
          let (relPtr, isLeaf, pos) := readRelPtr mem pos
          if searchKey < currentKey then descend steps (pos + relPtr) isLeaf currentKey best
          else
            let (value, pos) := readValue mem pos
            descend steps pos isLeaf currentKey value

def findCft (startInMap : Nat) : Int := descend mem searchKey maxOffsetsBisectSteps startInMap false 0 (-1)

end Find

/-! ## The tree

What a table stands for: a tree whose leaves are lists of up to three entries, with or
without the marker.
-/

inductive Tree where
  | leaf (es : List Entry) (marker : Bool)
  | node (left : Tree) (key value : Nat) (right : Tree)

namespace Tree

def isLeaf : Tree → Bool
  | leaf .. => true
  | node .. => false

def entries : Tree → List Entry
  | leaf es _ => es
  | node left key value right => left.entries ++ (key, value) :: right.entries

def height : Tree → Nat
  | leaf .. => 0
  | node left _ _ right => max left.height right.height + 1

end Tree

/-- An absent entry of a leaf. -/
def encDummy : List UInt8 := encRelKey 0 ++ encValue 0

def encEntry (ownKey : Nat) (e : Entry) : List UInt8 := encRelKey (sub64 e.1 ownKey) ++ encValue e.2

/-- The entry whose key a leaf is reached by. -/
def leafOwn : List Entry → Option Entry
  | [] => none
  | [e] => some e
  | _ :: e :: _ => some e

/-- A leaf behind its own key and the marker. -/
def encLeafBody : List Entry → List UInt8
  | [] => encDummy ++ encValue 0 ++ encDummy
  | [e] => encDummy ++ encValue e.2 ++ encDummy
  | [l, e] => encEntry e.1 l ++ encValue e.2 ++ encDummy
  | l :: e :: r :: _ => encEntry e.1 l ++ encValue e.2 ++ encEntry e.1 r

def encLeaf (parentKey : Nat) (es : List Entry) (marker : Bool) : List UInt8 :=
  encRelKey (((leafOwn es).map fun e => sub64 e.1 parentKey).getD 0) ++
    ((if marker then encLeafMarker else []) ++ encLeafBody es)

/-- The bytes of a node between its pointer and its left subtree are its value and its
right subtree. -/
def encode (parentKey : Nat) : Tree → List UInt8
  | .leaf es marker => encLeaf parentKey es marker
  | .node left key value right =>
    let behind := encValue value ++ encode key right
    encRelKey (sub64 key parentKey) ++ ((encPtr left.isLeaf behind.length).getD [] ++ (behind ++ encode key left))

/-- A tree the reader can follow when it arrives with `isLeaf`: leaves are marked exactly
where `isLeaf` does not tell, and pointers fit. -/
def WellFormed : Bool → Tree → Prop
  | isLeaf, .leaf es marker => es.length ≤ 3 ∧ marker = !isLeaf
  | isLeaf, .node left key value right =>
    isLeaf = false ∧ 3 ≤ left.entries.length ∧ WellFormed left.isLeaf left ∧ WellFormed left.isLeaf right ∧
      (encPtr left.isLeaf (encValue value ++ encode key right).length).isSome

/-- The value of the last entry whose key is not above `searchKey`. -/
def lookup (searchKey : Nat) (es : List Entry) (best : Int) : Int :=
  es.foldl (fun best e => if e.1 ≤ searchKey then (e.2 : Int) else best) best

/-- Strictly increasing keys of 64 bits and values of 24 bits. -/
structure Valid (es : List Entry) : Prop where
  increasing : (es.map Prod.fst).Pairwise (· < ·)
  key_lt : ∀ e ∈ es, e.1 < wordSize
  value_lt : ∀ e ∈ es, e.2 < 2 ^ 24

theorem Valid.sublist {es es' : List Entry} (h : Valid es) (hs : es'.Sublist es) : Valid es' where
  increasing := h.increasing.sublist (hs.map _)
  key_lt := fun e he => h.key_lt e (hs.subset he)
  value_lt := fun e he => h.value_lt e (hs.subset he)

/-! ### Looking up -/

section Lookup

variable {searchKey : Nat} {es es' : List Entry} {best : Int}

theorem lookup_append : lookup searchKey (es ++ es') best = lookup searchKey es' (lookup searchKey es best) :=
  List.foldl_append

theorem lookup_above (h : ∀ e ∈ es, searchKey < e.1) : lookup searchKey es best = best := by
  induction es with
  | nil => rfl
  | cons e es ih =>
    have hkey : ¬ e.1 ≤ searchKey := Nat.not_le.mpr (h e List.mem_cons_self)
    rw [lookup, List.foldl_cons, if_neg hkey]
    exact ih fun e' he' => h e' (List.mem_cons_of_mem _ he')

/-- Below the key of a node the search goes on in the left subtree, from it on in the
right one with the node's value. -/
theorem lookup_split {key value : Nat} (h : ((es ++ (key, value) :: es').map Prod.fst).Pairwise (· < ·)) :
    lookup searchKey (es ++ (key, value) :: es') best =
      if searchKey < key then lookup searchKey es best else lookup searchKey es' value := by
  rw [List.map_append, List.map_cons, List.pairwise_append, List.pairwise_cons] at h
  rw [lookup_append]
  split
  · next hlt =>
    apply lookup_above
    intro e he
    rw [List.mem_cons] at he
    obtain rfl | he := he
    · exact hlt
    · exact Nat.lt_trans hlt (h.2.1.1 e.1 (List.mem_map_of_mem he))
  · next hge =>
    rw [lookup, List.foldl_cons, if_pos (Nat.not_lt.mp hge)]
    rfl

end Lookup

/-! ### Reading a tree -/

theorem sub64_lt (a b : Nat) : sub64 a b < 2 ^ 64 := by
  unfold sub64
  exact Nat.mod_lt _ (by decide)

theorem sub64_add {a b : Nat} (ha : a < wordSize) (hb : b < wordSize) : (sub64 a b + b) % wordSize = a := by
  unfold sub64 wordSize at *
  omega

theorem sub64_eq_zero {a b : Nat} (ha : a < wordSize) (hb : b < wordSize) : sub64 a b = 0 ↔ a = b := by
  unfold sub64 wordSize at *
  omega

section Read

variable {mem : Nat → UInt8} {searchKey pos parentKey : Nat} {best : Int}

/-- The place of a leaf's left or right entry, present or not. -/
inductive Slot (ownKey : Nat) : Option Entry → List UInt8 → Prop
  | absent : Slot ownKey none encDummy
  | present {e : Entry} (hkey : e.1 < wordSize) (hvalue : e.2 < 2 ^ 24) (hne : e.1 ≠ ownKey) :
    Slot ownKey (some e) (encEntry ownKey e)

/-- What `find_cft` reads in a slot: its test holds exactly when there is an entry and its key is not above the
search key. -/
theorem Slot.read (searchKey : Nat) {o : Option Entry} {bs : List UInt8} (hslot : Slot parentKey o bs)
    (hparent : parentKey < wordSize)
    (h : Holds mem pos bs) :
    ∃ relKey value pos', readKey mem pos = (relKey, pos') ∧ readValue mem pos' = (value, pos + bs.length) ∧
      ∀ other : Int, (if relKey ≠ 0 ∧ (relKey + parentKey) % wordSize ≤ searchKey then (value : Int) else other) =
        lookup searchKey o.toList other := by
  cases hslot with
  | absent =>
    obtain ⟨hkey, hvalue⟩ := (holds_append _ _ _ _).mp h
    refine ⟨0, 0, _, readKey_encRelKey (by decide) hkey, ?_, fun other => rfl⟩
    rw [readValue_encValue (by decide) hvalue, encDummy, List.length_append, Nat.add_assoc]
  | @present e hlt hvalue_lt hne =>
    obtain ⟨hkey, hvalue⟩ := (holds_append _ _ _ _).mp h
    refine ⟨sub64 e.1 parentKey, e.2, _, readKey_encRelKey (sub64_lt _ _) hkey, ?_, fun other => ?_⟩
    · rw [readValue_encValue hvalue_lt hvalue, encEntry, List.length_append, Nat.add_assoc]
    · have hnonzero : sub64 e.1 parentKey ≠ 0 := mt (sub64_eq_zero hlt hparent).mp hne
      simp [sub64_add hlt hparent, hnonzero, lookup]

theorem findLeaf_slots {left right : Option Entry} {lbs rbs : List UInt8} {ownValue : Nat}
    (hleft : Slot parentKey left lbs) (hright : Slot parentKey right rbs) (hparent : parentKey < wordSize)
    (hvalue : ownValue < 2 ^ 24) (h : Holds mem pos (lbs ++ encValue ownValue ++ rbs))
    (hend : pos + (lbs ++ encValue ownValue ++ rbs).length ≤ offsetmapSize - 16) :
    findLeaf mem searchKey pos parentKey best =
      if searchKey < parentKey then lookup searchKey left.toList best else lookup searchKey right.toList ownValue := by
  rw [holds_append, holds_append] at h
  obtain ⟨⟨hl, hv⟩, hr⟩ := h
  obtain ⟨leftKey, leftValue, lpos, hlk, hlv, hleft⟩ := hleft.read searchKey hparent hl
  rw [List.length_append, ← Nat.add_assoc] at hr
  obtain ⟨rightKey, rightValue, rpos, hrk, hrv, hright⟩ := hright.read searchKey hparent hr
  simp only [List.length_append] at hend
  have hpos₁ : ¬ offsetmapSize - 15 ≤ pos := by
    unfold offsetmapSize at *
    omega
  have hpos₂ : ¬ offsetmapSize - 15 ≤ pos + lbs.length := by
    omega
  have hpos₃ : ¬ offsetmapSize - 15 ≤ pos + lbs.length + (encValue ownValue).length := by
    omega
  simp only [findLeaf, hlk, hlv, readValue_encValue hvalue hv, hrk, hrv, if_neg hpos₁, if_neg hpos₂, if_neg hpos₃,
    hleft, hright]

variable {es : List Entry} {own : Entry}

theorem encLeafBody_slots (hvalid : Valid es) (hlen : es.length ≤ 3) (hown : leafOwn es = some own) :
    ∃ left right lbs rbs, es = left.toList ++ own :: right.toList ∧ encLeafBody es = lbs ++ encValue own.2 ++ rbs ∧
      Slot own.1 left lbs ∧ Slot own.1 right rbs := by
  have hpresent : ∀ e ∈ es, e.1 ≠ own.1 → Slot own.1 (some e) (encEntry own.1 e) := fun e he hne =>
    .present (hvalid.key_lt e he) (hvalid.value_lt e he) hne
  have hinc := hvalid.increasing
  match es, hlen with
  | [e], _ =>
    cases hown
    exact ⟨none, none, _, _, rfl, rfl, .absent, .absent⟩
  | [l, e], _ =>
    cases hown
    simp only [List.map_cons, List.pairwise_cons, List.mem_cons, forall_eq_or_imp] at hinc
    exact ⟨some l, none, _, _, rfl, rfl, hpresent l (by simp) (by omega), .absent⟩
  | [l, e, r], _ =>
    cases hown
    simp only [List.map_cons, List.pairwise_cons, List.mem_cons, forall_eq_or_imp] at hinc
    exact ⟨some l, some r, _, _, rfl, rfl, hpresent l (by simp) (by omega), hpresent r (by simp) (by omega)⟩

theorem findLeaf_body (hvalid : Valid es) (hlen : es.length ≤ 3) (hown : leafOwn es = some own)
    (h : Holds mem pos (encLeafBody es)) (hend : pos + (encLeafBody es).length ≤ offsetmapSize - 16) :
    findLeaf mem searchKey pos own.1 best = lookup searchKey es best := by
  obtain ⟨left, right, lbs, rbs, hes, hbody, hleft, hright⟩ := encLeafBody_slots hvalid hlen hown
  have hmem : own ∈ es := by simp [hes]
  rw [hbody] at h hend
  rw [findLeaf_slots hleft hright (hvalid.key_lt own hmem) (hvalid.value_lt own hmem) h hend]
  have hinc := hvalid.increasing
  rw [hes] at hinc ⊢
  exact (lookup_split hinc).symm

/-- The key at the root, none for an empty leaf. -/
def Tree.rootKey : Tree → Option Nat
  | .leaf es _ => (leafOwn es).map Prod.fst
  | .node _ key _ _ => some key

theorem encPtr_read {toLeaf : Bool} {relPtr : Nat} {bs : List UInt8} (hbs : encPtr toLeaf relPtr = some bs)
    (hrel : 0 < relPtr) (h : Holds mem pos bs) :
    mem pos ≠ 0 ∧ readRelPtr mem pos = (relPtr, toLeaf, pos + bs.length) := by
  cases toLeaf with
  | true => exact ⟨encRelLeafPtr_ne_marker hbs h, readRelPtr_encRelLeafPtr hbs h⟩
  | false => exact ⟨encRelPtr_ne_marker hbs hrel h, readRelPtr_encRelPtr hbs h⟩

theorem leafOwn_mem (h : leafOwn es = some own) : own ∈ es := by
  match es with
  | [e] | l :: e :: rest =>
    cases h
    simp

theorem leafOwn_eq_none (h : leafOwn es = none) : es = [] := by
  match es with
  | [] => rfl
  | [_] => cases h
  | _ :: _ :: _ => cases h

theorem encLeaf_of_own {marker : Bool} (h : leafOwn es = some own) :
    encLeaf parentKey es marker =
      encRelKey (sub64 own.1 parentKey) ++ ((if marker then encLeafMarker else []) ++ encLeafBody es) := by
  rw [encLeaf, h, Option.map_some, Option.getD_some]

variable {isLeaf : Bool} {steps : Nat}

theorem descend_stop {relKey currentKey pos' : Nat} (hpos : ¬ offsetmapSize - 15 ≤ pos)
    (hread : readKey mem pos = (relKey, pos')) (hne : relKey ≠ 0) (hkey : (relKey + parentKey) % wordSize = currentKey)
    (hleaf : isLeaf = true ∨ mem pos' = 0) :
    descend mem searchKey (steps + 1) pos isLeaf parentKey best =
      findLeaf mem searchKey (if isLeaf then pos' else pos' + 1) currentKey best := by
  simp only [descend, if_neg hpos, hread, if_neg hne, hkey]
  cases isLeaf with
  | true => simp only [if_true]
  | false =>
    have hmarker : mem pos' = 0 := by simpa using hleaf
    simp [hmarker]

theorem descend_turn {relKey currentKey relPtr value pos₁ pos₂ pos₃ : Nat} (hpos : ¬ offsetmapSize - 15 ≤ pos)
    (hread : readKey mem pos = (relKey, pos₁)) (hne : relKey ≠ 0) (hkey : (relKey + parentKey) % wordSize = currentKey)
    (hnode : mem pos₁ ≠ 0) (hptr : readRelPtr mem pos₁ = (relPtr, isLeaf, pos₂))
    (hvalue : readValue mem pos₂ = (value, pos₃)) :
    descend mem searchKey (steps + 1) pos false parentKey best =
      if searchKey < currentKey then descend mem searchKey steps (pos₂ + relPtr) isLeaf currentKey best
      else descend mem searchKey steps pos₃ isLeaf currentKey value := by
  simp [descend, hpos, hread, hne, hkey, hnode, hptr, hvalue]

theorem pos_in_range {len : Nat} (h : pos + len ≤ offsetmapSize - 16) : ¬ offsetmapSize - 15 ≤ pos := by
  unfold offsetmapSize at *
  omega

theorem descend_leaf (hvalid : Valid es) (hlen : es.length ≤ 3) (hparent : parentKey < wordSize)
    (hroot : ∀ own, leafOwn es = some own → own.1 ≠ parentKey) (h : Holds mem pos (encLeaf parentKey es !isLeaf))
    (hend : pos + (encLeaf parentKey es !isLeaf).length ≤ offsetmapSize - 16) :
    descend mem searchKey (steps + 1) pos isLeaf parentKey best = lookup searchKey es best := by
  have hpos := pos_in_range hend
  cases hown : leafOwn es with
  | none =>
    cases leafOwn_eq_none hown
    obtain ⟨hkey, -⟩ := (holds_append _ _ _ _).mp h
    rw [leafOwn, Option.map_none, Option.getD_none] at hkey
    simp only [descend, if_neg hpos, readKey_encRelKey (by decide) hkey, if_true]
    rfl
  | some own =>
    have hlt := hvalid.key_lt own (leafOwn_mem hown)
    have hne : sub64 own.1 parentKey ≠ 0 := mt (sub64_eq_zero hlt hparent).mp (hroot own hown)
    rw [encLeaf_of_own hown] at h hend
    obtain ⟨hkey, hrest⟩ := (holds_append _ _ _ _).mp h
    have hread := readKey_encRelKey (sub64_lt _ _) hkey
    simp only [List.length_append] at hend
    cases isLeaf with
    | true =>
      rw [descend_stop hpos hread hne (sub64_add hlt hparent) (.inl rfl), if_pos rfl]
      exact findLeaf_body hvalid hlen hown hrest (by omega)
    | false =>
      -- the marker stands before the body
      simp only [Bool.not_false, if_true, encLeafMarker, List.length_cons, List.length_nil, List.cons_append,
        List.nil_append, holds_cons] at hrest hend
      rw [descend_stop hpos hread hne (sub64_add hlt hparent) (.inr hrest.1), if_neg Bool.false_ne_true]
      exact findLeaf_body hvalid hlen hown hrest.2 (by omega)

theorem rootKey_ne {T : Tree} {key : Nat} (h : ∀ e ∈ T.entries, e.1 ≠ key) : T.rootKey ≠ some key := by
  intro hroot
  cases T with
  | leaf es marker =>
    obtain ⟨own, hown, rfl⟩ := Option.map_eq_some_iff.mp hroot
    exact h own (leafOwn_mem hown) rfl
  | node left k value right =>
    cases hroot
    exact h (key, value) (by simp [Tree.entries]) rfl

/-- The reader finds in the bytes of a tree what a linear search finds in its entries. -/
theorem descend_encode (T : Tree) (hwf : WellFormed isLeaf T) (hvalid : Valid T.entries)
    (hparent : parentKey < wordSize) (hroot : T.rootKey ≠ some parentKey) (h : Holds mem pos (encode parentKey T))
    (hend : pos + (encode parentKey T).length ≤ offsetmapSize - 16) (hsteps : T.height < steps) :
    descend mem searchKey steps pos isLeaf parentKey best = lookup searchKey T.entries best := by
  induction T generalizing isLeaf steps pos parentKey best with
  | leaf es marker =>
    obtain ⟨hlen, rfl⟩ := hwf
    obtain ⟨steps, rfl⟩ : ∃ n, steps = n + 1 := ⟨steps - 1, by omega⟩
    refine descend_leaf hvalid hlen hparent (fun own hown he => hroot ?_) h hend
    rw [Tree.rootKey, show leafOwn es = some own from hown, Option.map_some, he]
  | node left key value right ihl ihr =>
    obtain ⟨rfl, hfull, hwl, hwr, hfits⟩ := hwf
    obtain ⟨steps, rfl⟩ : ∃ n, steps = n + 1 := ⟨steps - 1, by omega⟩
    obtain ⟨ptr, hptr⟩ := Option.isSome_iff_exists.mp hfits
    have hmem : (key, value) ∈ (Tree.node left key value right).entries := by simp [Tree.entries]
    have hkey_lt : key < wordSize := hvalid.key_lt _ hmem
    have hvalue_lt : value < 2 ^ 24 := hvalid.value_lt _ hmem
    have hne : sub64 key parentKey ≠ 0 :=
      mt (sub64_eq_zero hkey_lt hparent).mp fun he => hroot (congrArg some he)
    have hheight : left.height < steps ∧ right.height < steps := by
      simp only [Tree.height] at hsteps
      omega
    have hinc := hvalid.increasing
    have hkeys : (∀ e ∈ left.entries, e.1 ≠ key) ∧ ∀ e ∈ right.entries, e.1 ≠ key := by
      simp only [Tree.entries, List.map_append, List.map_cons, List.pairwise_append, List.pairwise_cons] at hinc
      exact ⟨fun e he => Nat.ne_of_lt (hinc.2.2 e.1 (List.mem_map_of_mem he) key List.mem_cons_self),
        fun e he => Nat.ne_of_gt (hinc.2.1.1 e.1 (List.mem_map_of_mem he))⟩
    -- the parts of the node in memory
    have hpos := pos_in_range hend
    rw [encode, hptr, Option.getD_some] at h hend
    obtain ⟨hkey, hrest⟩ := (holds_append _ _ _ _).mp h
    obtain ⟨hptrs, hrest⟩ := (holds_append _ _ _ _).mp hrest
    obtain ⟨hbehind, hleft⟩ := (holds_append _ _ _ _).mp hrest
    obtain ⟨hvalue, hright⟩ := (holds_append _ _ _ _).mp hbehind
    have hbehind_pos : 0 < (encValue value ++ encode key right).length := by
      have := length_encValue value
      rw [List.length_append]
      omega
    obtain ⟨hnode, hreadPtr⟩ := encPtr_read hptr hbehind_pos hptrs
    rw [descend_turn hpos (readKey_encRelKey (sub64_lt _ _) hkey) hne (sub64_add hkey_lt hparent) hnode hreadPtr
      (readValue_encValue hvalue_lt hvalue), Tree.entries, lookup_split hinc]
    simp only [List.length_append] at hend hleft ⊢
    split
    · exact ihl hwl (hvalid.sublist (List.sublist_append_left _ _)) hkey_lt (rootKey_ne hkeys.1) hleft (by omega)
        hheight.1
    · refine ihr hwr (hvalid.sublist ?_) hkey_lt (rootKey_ne hkeys.2) hright (by omega) hheight.2
      exact (List.sublist_cons_self _ _).trans (List.sublist_append_right _ _)

end Read

end UnwindTable
