import Ubpftrace.Runs

/-!
# The bloom filter map

`bloom_filter.cpp`: a value is added by setting one bit for each of the hash functions
and found again if all of these bits are set. Bits are never cleared, and the mask of
the hash keeps every index inside the array, so a peek misses no value that was added.
`elem_lookup` does not answer; the filter is asked through `map_peek_elem` only.
-/

namespace BloomFilter

open Runs (after)

inductive Errno where
  | EINVAL
  | ENOENT
  | EOPNOTSUPP
  deriving DecidableEq

abbrev BPF_ANY : UInt64 := 0

inductive HashAlgorithm where
  | DJB2
  | JHASH
  deriving DecidableEq

/-! ## Sizes -/

def calculateOptimalBitArraySize (maxEntries nrHashes : UInt32) : Nat :=
  let optimalSize := maxEntries.toNat * nrHashes.toNat * 7 / 5
  let optimalSize := if optimalSize < 64 then 64 else optimalSize
  if optimalSize > 2 ^ 31 then 2 ^ 31 else optimalSize

/-- The loop that doubles `power_of_2_bits`. -/
def powerOfTwo (bits : Nat) : Nat → Nat → Nat
  | 0, power => power
  | fuel + 1, power => if power < bits then powerOfTwo bits fuel (power * 2) else power

/-! ## Hashes -/

/-- Four bytes from an offset on; those behind the end count as zero. -/
def word (k : List UInt8) (i : Nat) : UInt32 :=
  (k.getD i 0).toUInt32 + (k.getD (i + 1) 0).toUInt32 <<< 8 + (k.getD (i + 2) 0).toUInt32 <<< 16 +
    (k.getD (i + 3) 0).toUInt32 <<< 24

def rot (x l r : UInt32) : UInt32 := x <<< l ||| x >>> r

structure Jhash where
  a : UInt32
  b : UInt32
  c : UInt32

namespace Jhash

/-- The words of the next twelve bytes. -/
def add (h : Jhash) (k : List UInt8) : Jhash := ⟨h.a + word k 0, h.b + word k 4, h.c + word k 8⟩

def mix (h : Jhash) : Jhash :=
  let ⟨a, b, c⟩ := h
  let a := (a - c) ^^^ rot c 4 28
  let c := c + b
  let b := (b - a) ^^^ rot a 6 26
  let a := a + c
  let c := (c - b) ^^^ rot b 8 24
  let b := b + a
  let a := (a - c) ^^^ rot c 16 16
  let c := c + b
  let b := (b - a) ^^^ rot a 19 13
  let a := a + c
  let c := (c - b) ^^^ rot b 4 28
  let b := b + a
  ⟨a, b, c⟩

def final (h : Jhash) : UInt32 :=
  let ⟨a, b, c⟩ := h
  let c := (c ^^^ b) - rot b 14 18
  let a := (a ^^^ c) - rot c 11 21
  let b := (b ^^^ a) - rot a 25 7
  let c := (c ^^^ b) - rot b 16 16
  let a := (a ^^^ c) - rot c 4 28
  let b := (b ^^^ a) - rot a 14 18
  (c ^^^ b) - rot b 24 8

/-- The loop over the key while more than twelve bytes are left, and the switch behind it;
each round takes twelve bytes, so the length is enough fuel. -/
def run : Nat → Jhash → List UInt8 → UInt32
  | 0, h, _ => h.c
  | fuel + 1, h, k =>
    if k.length > 12 then run fuel (h.add k).mix (k.drop 12)
    else if k.length = 0 then h.c
    else (h.add k).final

end Jhash

def jhash (key : List UInt8) (initval : UInt32) : UInt32 :=
  let x := 0xdeadbeef + UInt32.ofNat key.length + initval
  Jhash.run (key.length + 1) ⟨x, x, x⟩ key

def djb2 (key : List UInt8) (initval : UInt32) : UInt32 :=
  let hash := key.foldl (fun (hash : UInt32) byte => ((hash <<< 5) + hash) + byte.toUInt32) initval
  let hash := hash ^^^ hash >>> 16
  let hash := hash * 0x85ebca6b
  let hash := hash ^^^ hash >>> 13
  let hash := hash * 0xc2b2ae35
  hash ^^^ hash >>> 16

/-! ## The map -/

/-- `bloom_filter_map_impl` for values of `valueSize` bytes. -/
structure Filter (valueSize : Nat) where
  maxEntries : UInt32
  nrHashes : UInt32
  hashAlgorithm : HashAlgorithm
  hashSeed : UInt32
  bitArraySizeBits : Nat
  bitArrayMask : UInt32
  bitArray : List UInt8

namespace Filter

variable {valueSize : Nat} (f : Filter valueSize)

/-- The constructor, which throws for sizes of zero and for a number of hashes out of range;
`seed` is the random one. -/
def new (valueSize : Nat) (maxEntries nrHashes : UInt32) (hashAlgorithm : HashAlgorithm) (seed : UInt32) :
    Option (Filter valueSize) :=
  if valueSize = 0 ∨ maxEntries = 0 then none
  else if nrHashes = 0 ∨ nrHashes > 15 then none
  else
    let bits := powerOfTwo (calculateOptimalBitArraySize maxEntries nrHashes) 32 1
    some
      { maxEntries := maxEntries
        nrHashes := nrHashes
        hashAlgorithm := hashAlgorithm
        hashSeed := seed
        bitArraySizeBits := bits
        bitArrayMask := UInt32.ofNat (bits - 1)
        bitArray := List.replicate ((bits + 7) / 8) 0 }

def hashValue (value : Vector UInt8 valueSize) (hashIndex : UInt32) : UInt32 :=
  let hash :=
    match f.hashAlgorithm with
    | .JHASH => jhash value.toList (f.hashSeed + hashIndex)
    | .DJB2 => djb2 value.toList (f.hashSeed + hashIndex * 0x9e3779b9)
  hash &&& f.bitArrayMask

def bit (bitIndex : UInt32) : UInt8 := 1 <<< UInt8.ofNat (bitIndex.toNat % 8)

def setBit (bitIndex : UInt32) : Filter valueSize :=
  if bitIndex.toNat / 8 < f.bitArray.length then
    { f with bitArray := f.bitArray.modify (bitIndex.toNat / 8) (· ||| bit bitIndex) }
  else f

def testBit (bitIndex : UInt32) : Bool :=
  if bitIndex.toNat / 8 < f.bitArray.length then f.bitArray.getD (bitIndex.toNat / 8) 0 &&& bit bitIndex ≠ 0 else false

/-- The indices of the hash functions, in the order of the loops. -/
def hashIndices : List UInt32 := (List.range f.nrHashes.toNat).map UInt32.ofNat

/-- The loop of `elem_update` and of `map_push_elem`. -/
def add (value : Vector UInt8 valueSize) : Filter valueSize :=
  f.hashIndices.foldl (fun g i => g.setBit (g.hashValue value i)) f

/-- There is no answer but the error. -/
def elemLookup (_f : Filter valueSize) (_key : Option (Vector UInt8 valueSize)) : Option Errno := some .EOPNOTSUPP

/-- `elem_update`, whose key is ignored, and `map_push_elem`. -/
def elemUpdate (value : Option (Vector UInt8 valueSize)) (flags : UInt64) : Option Errno × Filter valueSize :=
  match value with
  | none => (some .EINVAL, f)
  | some value => if flags ≠ BPF_ANY then (some .EINVAL, f) else (none, f.add value)

def mapPushElem (value : Option (Vector UInt8 valueSize)) (flags : UInt64) : Option Errno × Filter valueSize :=
  f.elemUpdate value flags

/-- No error means that the value may be present. -/
def mapPeekElem (value : Option (Vector UInt8 valueSize)) : Option Errno :=
  match value with
  | none => some .EINVAL
  | some value => if f.hashIndices.all fun i => f.testBit (f.hashValue value i) then none else some .ENOENT

end Filter

/-- The calls; the last three are `elem_delete`, `map_pop_elem` and `map_get_next_key`. -/
inductive Call (valueSize : Nat) where
  | lookup (key : Option (Vector UInt8 valueSize))
  | update (value : Option (Vector UInt8 valueSize)) (flags : UInt64)
  | push (value : Option (Vector UInt8 valueSize)) (flags : UInt64)
  | peek (value : Option (Vector UInt8 valueSize))
  | delete
  | pop
  | getNextKey

variable {valueSize : Nat}

def step (f : Filter valueSize) : Call valueSize → Option Errno × Filter valueSize
  | .lookup key => (f.elemLookup key, f)
  | .update value flags => f.elemUpdate value flags
  | .push value flags => f.mapPushElem value flags
  | .peek value => (f.mapPeekElem value, f)
  | .delete | .pop | .getNextKey => (some .EOPNOTSUPP, f)

/-! ## Sizes -/

theorem calculateOptimalBitArraySize_bounds (maxEntries nrHashes : UInt32) :
    64 ≤ calculateOptimalBitArraySize maxEntries nrHashes ∧
      calculateOptimalBitArraySize maxEntries nrHashes ≤ 2 ^ 31 := by
  simp only [calculateOptimalBitArraySize]
  split_ifs <;> omega

/-- The loop ends at the first power that is large enough. -/
theorem powerOfTwo_bounds {bits fuel power : Nat} (hbits : bits ≤ power * 2 ^ fuel) (hpower : power < 2 * bits) :
    bits ≤ powerOfTwo bits fuel power ∧ powerOfTwo bits fuel power < 2 * bits := by
  induction fuel generalizing power with
  | zero =>
    rw [powerOfTwo]
    exact ⟨by simpa using hbits, hpower⟩
  | succ fuel ih =>
    rw [powerOfTwo]
    split_ifs with hlt
    · refine ih ?_ (by omega)
      rwa [Nat.mul_assoc, ← Nat.pow_succ']
    · exact ⟨by omega, hpower⟩

/-! ## Bits -/

section Bits

variable (f : Filter valueSize) (i : UInt32)

theorem bit_ne_zero : Filter.bit i ≠ 0 := by
  have hlt : i.toNat % 8 < 8 := Nat.mod_lt _ (by decide)
  have hall : ∀ j < 8, (1 : UInt8) <<< UInt8.ofNat j ≠ 0 := by decide
  exact hall _ hlt

theorem or_and_distrib (x y z : UInt8) : (x ||| y) &&& z = x &&& z ||| y &&& z :=
  UInt8.toBitVec_inj.mp BitVec.and_or_distrib_right

/-- A bit that is set stays so when others are set. -/
theorem or_and_ne_zero {x y z : UInt8} (h : x &&& z ≠ 0) : (x ||| y) &&& z ≠ 0 := by
  rw [or_and_distrib]
  exact fun hz => h (UInt8.or_eq_zero_iff.mp hz).1

theorem or_and_self_ne_zero {x y : UInt8} (h : y ≠ 0) : (x ||| y) &&& y ≠ 0 := by
  rw [or_and_distrib, UInt8.and_self]
  exact fun hz => h (UInt8.or_eq_zero_iff.mp hz).2

@[simp] theorem length_setBit : (f.setBit i).bitArray.length = f.bitArray.length := by
  rw [Filter.setBit]
  split_ifs
  · simp
  · rfl

theorem testBit_iff :
    f.testBit i = true ↔ ∃ byte, f.bitArray[i.toNat / 8]? = some byte ∧ byte &&& Filter.bit i ≠ 0 := by
  rw [Filter.testBit]
  split_ifs with h
  · simp [List.getD_eq_getElem?_getD, h]
  · simp [List.getElem?_eq_none (Nat.le_of_not_lt h)]

theorem testBit_setBit_self {i : UInt32} (h : i.toNat / 8 < f.bitArray.length) : (f.setBit i).testBit i = true := by
  rw [testBit_iff, Filter.setBit, if_pos h]
  refine ⟨f.bitArray[i.toNat / 8] ||| Filter.bit i, by simp [h], or_and_self_ne_zero (bit_ne_zero i)⟩

theorem testBit_setBit_of_testBit {j : UInt32} (h : f.testBit j = true) : (f.setBit i).testBit j = true := by
  rw [Filter.setBit]
  split_ifs
  · obtain ⟨byte, hbyte, hset⟩ := (testBit_iff f j).mp h
    rw [testBit_iff, List.getElem?_modify, hbyte]
    by_cases hsame : i.toNat / 8 = j.toNat / 8
    · exact ⟨byte ||| Filter.bit i, by simp [hsame], or_and_ne_zero hset⟩
    · exact ⟨byte, by simp [hsame], hset⟩
  · exact h

end Bits

/-! ## Values -/

/-- Filters with the same hash functions, of which the second has all bits of the first. -/
structure Grows (f g : Filter valueSize) : Prop where
  nrHashes : g.nrHashes = f.nrHashes
  hashValue : ∀ value i, g.hashValue value i = f.hashValue value i
  bits : g.bitArraySizeBits = f.bitArraySizeBits
  length : g.bitArray.length = f.bitArray.length
  testBit : ∀ i, f.testBit i = true → g.testBit i = true

theorem Grows.refl (f : Filter valueSize) : Grows f f := ⟨rfl, fun _ _ => rfl, rfl, rfl, fun _ h => h⟩

variable {f g : Filter valueSize} {value : Vector UInt8 valueSize}

theorem Grows.trans {h : Filter valueSize} (hfg : Grows f g) (hgh : Grows g h) : Grows f h :=
  ⟨hgh.nrHashes.trans hfg.nrHashes, fun value i => (hgh.hashValue value i).trans (hfg.hashValue value i),
    hgh.bits.trans hfg.bits, hgh.length.trans hfg.length, fun i hi => hgh.testBit i (hfg.testBit i hi)⟩

theorem grows_setBit (f : Filter valueSize) (i : UInt32) : Grows f (f.setBit i) := by
  refine ⟨?_, fun value j => ?_, ?_, length_setBit f i, fun j hj => testBit_setBit_of_testBit f i hj⟩ <;>
  · rw [Filter.setBit]
    split_ifs <;> rfl

/-- The indices of all hash functions are those of bits, and the array has a byte for each. -/
structure Sized (f : Filter valueSize) : Prop where
  lt : ∀ value i, (f.hashValue value i).toNat < f.bitArraySizeBits
  length : f.bitArray.length = (f.bitArraySizeBits + 7) / 8

theorem Sized.of_grows (h : Sized f) (hfg : Grows f g) : Sized g where
  lt value i := by
    rw [hfg.hashValue, hfg.bits]
    exact h.lt value i
  length := by rw [hfg.length, hfg.bits, h.length]

theorem Sized.byte_lt (h : Sized f) (value : Vector UInt8 valueSize) (i : UInt32) :
    (f.hashValue value i).toNat / 8 < f.bitArray.length := by
  have := h.lt value i
  rw [h.length]
  omega

/-- The loop sets the bits of all hash functions it comes to. -/
theorem grows_addLoop (value : Vector UInt8 valueSize) (indices : List UInt32) (hf : Sized f) :
    Grows f (indices.foldl (fun g i => g.setBit (g.hashValue value i)) f) ∧
      ∀ i ∈ indices, (indices.foldl (fun g i => g.setBit (g.hashValue value i)) f).testBit (f.hashValue value i) =
        true := by
  induction indices generalizing f with
  | nil => exact ⟨.refl f, by simp⟩
  | cons i indices ih =>
    have hset := grows_setBit f (f.hashValue value i)
    obtain ⟨hgrows, hbits⟩ := ih (hf.of_grows hset)
    refine ⟨hset.trans hgrows, fun j hj => ?_⟩
    rcases List.mem_cons.mp hj with rfl | hj
    · exact hgrows.testBit _ (testBit_setBit_self f (hf.byte_lt value j))
    · rw [← hset.hashValue]
      exact hbits j hj

/-- The value may be present, as far as the filter tells. -/
def MayHold (f : Filter valueSize) (value : Vector UInt8 valueSize) : Prop := f.mapPeekElem (some value) = none

theorem mayHold_iff : MayHold f value ↔ ∀ i ∈ f.hashIndices, f.testBit (f.hashValue value i) = true := by
  simp [MayHold, Filter.mapPeekElem]

theorem MayHold.of_grows (h : MayHold f value) (hfg : Grows f g) : MayHold g value := by
  rw [mayHold_iff] at h ⊢
  intro i hi
  rw [Filter.hashIndices, hfg.nrHashes] at hi
  rw [hfg.hashValue]
  exact hfg.testBit _ (h i hi)

theorem add_spec (hf : Sized f) (value : Vector UInt8 valueSize) :
    Grows f (f.add value) ∧ MayHold (f.add value) value := by
  obtain ⟨hgrows, hbits⟩ := grows_addLoop value f.hashIndices hf
  refine ⟨hgrows, mayHold_iff.mpr fun i hi => ?_⟩
  have hadd : Grows f (f.add value) := hgrows
  rw [Filter.hashIndices, hadd.nrHashes] at hi
  rw [hadd.hashValue]
  exact hbits i hi

def Call.Adds (value : Vector UInt8 valueSize) : Call valueSize → Prop
  | .update v flags | .push v flags => v = some value ∧ flags = BPF_ANY
  | .lookup _ | .peek _ | .delete | .pop | .getNextKey => False

theorem step_spec (hf : Sized f) (c : Call valueSize) :
    Grows f (step f c).2 ∧ ∀ value, c.Adds value → MayHold (step f c).2 value := by
  have hupdate (v : Option (Vector UInt8 valueSize)) (flags : UInt64) :
      Grows f (f.elemUpdate v flags).2 ∧
        ∀ value, v = some value ∧ flags = BPF_ANY → MayHold (f.elemUpdate v flags).2 value := by
    cases v with
    | none => exact ⟨.refl f, by simp⟩
    | some v =>
      rw [Filter.elemUpdate]
      split_ifs with hflags
      · exact ⟨.refl f, fun value h => absurd h.2 hflags⟩
      · refine ⟨(add_spec hf v).1, ?_⟩
        rintro value ⟨hv, -⟩
        cases hv
        exact (add_spec hf v).2
  cases c with
  | update v flags | push v flags => exact hupdate v flags
  | lookup _ | peek _ | delete | pop | getNextKey => exact ⟨.refl f, fun _ h => h.elim⟩

theorem after_spec (hf : Sized f) (calls : List (Call valueSize)) :
    Grows f (after step f calls) ∧ ∀ value, (∃ c ∈ calls, c.Adds value) → MayHold (after step f calls) value := by
  induction calls generalizing f with
  | nil => exact ⟨.refl f, by simp⟩
  | cons c calls ih =>
    obtain ⟨hgrows, hadds⟩ := step_spec hf c
    obtain ⟨hafter, hheld⟩ := ih (hf.of_grows hgrows)
    refine ⟨hgrows.trans hafter, ?_⟩
    rintro value ⟨c', hc', hvalue⟩
    rcases List.mem_cons.mp hc' with rfl | hc'
    · exact (hadds value hvalue).of_grows hafter
    · exact hheld value ⟨c', hc', hvalue⟩

theorem hashValue_lt_of_mask (hmask : f.bitArrayMask = UInt32.ofNat (f.bitArraySizeBits - 1))
    (hpos : 0 < f.bitArraySizeBits) (hfits : f.bitArraySizeBits ≤ 2 ^ 32) (value : Vector UInt8 valueSize)
    (i : UInt32) :
    (f.hashValue value i).toNat < f.bitArraySizeBits := by
  have hle : (f.hashValue value i).toNat ≤ f.bitArrayMask.toNat := by
    exact Nat.and_le_right
  have hmask : f.bitArrayMask.toNat = f.bitArraySizeBits - 1 := by
    rw [hmask, UInt32.toNat_ofNat_of_lt']
    exact lt_of_lt_of_le (Nat.sub_lt hpos one_pos) hfits
  omega

theorem sized_new {maxEntries nrHashes seed : UInt32} {algorithm : HashAlgorithm}
    (h : Filter.new valueSize maxEntries nrHashes algorithm seed = some f) : Sized f := by
  unfold Filter.new at h
  split_ifs at h
  cases h
  obtain ⟨hlow, hhigh⟩ := calculateOptimalBitArraySize_bounds maxEntries nrHashes
  generalize calculateOptimalBitArraySize maxEntries nrHashes = optimal at hlow hhigh ⊢
  have hbits : optimal ≤ powerOfTwo optimal 32 1 ∧ powerOfTwo optimal 32 1 < 2 * optimal :=
    powerOfTwo_bounds (by omega) (by omega)
  refine ⟨hashValue_lt_of_mask rfl ?_ ?_, List.length_replicate⟩
  · exact Nat.lt_of_lt_of_le (by omega) hbits.1
  · dsimp only
    omega

/-- After any calls a peek finds each value that one of them added, and the bits of every
value lie in the array; a lookup is refused for all values, added or not. -/
theorem peek_misses_nothing {maxEntries nrHashes seed : UInt32} {algorithm : HashAlgorithm} {f : Filter valueSize}
    (h : Filter.new valueSize maxEntries nrHashes algorithm seed = some f) (calls : List (Call valueSize)) :
    let g := after step f calls
    (∀ value, (∃ c ∈ calls, c.Adds value) → g.mapPeekElem (some value) = none) ∧
      (∀ value, g.elemLookup (some value) = some .EOPNOTSUPP) ∧
      ∀ value i, (g.hashValue value i).toNat < g.bitArraySizeBits ∧
        (g.hashValue value i).toNat / 8 < g.bitArray.length := by
  obtain ⟨hgrows, hheld⟩ := after_spec (sized_new h) calls
  have hsized := (sized_new h).of_grows hgrows
  exact ⟨hheld, fun _ => rfl, fun value i => ⟨hsized.lt value i, hsized.byte_lt value i⟩⟩

theorem peek_misses_nothing_pushed : ∃ f : Filter 2, Filter.new 2 1000 3 .JHASH 77 = some f ∧
    (after step f [.push (some #v[1, 2]) BPF_ANY, .pop]).mapPeekElem (some #v[1, 2]) = none := by
  have hnew : ∃ f, Filter.new 2 1000 3 .JHASH 77 = some f := ⟨_, rfl⟩
  obtain ⟨f, hf⟩ := hnew
  exact ⟨f, hf, (peek_misses_nothing hf _).1 _ ⟨.push (some #v[1, 2]) BPF_ANY, by simp, rfl, rfl⟩⟩

/-- `elem_lookup` does not report a value that was added. -/
theorem added_value_not_looked_up : ∃ f : Filter 1, Filter.new 1 1 1 .DJB2 0 = some f ∧
    (step f (.update (some #v[7]) BPF_ANY)).1 = none ∧
    (after step f [.update (some #v[7]) BPF_ANY]).elemLookup (some #v[7]) = some .EOPNOTSUPP :=
  ⟨_, rfl, rfl, rfl⟩

end BloomFilter
