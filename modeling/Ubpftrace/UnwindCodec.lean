import Mathlib.Data.Nat.Bitwise
import Ubpftrace.Bytes

/-!
# The numbers of the unwind table

Keys, pointers and values of the table in `dwunwind_table.cpp` are encoded in one to
nine bytes, and the BPF program reads them back (`uw_read_key`, `uw_read_rel_ptr`,
`uw_read_value`).
-/

namespace UnwindTable

open Bytes

/-- `u64`. -/
def wordSize : Nat := 2 ^ 64

/-- A `uint64_t` read as an `int64_t`. -/
def toSigned (u : Nat) : Int := if u < 2 ^ 63 then u else u - 2 ^ 64

def encRelKey (ukey : Nat) : List UInt8 :=
  let relKey := toSigned ukey
  if -111 ≤ relKey ∧ relKey ≤ 111 then [UInt8.ofNat (relKey + 111).toNat]
  else if -0x1000 ≤ relKey ∧ relKey < 0x1000 then
    [UInt8.ofNat (0xe0 ||| ((ukey >>> 8) &&& 0x1f)), UInt8.ofNat (ukey &&& 0xff)]
  else 0xdf :: le 8 ukey

/-- `none` where the source returns an empty vector: the pointer is too large. -/
def encRelPtr (relPtr : Nat) : Option (List UInt8) :=
  if relPtr ≤ 0xcf then some [UInt8.ofNat relPtr]
  else if relPtr ≤ 0x3ffff then
    some [UInt8.ofNat (0xd0 ||| ((relPtr >>> 16) &&& 0x07)), UInt8.ofNat (relPtr &&& 0xff), UInt8.ofNat (relPtr >>> 8)]
  else none

def encRelLeafPtr (relPtr : Nat) : Option (List UInt8) :=
  if relPtr ≤ 0x1f then some [UInt8.ofNat (0xe0 ||| relPtr)]
  else if relPtr ≤ 0x3ffff then
    some [UInt8.ofNat (0xd8 ||| ((relPtr >>> 16) &&& 0x07)), UInt8.ofNat (relPtr &&& 0xff), UInt8.ofNat (relPtr >>> 8)]
  else none

def encLeafMarker : List UInt8 := [0x00]

/-- Values are below `2 ^ 24`; larger ones end the program. -/
def encValue (val : Nat) : List UInt8 :=
  if val ≤ 0xf6 then [UInt8.ofNat val]
  else if val ≤ 0x3ff then [UInt8.ofNat (0xf8 ||| ((val >>> 8) &&& 0x07)), UInt8.ofNat (val &&& 0xff)]
  else [0xf7, UInt8.ofNat ((val >>> 16) &&& 0xff), UInt8.ofNat ((val >>> 8) &&& 0xff), UInt8.ofNat (val &&& 0xff)]

/-- The key at a position and the position behind it. -/
def readKey (mem : Nat → UInt8) (pos : Nat) : Nat × Nat :=
  let b := (mem pos).toNat
  if b ≤ 0xde then ((b + wordSize - 111) % wordSize, pos + 1)
  else if b = 0xdf then (readLe mem (pos + 1) 8, pos + 9)
  else
    let key := ((b &&& 0x1f) <<< 8) ||| (mem (pos + 1)).toNat
    (if key &&& 0x1000 ≠ 0 then key ||| (wordSize - 1 - 0x1fff) else key, pos + 2)

/-- The pointer at a position, whether it points to a leaf, and the position behind it. -/
def readRelPtr (mem : Nat → UInt8) (pos : Nat) : Nat × Bool × Nat :=
  let b := (mem pos).toNat
  if b ≤ 0xcf then (b, false, pos + 1)
  else if b ≤ 0xd7 then (((b &&& 0x07) <<< 16) ||| readLe mem (pos + 1) 2, false, pos + 3)
  else if b ≤ 0xdf then (((b &&& 0x07) <<< 16) ||| readLe mem (pos + 1) 2, true, pos + 3)
  else (b &&& 0x1f, true, pos + 1)

def readValue (mem : Nat → UInt8) (pos : Nat) : Nat × Nat :=
  let b := (mem pos).toNat
  if b ≤ 0xf6 then (b, pos + 1)
  else if b = 0xf7 then
    (((mem (pos + 1)).toNat <<< 16) ||| ((mem (pos + 2)).toNat <<< 8) ||| (mem (pos + 3)).toNat, pos + 4)
  else (((b &&& 0x07) <<< 8) ||| (mem (pos + 1)).toNat, pos + 2)

/-! ## Bits -/

theorem and_07 (x : Nat) : x &&& 0x07 = x % 8 := Nat.and_two_pow_sub_one_eq_mod x 3
theorem and_1f (x : Nat) : x &&& 0x1f = x % 32 := Nat.and_two_pow_sub_one_eq_mod x 5
theorem and_ff (x : Nat) : x &&& 0xff = x % 256 := Nat.and_two_pow_sub_one_eq_mod x 8

theorem shl_or {x y k : Nat} (h : y < 2 ^ k) : (x <<< k) ||| y = x * 2 ^ k + y := by
  rw [← Nat.shiftLeft_add_eq_or_of_lt h, Nat.shiftLeft_eq]

theorem or_high (h : Nat) {y k : Nat} (hy : y < 2 ^ k) : (h * 2 ^ k) ||| y = h * 2 ^ k + y := by
  rw [← Nat.shiftLeft_eq, shl_or hy, Nat.shiftLeft_eq]

theorem or_e0 {y : Nat} (h : y < 32) : 0xe0 ||| y = 0xe0 + y := or_high 7 (k := 5) h
theorem or_f8 {y : Nat} (h : y < 8) : 0xf8 ||| y = 0xf8 + y := or_high 31 (k := 3) h

theorem toNat_ofNat (x : Nat) : (UInt8.ofNat x).toNat = x % 256 := UInt8.toNat_ofNat'

/-- The sign bit of a key of 13 bits, and its extension. -/
theorem sign_extend {key : Nat} (h : key < 2 ^ 13) :
    (if key &&& 0x1000 ≠ 0 then key ||| (wordSize - 1 - 0x1fff) else key) =
      if 2 ^ 12 ≤ key then key + (2 ^ 64 - 2 ^ 13) else key := by
  have hbit : key &&& 0x1000 = if 2 ^ 12 ≤ key then 0x1000 else 0 := by
    have := Nat.and_two_pow key 12
    rw [Nat.testBit_eq_decide_div_mod_eq] at this
    split
    · rw [show (0x1000 : Nat) = 2 ^ 12 by rfl, this, decide_eq_true (by omega)]
      rfl
    · rw [show (0x1000 : Nat) = 2 ^ 12 by rfl, this, decide_eq_false (by omega)]
      rfl
  have hext : key ||| (wordSize - 1 - 0x1fff) = key + (2 ^ 64 - 2 ^ 13) := by
    have := or_high (2 ^ 51 - 1) (k := 13) h
    rw [Nat.or_comm, show wordSize - 1 - 0x1fff = (2 ^ 51 - 1) * 2 ^ 13 by rfl, this]
    omega
  rw [hbit, hext]
  split <;> simp

/-! ## Reading back -/

section RoundTrip

variable {mem : Nat → UInt8} {pos : Nat}

theorem readValue_encValue {val : Nat} (hval : val < 2 ^ 24) (h : Holds mem pos (encValue val)) :
    readValue mem pos = (val, pos + (encValue val).length) := by
  unfold encValue at *
  by_cases hsmall : val ≤ 0xf6
  · rw [if_pos hsmall] at h ⊢
    have hbyte : (mem pos).toNat = val := by
      rw [((holds_cons _ _ _ _).mp h).1, toNat_ofNat]
      omega
    simp [readValue, hbyte, hsmall]
  · rw [if_neg hsmall] at h ⊢
    by_cases hmedium : val ≤ 0x3ff
    · rw [if_pos hmedium] at h ⊢
      simp only [holds_cons, holds_nil, and_true] at h
      obtain ⟨h0, h1⟩ := h
      have hhigh : val >>> 8 = val / 256 := Nat.shiftRight_eq_div_pow val 8
      have hbyte0 : (mem pos).toNat = 0xf8 + val / 256 := by
        rw [h0, and_07, hhigh, or_f8 (by omega), toNat_ofNat]
        omega
      have hbyte1 : (mem (pos + 1)).toNat = val % 256 := by
        rw [h1, and_ff, toNat_ofNat]
        omega
      have hread : ((0xf8 + val / 256) &&& 0x07) <<< 8 ||| val % 256 = val := by
        rw [and_07, shl_or (by omega)]
        omega
      simp only [readValue, hbyte0, hbyte1, hread]
      rw [if_neg (by omega), if_neg (by omega)]
      rfl
    · rw [if_neg hmedium] at h ⊢
      simp only [holds_cons, holds_nil, and_true] at h
      obtain ⟨h0, h1, h2, h3⟩ := h
      have hhigh : val >>> 16 = val / 65536 := Nat.shiftRight_eq_div_pow val 16
      have hmid : val >>> 8 = val / 256 := Nat.shiftRight_eq_div_pow val 8
      have hbyte1 : (mem (pos + 1)).toNat = val / 65536 := by
        rw [h1, hhigh, and_ff, toNat_ofNat]
        omega
      have hbyte2 : (mem (pos + 2)).toNat = val / 256 % 256 := by
        rw [h2, hmid, and_ff, toNat_ofNat]
        omega
      have hbyte3 : (mem (pos + 3)).toNat = val % 256 := by
        rw [h3, and_ff, toNat_ofNat]
        omega
      have hread : (val / 65536) <<< 16 ||| (val / 256 % 256) <<< 8 ||| val % 256 = val := by
        rw [Nat.or_assoc, shl_or (x := val / 256 % 256) (k := 8) (by omega), shl_or (by omega)]
        omega
      simp only [readValue, h0, hbyte1, hbyte2, hbyte3, hread]
      rfl

theorem readKey_encRelKey {ukey : Nat} (hkey : ukey < 2 ^ 64) (h : Holds mem pos (encRelKey ukey)) :
    readKey mem pos = (ukey, pos + (encRelKey ukey).length) := by
  have hsigned : (ukey < 2 ^ 63 ∧ toSigned ukey = ukey) ∨ (2 ^ 63 ≤ ukey ∧ toSigned ukey = ukey - 2 ^ 64) := by
    unfold toSigned
    split
    · exact .inl ⟨by assumption, rfl⟩
    · exact .inr ⟨by omega, rfl⟩
  simp only [encRelKey] at h ⊢
  by_cases hsmall : -111 ≤ toSigned ukey ∧ toSigned ukey ≤ 111
  · rw [if_pos hsmall] at h ⊢
    have hbyte : (mem pos).toNat = (toSigned ukey + 111).toNat := by
      rw [((holds_cons _ _ _ _).mp h).1, toNat_ofNat]
      omega
    have hread : ((toSigned ukey + 111).toNat + wordSize - 111) % wordSize = ukey := by
      simp only [wordSize]
      omega
    simp only [readKey, hbyte, hread]
    rw [if_pos (by omega)]
    rfl
  · rw [if_neg hsmall] at h ⊢
    by_cases hmedium : -0x1000 ≤ toSigned ukey ∧ toSigned ukey < 0x1000
    · rw [if_pos hmedium] at h ⊢
      simp only [holds_cons, holds_nil, and_true] at h
      obtain ⟨h0, h1⟩ := h
      have hhigh : ukey >>> 8 = ukey / 256 := Nat.shiftRight_eq_div_pow ukey 8
      have hbyte0 : (mem pos).toNat = 0xe0 + ukey / 256 % 32 := by
        rw [h0, and_1f, hhigh, or_e0 (by omega), toNat_ofNat]
        omega
      have hbyte1 : (mem (pos + 1)).toNat = ukey % 256 := by
        rw [h1, and_ff, toNat_ofNat]
        omega
      have hread : ((0xe0 + ukey / 256 % 32) &&& 0x1f) <<< 8 ||| ukey % 256 = ukey % 2 ^ 13 := by
        rw [and_1f, shl_or (by omega)]
        omega
      have hextended :
        (if 2 ^ 12 ≤ ukey % 2 ^ 13 then ukey % 2 ^ 13 + (2 ^ 64 - 2 ^ 13) else ukey % 2 ^ 13) = ukey := by
        split <;> omega
      simp only [readKey, hbyte0, hbyte1, hread]
      rw [if_neg (by omega), if_neg (by omega), sign_extend (by omega), hextended]
      rfl
    · rw [if_neg hmedium] at h ⊢
      obtain ⟨h0, hrest⟩ := (holds_cons _ _ _ _).mp h
      have hread : readLe mem (pos + 1) 8 = ukey := by
        rw [readLe_of_holds _ _ _ _ hrest]
        exact Nat.mod_eq_of_lt hkey
      simp [readKey, h0, hread]

variable {relPtr : Nat}

variable {bs : List UInt8}

/-- A long pointer begins with its tag and top bits; the two bytes behind have the others. -/
theorem longPtr_read {tag : Nat} (htag : tag = 0xd0 ∨ tag = 0xd8) (hmedium : relPtr ≤ 0x3ffff)
    (h : Holds mem pos
      [UInt8.ofNat (tag ||| ((relPtr >>> 16) &&& 0x07)), UInt8.ofNat (relPtr &&& 0xff), UInt8.ofNat (relPtr >>> 8)]) :
    (mem pos).toNat = tag + relPtr / 65536 ∧
      (((mem pos).toNat &&& 0x07) <<< 16) ||| readLe mem (pos + 1) 2 = relPtr := by
  simp only [holds_cons, holds_nil, and_true] at h
  obtain ⟨h0, h1, h2⟩ := h
  have hhigh : relPtr >>> 16 = relPtr / 65536 := Nat.shiftRight_eq_div_pow relPtr 16
  have hmid : relPtr >>> 8 = relPtr / 256 := Nat.shiftRight_eq_div_pow relPtr 8
  have hor : tag ||| relPtr / 65536 % 8 = tag + relPtr / 65536 % 8 := by
    obtain rfl | rfl := htag
    · exact or_high 26 (k := 3) (by omega)
    · exact or_high 27 (k := 3) (by omega)
  have hbyte : (mem pos).toNat = tag + relPtr / 65536 := by
    rw [h0, and_07, hhigh, hor, toNat_ofNat]
    omega
  have hread : readLe mem (pos + 1) 2 = relPtr % 65536 := by
    simp only [readLe, h1, and_ff, toNat_ofNat]
    rw [show pos + 1 + 1 = pos + 2 by rfl, h2, toNat_ofNat, hmid]
    omega
  refine ⟨hbyte, ?_⟩
  rw [hbyte, hread, and_07, shl_or (by omega)]
  omega

theorem readRelPtr_encRelPtr (hbs : encRelPtr relPtr = some bs)
    (h : Holds mem pos bs) : readRelPtr mem pos = (relPtr, false, pos + bs.length) := by
  unfold encRelPtr at hbs
  by_cases hsmall : relPtr ≤ 0xcf
  · rw [if_pos hsmall, Option.some.injEq] at hbs
    subst hbs
    have hbyte : (mem pos).toNat = relPtr := by
      rw [((holds_cons _ _ _ _).mp h).1, toNat_ofNat]
      omega
    simp [readRelPtr, hbyte, hsmall]
  · rw [if_neg hsmall, Option.ite_none_right_eq_some, Option.some.injEq] at hbs
    obtain ⟨hmedium, rfl⟩ := hbs
    obtain ⟨hbyte, hread⟩ := longPtr_read (.inl rfl) hmedium h
    rw [readRelPtr, if_neg (by omega), if_pos (by omega), hread]
    rfl

theorem readRelPtr_encRelLeafPtr (hbs : encRelLeafPtr relPtr = some bs)
    (h : Holds mem pos bs) : readRelPtr mem pos = (relPtr, true, pos + bs.length) := by
  unfold encRelLeafPtr at hbs
  by_cases hsmall : relPtr ≤ 0x1f
  · rw [if_pos hsmall, Option.some.injEq] at hbs
    subst hbs
    have hbyte : (mem pos).toNat = 0xe0 + relPtr := by
      rw [((holds_cons _ _ _ _).mp h).1, or_e0 (by omega), toNat_ofNat]
      omega
    have hread : (0xe0 + relPtr) &&& 0x1f = relPtr := by
      rw [and_1f]
      omega
    rw [readRelPtr, if_neg (by omega), if_neg (by omega), if_neg (by omega), hbyte, hread]
    rfl
  · rw [if_neg hsmall, Option.ite_none_right_eq_some, Option.some.injEq] at hbs
    obtain ⟨hmedium, rfl⟩ := hbs
    obtain ⟨hbyte, hread⟩ := longPtr_read (.inr rfl) hmedium h
    rw [readRelPtr, if_neg (by omega), if_neg (by omega), if_pos (by omega), hread]
    rfl

/-- The leaf marker is the pointer 0 and no other pointer begins like it. -/
theorem encRelPtr_ne_marker (hbs : encRelPtr relPtr = some bs) (hpos : 0 < relPtr)
    (h : Holds mem pos bs) : mem pos ≠ 0 := by
  intro hzero
  have hread := readRelPtr_encRelPtr hbs h
  simp only [readRelPtr, hzero, UInt8.toNat_zero, Nat.zero_le, if_true, Prod.mk.injEq] at hread
  omega

theorem encRelLeafPtr_ne_marker (hbs : encRelLeafPtr relPtr = some bs)
    (h : Holds mem pos bs) : mem pos ≠ 0 := by
  intro hzero
  have hread := readRelPtr_encRelLeafPtr hbs h
  simp [readRelPtr, hzero] at hread

end RoundTrip

/-! ## Lengths -/

theorem length_encValue (val : Nat) : 1 ≤ (encValue val).length ∧ (encValue val).length ≤ 4 := by
  unfold encValue
  split
  · simp
  · split <;> simp

theorem length_encRelKey (ukey : Nat) : 1 ≤ (encRelKey ukey).length ∧ (encRelKey ukey).length ≤ 9 := by
  simp only [encRelKey]
  split
  · simp
  · split <;> simp

end UnwindTable
