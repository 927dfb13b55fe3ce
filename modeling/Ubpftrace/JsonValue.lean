import Mathlib.Data.List.Basic

/-!
# JSON values and their accessors

The value tree of a JSON library: `operator[]` gives null for a field that is not there,
conversions to a number cut it to the width of the target, and other conversions throw.
A text can only be written if it is valid UTF-8, and what has been written is read back
as it was.
-/

namespace JsonValue

/-- Texts are byte strings. A number with a fraction or an exponent is a `float`, a double. -/
inductive Json where
  | null
  | bool (b : Bool)
  | num (n : Int)
  | float (q : Rat)
  | str (bytes : List UInt8)
  | arr (elems : List Json)
  | obj (fields : List (String × Json))

/-- The bytes of a text of plain ASCII characters. -/
def ascii (s : String) : List UInt8 := s.toList.map fun c => UInt8.ofNat c.toNat

def validUtf8 (bytes : List UInt8) : Bool := bytes.toByteArray.validateUTF8

theorem flatMap_utf8EncodeChar (bytes : List UInt8) (h : ∀ b ∈ bytes, b.toNat < 128) :
    (bytes.map fun b => Char.ofNat b.toNat).flatMap String.utf8EncodeChar = bytes := by
  induction bytes with
  | nil => rfl
  | cons b bytes ih =>
    have hb : b.toNat < 128 := h b List.mem_cons_self
    have hvalid : b.toNat.isValidChar := .inl (by omega)
    have hval : (Char.ofNat b.toNat).val.toNat = b.toNat := by
      rw [Char.ofNat, dif_pos hvalid]
      rfl
    rw [List.map_cons, List.flatMap_cons, ih fun b hb => h b (List.mem_cons_of_mem _ hb), String.utf8EncodeChar.eq_1,
      hval, if_pos (by omega), UInt8.ofNat_toNat, List.singleton_append]

theorem validUtf8_of_ascii {bytes : List UInt8} (h : ∀ b ∈ bytes, b.toNat < 128) : validUtf8 bytes := by
  refine ByteArray.validateUTF8_eq_true_iff.mpr ⟨bytes.map fun b => Char.ofNat b.toNat, ?_⟩
  rw [List.utf8Encode, flatMap_utf8EncodeChar bytes h]

theorem validUtf8_ascii {s : String} (h : s.toList.all fun c => c.toNat < 128) : validUtf8 (ascii s) := by
  apply validUtf8_of_ascii
  intro b hb
  obtain ⟨c, hc, rfl⟩ := List.mem_map.mp hb
  have hlt : c.toNat < 128 := of_decide_eq_true (List.all_eq_true.mp h c hc)
  rw [UInt8.toNat_ofNat_of_lt' (Nat.lt_trans hlt (by decide))]
  exact hlt

namespace Json

/-- `operator[]`, without a value where it throws. -/
def field (j : Json) (key : String) : Option Json :=
  match j with
  | .obj fields => some ((fields.lookup key).getD .null)
  | .null => some .null
  | _ => none

/-- The conversion to an integer type of some width. The integers of 64 bits are the library's own
number types, which take no booleans. A double is cut toward zero; C++ leaves the result open if it
does not fit. -/
def toBits (w : Nat) : Json → Option (BitVec w)
  | .num n => some (BitVec.ofInt w n)
  | .float q => some (BitVec.ofInt w (q.num.tdiv q.den))
  | .bool b => if w = 64 then none else some (BitVec.ofNat w b.toNat)
  | _ => none

def toBool : Json → Option Bool
  | .bool b => some b
  | _ => none

def toText : Json → Option (List UInt8)
  | .str bytes => some bytes
  | _ => none

def bits (j : Json) (w : Nat) (key : String) : Option (BitVec w) := (j.field key).bind (toBits w)

def text (j : Json) (key : String) : Option (List UInt8) := (j.field key).bind toText

mutual

/-- `dump` does not throw. -/
def dumps : Json → Bool
  | .str bytes => validUtf8 bytes
  | .arr elems => dumpsAll elems
  | .obj fields => dumpsFields fields
  | .null | .bool _ | .num _ | .float _ => true

def dumpsAll : List Json → Bool
  | [] => true
  | j :: js => j.dumps && dumpsAll js

def dumpsFields : List (String × Json) → Bool
  | [] => true
  | f :: fs => f.2.dumps && dumpsFields fs

end

end Json

end JsonValue
