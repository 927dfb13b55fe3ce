import Mathlib.Data.List.Basic
import Mathlib.Data.Option.Basic

/-!
# String literals that are written and read back

The printer escapes a string for a script, and the parser's `consume_string` reads it; the JSON
output writes a string literal, and whoever gets the output decodes it. Strings are sequences of
bytes. A `char` is signed, so that the JSON emitter takes bytes from 0x80 on for control characters.
-/

namespace StringLiterals

def isXdigit (b : UInt8) : Bool := (48 ≤ b && b ≤ 57) || (65 ≤ b && b ≤ 70) || (97 ≤ b && b ≤ 102)

/-- A digit for `std::hex`. -/
def hexDigit (n : Nat) : UInt8 := if n < 10 then UInt8.ofNat (48 + n) else UInt8.ofNat (87 + n)

def digitValue (b : UInt8) : Nat :=
  if b ≤ 57 then b.toNat - 48 else if b ≤ 70 then b.toNat - 55 else b.toNat - 87

/-- `strtol` of digits. -/
def strtol (base : Nat) (digits : List UInt8) : Nat := digits.foldl (fun n d => n * base + digitValue d) 0

/-! ## The printer and the parser -/

/-- `escape` of the printer for one byte; `isprint` is that of the C locale. -/
def escapeByte (c : UInt8) : List UInt8 :=
  if 0x20 ≤ c ∧ c ≤ 0x7e then
    if c = '\\'.toUInt8 then ['\\'.toUInt8, '\\'.toUInt8]
    else if c = '"'.toUInt8 then ['\\'.toUInt8, '"'.toUInt8]
    else [c]
  else if c = '\n'.toUInt8 then ['\\'.toUInt8, 'n'.toUInt8]
  else if c = '\t'.toUInt8 then ['\\'.toUInt8, 't'.toUInt8]
  else if c = '\r'.toUInt8 then ['\\'.toUInt8, 'r'.toUInt8]
  else ['\\'.toUInt8, 'x'.toUInt8, hexDigit (c.toNat / 16), hexDigit (c.toNat % 16)]

def escape (s : List UInt8) : List UInt8 := s.flatMap escapeByte

/-- What has been read, what is left of the input, and the errors. -/
structure Read where
  result : List UInt8
  rest : List UInt8
  errors : List String
  deriving DecidableEq

def Read.push (c : UInt8) (r : Read) : Read := { r with result := c :: r.result }

def Read.error (text : String) (r : Read) : Read := { r with errors := text :: r.errors }

def text (bytes : List UInt8) : String := String.ofList (bytes.map fun b => Char.ofNat b.toNat)

/-- Up to `n` characters of a class. -/
def takeDigits (isDigit : UInt8 → Bool) : Nat → List UInt8 → List UInt8 × List UInt8
  | n + 1, c :: input =>
    if isDigit c then ((c :: (takeDigits isDigit n input).1), (takeDigits isDigit n input).2) else ([], c :: input)
  | _, input => ([], input)

def simpleEscape (esc : UInt8) : Option UInt8 :=
  if esc = 'n'.toUInt8 then some 10
  else if esc = 't'.toUInt8 then some 9
  else if esc = 'r'.toUInt8 then some 13
  else if esc = '"'.toUInt8 ∨ esc = '\\'.toUInt8 then some esc
  else none

def isOctal (c : UInt8) : Bool := '0'.toUInt8 ≤ c && c ≤ '7'.toUInt8

/-- The loop of `consume_string`, behind the opening quote. Every round reads a character, so
that the length of the input is enough for the first argument. -/
def consumeLoop : Nat → List UInt8 → Read
  | 0, input => ⟨[], input, []⟩
  | _ + 1, [] => ⟨[], [], ["unterminated string"]⟩
  | n + 1, next :: input =>
    if next = '"'.toUInt8 then ⟨[], input, []⟩
    else if next = '\n'.toUInt8 then ⟨[], next :: input, ["unterminated string"]⟩
    else if next ≠ '\\'.toUInt8 then (consumeLoop n input).push next
    else
      match input with
      | [] => ⟨[], [], ["unterminated string"]⟩
      | esc :: input =>
        match simpleEscape esc with
        | some c => (consumeLoop n input).push c
        | none =>
          if isOctal esc then
            let (oct, input) := takeDigits isOctal 2 input
            let value := strtol 8 (esc :: oct)
            let read := (consumeLoop n input).push (UInt8.ofNat value)
            if 255 < value then read.error ("octal escape sequence out of range '\\" ++ text (esc :: oct) ++ "'")
            else read
          else if esc = 'x'.toUInt8 ∨ esc = 'X'.toUInt8 then
            let (hex, input) := takeDigits isXdigit 2 input
            if hex = [] then (consumeLoop n input).error "invalid hex escape sequence"
            else (consumeLoop n input).push (UInt8.ofNat (strtol 16 hex))
          else (consumeLoop n input).error ("invalid escape character '\\" ++ text [esc] ++ "'")

def consumeString (input : List UInt8) : Read := consumeLoop (input.length + 1) input

theorem forall_byte {p : UInt8 → Prop} (h : ∀ n < 256, p (UInt8.ofNat n)) (c : UInt8) : p c := by
  rw [← UInt8.ofNat_toNat (x := c)]
  exact h _ c.toNat_lt

variable (c : UInt8)

/-- A printed byte stands for itself, or is one of the short escapes, or has its two digits. -/
theorem escapeByte_cases :
    (escapeByte c = [c] ∧ c ≠ '"'.toUInt8 ∧ c ≠ '\n'.toUInt8 ∧ c ≠ '\\'.toUInt8) ∨
    (∃ esc ∈ [110, 116, 114, 34, 92], escapeByte c = ['\\'.toUInt8, esc] ∧ simpleEscape esc = some c) ∨
    let (high, low) := (hexDigit (c.toNat / 16), hexDigit (c.toNat % 16))
    escapeByte c = ['\\'.toUInt8, 'x'.toUInt8, high, low] ∧ isXdigit high ∧ isXdigit low ∧
      UInt8.ofNat (strtol 16 [high, low]) = c := by
  revert c
  exact forall_byte (by decide +kernel)

theorem consumeLoop_plain {c : UInt8} (hquote : c ≠ '"'.toUInt8) (hnewline : c ≠ '\n'.toUInt8)
    (hslash : c ≠ '\\'.toUInt8) (n : Nat) (input : List UInt8) :
    consumeLoop (n + 1) (c :: input) = (consumeLoop n input).push c := by
  cases input <;> simp only [consumeLoop, hquote, hnewline, hslash, if_false, if_true, ne_eq, not_false_iff]

theorem consumeLoop_simple {esc c : UInt8} (hesc : simpleEscape esc = some c) (n : Nat) (input : List UInt8) :
    consumeLoop (n + 1) ('\\'.toUInt8 :: esc :: input) = (consumeLoop n input).push c := by
  rw [consumeLoop, if_neg (by decide), if_neg (by decide), if_neg (by decide), hesc]

theorem consumeLoop_hex {high low : UInt8} (hhigh : isXdigit high) (hlow : isXdigit low) (n : Nat)
    (input : List UInt8) :
    consumeLoop (n + 1) ('\\'.toUInt8 :: 'x'.toUInt8 :: high :: low :: input) =
      (consumeLoop n input).push (UInt8.ofNat (strtol 16 [high, low])) := by
  rw [consumeLoop, if_neg (by decide), if_neg (by decide), if_neg (by decide),
    show simpleEscape 'x'.toUInt8 = none by decide]
  simp [takeDigits, hhigh, hlow, show isOctal 'x'.toUInt8 = false by decide]

theorem consumeLoop_escapeByte (n : Nat) (input : List UInt8) :
    consumeLoop (n + 1) (escapeByte c ++ input) = (consumeLoop n input).push c := by
  obtain ⟨heq, hquote, hnewline, hslash⟩ | ⟨esc, -, heq, hesc⟩ | ⟨heq, hhigh, hlow, hvalue⟩ := escapeByte_cases c
  · rw [heq]
    exact consumeLoop_plain hquote hnewline hslash n input
  · rw [heq]
    exact consumeLoop_simple hesc n input
  · rw [heq]
    exact (consumeLoop_hex hhigh hlow n input).trans (by rw [hvalue])

theorem length_escapeByte_pos : 0 < (escapeByte c).length := by
  obtain ⟨heq, -⟩ | ⟨esc, -, heq, -⟩ | ⟨heq, -⟩ := escapeByte_cases c
  all_goals simp [heq]

theorem consumeLoop_escape (rest s : List UInt8) (n : Nat) (hn : s.length ≤ n) :
    consumeLoop (n + 1) (escape s ++ '"'.toUInt8 :: rest) = ⟨s, rest, []⟩ := by
  induction s generalizing n with
  | nil => rfl
  | cons c s ih =>
    obtain ⟨n, rfl⟩ : ∃ k, n = k + 1 := ⟨n - 1, by simp at hn; omega⟩
    rw [escape, List.flatMap_cons, List.append_assoc, consumeLoop_escapeByte, ← escape,
      ih n (by simpa using hn)]
    rfl

theorem length_le_escape (s : List UInt8) : s.length ≤ (escape s).length := by
  induction s with
  | nil => exact Nat.le_refl _
  | cons c s ih =>
    have hc := length_escapeByte_pos c
    rw [escape, List.flatMap_cons, List.length_append, ← escape, List.length_cons]
    omega

/-- The parser reads every escaped string back, without an error, and stops behind the quote. -/
theorem consume_string_escape (s rest : List UInt8) :
    consumeString (escape s ++ '"'.toUInt8 :: rest) = ⟨s, rest, []⟩ := by
  have hlength := length_le_escape s
  apply consumeLoop_escape
  rw [List.length_append]
  omega

/-! ## JSON -/

/-- `static_cast<int>(c)` in hexadecimal digits, at least four: an `int` is printed as the
unsigned word, so that a negative one has eight. -/
def hexInt (c : UInt8) : List UInt8 :=
  if c < 0x80 then [48, 48, hexDigit (c.toNat / 16), hexDigit (c.toNat % 16)]
  else [102, 102, 102, 102, 102, 102, hexDigit (c.toNat / 16), hexDigit (c.toNat % 16)]

/-- `JsonEmitter<std::string>::emit` for one byte; `c <= '\x1f'` compares signed characters. -/
def emitByte (c : UInt8) : List UInt8 :=
  if c = '"'.toUInt8 then ['\\'.toUInt8, '"'.toUInt8]
  else if c = '\\'.toUInt8 then ['\\'.toUInt8, '\\'.toUInt8]
  else if c = '\n'.toUInt8 then ['\\'.toUInt8, 'n'.toUInt8]
  else if c = '\r'.toUInt8 then ['\\'.toUInt8, 'r'.toUInt8]
  else if c = '\t'.toUInt8 then ['\\'.toUInt8, 't'.toUInt8]
  else if 0x80 ≤ c ∨ c ≤ 0x1f then '\\'.toUInt8 :: 'u'.toUInt8 :: hexInt c
  else [c]

def emit (s : List UInt8) : List UInt8 := '"'.toUInt8 :: (s.flatMap emitByte ++ ['"'.toUInt8])

/-- The bytes of a code point in UTF-8. -/
def utf8 (n : Nat) : List UInt8 :=
  if n < 0x80 then [UInt8.ofNat n]
  else if n < 0x800 then [UInt8.ofNat (0xc0 + n / 0x40), UInt8.ofNat (0x80 + n % 0x40)]
  else if n < 0x10000 then
    [UInt8.ofNat (0xe0 + n / 0x1000), UInt8.ofNat (0x80 + n / 0x40 % 0x40), UInt8.ofNat (0x80 + n % 0x40)]
  else
    [UInt8.ofNat (0xf0 + n / 0x40000), UInt8.ofNat (0x80 + n / 0x1000 % 0x40), UInt8.ofNat (0x80 + n / 0x40 % 0x40),
      UInt8.ofNat (0x80 + n % 0x40)]

/-- The escapes of JSON with one letter. -/
def jsonEscape (c : UInt8) : Option UInt8 :=
  if c = '"'.toUInt8 ∨ c = '\\'.toUInt8 ∨ c = '/'.toUInt8 then some c
  else if c = 'b'.toUInt8 then some 8
  else if c = 'f'.toUInt8 then some 12
  else if c = 'n'.toUInt8 then some 10
  else if c = 'r'.toUInt8 then some 13
  else if c = 't'.toUInt8 then some 9
  else none

/-- The code unit of four digits. -/
def codeUnit (digits : List UInt8) : Option Nat :=
  if digits.length = 4 ∧ digits.all isXdigit then some (strtol 16 digits) else none

/-- What a decoder makes of the text behind the opening quote; a surrogate needs its partner. -/
def decodeBody : Nat → List UInt8 → Option (List UInt8)
  | n + 1, c :: text =>
    if c = '"'.toUInt8 then if text = [] then some [] else none
    else if c < 0x20 then none
    else if c ≠ '\\'.toUInt8 then (decodeBody n text).map (c :: ·)
    else
      match text with
      | [] => none
      | esc :: text =>
        if esc = 'u'.toUInt8 then do
          let unit ← codeUnit (text.take 4)
          let text := text.drop 4
          if unit < 0xd800 ∨ 0xe000 ≤ unit then (decodeBody n text).map (utf8 unit ++ ·)
          else
            guard (unit < 0xdc00 ∧ text.take 2 = ['\\'.toUInt8, 'u'.toUInt8])
            let low ← codeUnit ((text.drop 2).take 4)
            guard (0xdc00 ≤ low ∧ low < 0xe000)
            (decodeBody n (text.drop 6)).map (utf8 (0x10000 + (unit - 0xd800) * 0x400 + (low - 0xdc00)) ++ ·)
        else (jsonEscape esc).bind fun c => (decodeBody n text).map (c :: ·)
  | _, _ => none

/-- The string of a JSON string literal. -/
def decode : List UInt8 → Option (List UInt8)
  | quote :: text => if quote = '"'.toUInt8 then decodeBody text.length text else none
  | [] => none

/-- What a decoder gets for a byte: from 0x80 on, U+FFFF and four letters. -/
def decoded (c : UInt8) : List UInt8 :=
  if c < 0x80 then [c]
  else utf8 0xffff ++ [102, 102, hexDigit (c.toNat / 16), hexDigit (c.toNat % 16)]

/-- A byte below 0x80 stands for itself, or has a short escape, or its four digits. -/
theorem emitByte_ascii :
    c < 0x80 →
    (emitByte c = [c] ∧ c ≠ '"'.toUInt8 ∧ ¬ c < 0x20 ∧ c ≠ '\\'.toUInt8) ∨
    (∃ esc ∈ [34, 92, 110, 114, 116], emitByte c = ['\\'.toUInt8, esc] ∧ jsonEscape esc = some c) ∨
    emitByte c = '\\'.toUInt8 :: 'u'.toUInt8 :: hexInt c ∧ codeUnit (hexInt c) = some c.toNat := by
  revert c
  exact forall_byte (by decide +kernel)

/-- From 0x80 on, the four digits that a decoder takes are followed by two more and the last two. -/
theorem emitByte_high :
    ¬ c < 0x80 →
    emitByte c = ['\\'.toUInt8, 'u'.toUInt8, 102, 102, 102, 102, 102, 102, hexDigit (c.toNat / 16),
        hexDigit (c.toNat % 16)] := by
  revert c
  exact forall_byte (by decide +kernel)

theorem hexDigit_plain : ∀ n < 16, hexDigit n ≠ '"'.toUInt8 ∧ ¬ hexDigit n < 0x20 ∧ hexDigit n ≠ '\\'.toUInt8 := by
  decide

theorem decodeBody_plain {c : UInt8} (h : c ≠ '"'.toUInt8 ∧ ¬ c < 0x20 ∧ c ≠ '\\'.toUInt8) (n : Nat)
    (text : List UInt8) : decodeBody (n + 1) (c :: text) = (decodeBody n text).map (c :: ·) := by
  obtain ⟨hquote, hcontrol, hslash⟩ := h
  cases text <;> simp only [decodeBody, hquote, hcontrol, hslash, if_false, if_true, ne_eq, not_false_iff]

theorem decodeBody_escape {esc c : UInt8} (h : jsonEscape esc = some c) (n : Nat) (text : List UInt8) :
    decodeBody (n + 1) ('\\'.toUInt8 :: esc :: text) = (decodeBody n text).map (c :: ·) := by
  have hu : esc ≠ 'u'.toUInt8 := by
    rintro rfl
    cases h.symm.trans (show jsonEscape 'u'.toUInt8 = none by decide)
  rw [decodeBody, if_neg (by decide), if_neg (by decide), if_neg (by decide), if_neg hu, h]
  rfl

theorem decodeBody_unit {digits : List UInt8} {unit : Nat} (h : codeUnit digits = some unit)
    (hunit : unit < 0xd800 ∨ 0xe000 ≤ unit) (n : Nat) (text : List UInt8) :
    decodeBody (n + 1) ('\\'.toUInt8 :: 'u'.toUInt8 :: (digits ++ text)) =
      (decodeBody n text).map (utf8 unit ++ ·) := by
  have hlength : digits.length = 4 := by
    unfold codeUnit at h
    split at h
    · simp_all
    · cases h
  rw [decodeBody, if_neg (by decide), if_neg (by decide), if_neg (by decide), if_pos rfl,
    List.take_left' hlength, List.drop_left' hlength, h, Option.bind_eq_bind, Option.bind_some, if_pos hunit]

/-- What is written for a byte is decoded in at most as many rounds as it has characters. -/
theorem decodeBody_emitByte :
    ∃ k < (emitByte c).length, ∀ n text,
      decodeBody (n + (k + 1)) (emitByte c ++ text) = (decodeBody n text).map (decoded c ++ ·) := by
  by_cases hc : c < 0x80
  · simp only [decoded, if_pos hc]
    obtain ⟨heq, hplain⟩ | ⟨esc, -, heq, hesc⟩ | ⟨heq, hunit⟩ := emitByte_ascii c hc
    · exact ⟨0, by simp [heq], fun n text => by rw [heq]; exact decodeBody_plain hplain n text⟩
    · exact ⟨0, by simp [heq], fun n text => by rw [heq]; exact decodeBody_escape hesc n text⟩
    · have hlt : c.toNat < 0x80 := hc
      exact ⟨0, by simp [heq], fun n text => by
        rw [heq]
        exact (decodeBody_unit hunit (.inl (by omega)) n text).trans (by simp [utf8, hlt])⟩
  · have heq := emitByte_high c hc
    have hlt := c.toNat_lt
    have hf := decodeBody_plain (c := 102) (hexDigit_plain 15 (by decide))
    have hhigh := hexDigit_plain (c.toNat / 16) (by omega)
    have hlow := hexDigit_plain (c.toNat % 16) (by omega)
    refine ⟨4, by simp [heq], fun n text => ?_⟩
    rw [heq, decoded, if_neg hc]
    have hunit : codeUnit [102, 102, 102, 102] = some 0xffff := by decide
    calc decodeBody (n + 5) _
      _ = (decodeBody (n + 4) (102 :: 102 :: hexDigit (c.toNat / 16) :: hexDigit (c.toNat % 16) :: text)).map
            (utf8 0xffff ++ ·) := decodeBody_unit hunit (.inr (by decide)) _ _
      _ = _ := by
        rw [hf, hf, decodeBody_plain hhigh, decodeBody_plain hlow]
        simp [Function.comp_def]

theorem decodeBody_emit (s : List UInt8) (n : Nat) (hn : (s.flatMap emitByte).length < n) :
    decodeBody n (s.flatMap emitByte ++ ['"'.toUInt8]) = some (s.flatMap decoded) := by
  induction s generalizing n with
  | nil =>
    obtain ⟨n, rfl⟩ : ∃ k, n = k + 1 := ⟨n - 1, by simp at hn; omega⟩
    rfl
  | cons c s ih =>
    obtain ⟨k, hk, hround⟩ := decodeBody_emitByte c
    rw [List.flatMap_cons, List.length_append] at hn
    obtain ⟨n, rfl⟩ : ∃ m, n = m + (k + 1) := ⟨n - (k + 1), by omega⟩
    rw [List.flatMap_cons, List.append_assoc, hround, ih n (by omega)]
    rfl

theorem decode_emit (s : List UInt8) : decode (emit s) = some (s.flatMap decoded) :=
  decodeBody_emit s _ (by simp)

theorem length_decoded : (decoded c).length = if c < 0x80 then 1 else 7 := by
  unfold decoded
  split <;> rfl

theorem length_le_decoded (s : List UInt8) : s.length ≤ (s.flatMap decoded).length := by
  induction s with
  | nil => exact Nat.le_refl _
  | cons c s ih =>
    have hc := length_decoded c
    rw [List.flatMap_cons, List.length_append, List.length_cons]
    split at hc <;> omega

/-- The text for a string is a literal that decodes to the string exactly if all bytes of it are
below 0x80. -/
theorem decode_emit_iff (s : List UInt8) : decode (emit s) = some s ↔ ∀ c ∈ s, c < 0x80 := by
  rw [decode_emit, Option.some.injEq]
  induction s with
  | nil => simp
  | cons c s ih =>
    rw [List.flatMap_cons, List.forall_mem_cons, ← ih]
    by_cases hc : c < 0x80
    · simp [decoded, hc]
    · -- The text of a byte from 0x80 on is too long for it.
      have hlength := length_decoded c
      have hle := length_le_decoded s
      simp only [hc, if_false, false_and, iff_false] at hlength ⊢
      intro heq
      have := congrArg List.length heq
      rw [List.length_append, List.length_cons] at this
      omega

/-- The first byte of `é` in UTF-8 is written with eight digits, of which a decoder takes four. -/
theorem high_byte_is_torn :
    emit [0xc3] = "\"\\uffffffc3\"".toUTF8.toList ∧
      decode (emit [0xc3]) = some (utf8 0xffff ++ "ffc3".toUTF8.toList) := by
  decide +kernel

end StringLiterals
