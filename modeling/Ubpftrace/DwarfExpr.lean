import Ubpftrace.Bytes

/-!
# DWARF expressions

`convert_expression` rewrites the bytes of a DWARF expression for the BPF program, which
runs them in `eval_expr`. Both are machines with a stack of 64-bit words and the same
instructions. The operands of fixed size are read without going past them, so that
their bytes are read again as operations, and `ge` and `shl` are not those of DWARF.
-/

namespace DwarfExpr

open Bytes

abbrev Word := BitVec 64

/-! ## Instructions -/

inductive Instr where
  | const (v : Word)
  | breg (r : UInt8) (offset : Word)
  | deref
  | and
  | ge
  | shl
  | plus
  | mul
  | plusConst (v : Word)
  deriving DecidableEq

/-- The register set, the bits of its valid registers, and what the user memory has. -/
structure Env where
  regs : Nat → Word
  valid : Nat → Bool
  mem : Word → Option Word

def NUM_REGISTERS : Nat := 17

/-- The two operations on which the machines differ. -/
structure Arith where
  ge : Word → Word → Bool
  shl : Word → Word → Word

/-- BPF compares without a sign and takes the shift count modulo 64. -/
def bpf : Arith := ⟨fun a b => b.ule a, fun a b => a <<< (b.toNat % 64)⟩

/-- DWARF compares with a sign and fills with zeros. -/
def dwarf : Arith := ⟨fun a b => b.sle a, fun a b => a <<< b.toNat⟩

def exec (arith : Arith) (env : Env) : Instr → List Word → Option (List Word)
  | .const v, st => some (v :: st)
  | .breg r offset, st =>
    if r.toNat < NUM_REGISTERS ∧ env.valid r.toNat then some ((env.regs r.toNat + offset) :: st) else none
  | .deref, a :: st => (env.mem a).map (· :: st)
  | .plusConst v, a :: st => some ((a + v) :: st)
  | .and, b :: a :: st => some ((a &&& b) :: st)
  | .ge, b :: a :: st => some ((if arith.ge a b then 1 else 0) :: st)
  | .shl, b :: a :: st => some (arith.shl a b :: st)
  | .plus, b :: a :: st => some ((a + b) :: st)
  | .mul, b :: a :: st => some ((a * b) :: st)
  | _, _ => none

def run (arith : Arith) (env : Env) : List Instr → List Word → Option Word
  | [], st => st.head?
  | instr :: instrs, st => (exec arith env instr st).bind (run arith env instrs)

/-! ## The bytes of DWARF -/

inductive Op where
  | const (size : Nat) (signed : Bool)
  | constLeb (signed : Bool)
  | lit (n : Nat)
  | reg (r : UInt8)
  | breg (r : UInt8)
  | plain (instr : Instr)
  | plusUconst

def decodeOp (op : UInt8) : Option Op :=
  match op.toNat with
  | 0x03 => some (.const 8 false)
  | 0x06 => some (.plain .deref)
  | 0x08 => some (.const 1 false)
  | 0x09 => some (.const 1 true)
  | 0x0a => some (.const 2 false)
  | 0x0b => some (.const 2 true)
  | 0x0c => some (.const 4 false)
  | 0x0d => some (.const 4 true)
  | 0x0e => some (.const 8 false)
  | 0x0f => some (.const 8 true)
  | 0x10 => some (.constLeb false)
  | 0x11 => some (.constLeb true)
  | 0x1a => some (.plain .and)
  | 0x1e => some (.plain .mul)
  | 0x22 => some (.plain .plus)
  | 0x23 => some .plusUconst
  | 0x24 => some (.plain .shl)
  | 0x2a => some (.plain .ge)
  | n =>
    if 0x30 ≤ n ∧ n ≤ 0x4f then some (.lit (n - 0x30))
    else if 0x50 ≤ n ∧ n ≤ 0x6f then some (.reg (op - 0x50))
    else if 0x70 ≤ n ∧ n ≤ 0x8f then some (.breg (op - 0x70))
    else none

/-- A number of `size` bytes, extended to a word. -/
def fixedValue (size : Nat) (signed : Bool) (bytes : List UInt8) : Word :=
  let v := BitVec.ofNat (8 * size) (readLe (ofList bytes) 0 size)
  if signed then v.signExtend 64 else v.setWidth 64

/-- A LEB128 number and the bytes behind it, where a shift by `n` is one by `count n`. -/
def leb (count : Nat → Nat) (signed : Bool) : List UInt8 → Nat → Word → Option (Word × List UInt8)
  | [], _, _ => none
  | byte :: rest, shift, result =>
    let result := result ||| (BitVec.ofNat 64 (byte.toNat % 128) <<< count shift)
    let shift := shift + 7
    if byte.toNat < 128 then
      some (if signed ∧ shift < 64 ∧ byte.toNat.testBit 6 then result ||| (BitVec.allOnes 64 <<< shift) else result,
        rest)
    else leb count signed rest shift result

/-- The instruction for an operation and the bytes behind it. -/
def operand (count : Nat → Nat) (advance : Bool) (rest : List UInt8) : Op → Option (Instr × List UInt8)
  | .const size signed =>
    if size ≤ rest.length then some (.const (fixedValue size signed rest), if advance then rest.drop size else rest)
    else none
  | .constLeb signed => (leb count signed rest 0 0).map fun r => (.const r.1, r.2)
  | .lit n => some (.const n, rest)
  | .reg r => some (.breg r 0, rest)
  | .breg r => (leb count true rest 0 0).map fun o => (.breg r o.1, o.2)
  | .plain instr => some (instr, rest)
  | .plusUconst => (leb count false rest 0 0).map fun r => (.plusConst r.1, r.2)

/-- An operation of an expression: its opcode, the length of its operand and the instruction. -/
structure Item where
  code : UInt8
  length : Nat
  instr : Instr

/-- An expression as DWARF reads it. Each round takes a byte, so their number is enough fuel. -/
def decode : Nat → List UInt8 → Option (List Item)
  | _, [] => some []
  | 0, _ :: _ => none
  | fuel + 1, code :: rest =>
    (decodeOp code).bind fun op => (operand id true rest op).bind fun r =>
      (decode fuel r.2).map (⟨code, rest.length - r.2.length, r.1⟩ :: ·)

/-! ## The translation -/

inductive Error where
  | tooLong
  | invalid
  | notAllowed (op : UInt8)
  | notImplemented (op : UInt8)
  | bufferOverflow
  deriving DecidableEq

def notAllowed : List UInt8 := [0xa1, 0x98, 0x99, 0x9a, 0xa4, 0xa2, 0xa8, 0xa6, 0xa5, 0xa9, 0x97, 0x9c]

def MAX_EXPR_INSTRUCTIONS : Nat := 32

def Instr.encode : Instr → List UInt8
  | .const v => 0x81 :: le 8 v.toNat
  | .breg r offset => 0xc1 :: r :: le 8 offset.toNat
  | .deref => [0x01]
  | .and => [0x02]
  | .ge => [0x03]
  | .shl => [0x04]
  | .plus => [0x05]
  | .mul => [0x06]
  | .plusConst v => 0x82 :: le 8 v.toNat

/-- The loop of `convert_expression`, with the number of instructions that it may still
write and that of the bytes it has written, for which 256 are reserved. `expr_get` leaves
`ix` where it is; shifts are those of x86, which takes the count modulo 64. -/
def convertLoop : Nat → Nat → List UInt8 → Except Error (List Instr)
  | _, _, [] => .ok []
  | 0, _, _ :: _ => .error .tooLong
  | left + 1, size, code :: rest =>
    match decodeOp code with
    | none => .error (if code ∈ notAllowed then .notAllowed code else .notImplemented code)
    | some op =>
      match operand (· % 64) false rest op with
      | none => .error .invalid
      | some r =>
        if size + r.1.encode.length ≤ 256 then (convertLoop left (size + r.1.encode.length) r.2).map (r.1 :: ·)
        else .error .bufferOverflow

/-- `convert_expression`: the number of instructions, for which the first byte is kept, and their bytes. -/
def convertExpression (bytes : List UInt8) : Except Error (Nat × List UInt8) :=
  (convertLoop MAX_EXPR_INSTRUCTIONS 1 bytes).map fun instrs => (instrs.length, instrs.flatMap Instr.encode)

/-! ## The interpreter -/

def MAX_EXPRESSION_LEN : Nat := 255

def EXPR_STACK_SIZE : Nat := 16

/-- The instruction at a position and the position behind it. The two upper bits tell its arguments. -/
def fetch (code : Nat → UInt8) (i : Nat) : Option (Instr × Nat) :=
  let word := fun pos => BitVec.ofNat 64 (readLe code pos 8)
  match (code i).toNat with
  | 0x81 => some (.const (word (i + 1)), i + 9)
  | 0x82 => some (.plusConst (word (i + 1)), i + 9)
  | 0xc1 => some (.breg (code (i + 1)) (word (i + 2)), i + 10)
  | 0x01 => some (.deref, i + 1)
  | 0x02 => some (.and, i + 1)
  | 0x03 => some (.ge, i + 1)
  | 0x04 => some (.shl, i + 1)
  | 0x05 => some (.plus, i + 1)
  | 0x06 => some (.mul, i + 1)
  | _ => none

/-- The loop of `eval_expr`; none for `eval_error`. -/
def evalLoop (env : Env) (code : Nat → UInt8) : Nat → Nat → List Word → Option Word
  | 0, _, st => if st.length ≤ 16 then st.head? else none
  | n + 1, i, st =>
    if MAX_EXPRESSION_LEN - 10 ≤ i ∨ EXPR_STACK_SIZE ≤ st.length then none
    else (fetch code i).bind fun r => (exec bpf env r.1 st).bind (evalLoop env code n r.2)

/-- `eval_expr` for an entry of the map of expressions. -/
def evalExpr (env : Env) (ninstr : Nat) (code : Nat → UInt8) : Option Word :=
  if MAX_EXPR_INSTRUCTIONS < ninstr then none else evalLoop env code ninstr 0 []

/-! ## What is translated right -/

/-- The operations whose operand is passed and that mean the same to both machines. -/
def Op.clean : Op → Bool
  | .const .. => false
  | .plain instr => instr ≠ .ge ∧ instr ≠ .shl
  | _ => true

def Clean (code : UInt8) : Prop := ∀ op ∈ decodeOp code, op.clean

instance (code : UInt8) : Decidable (Clean code) := inferInstanceAs (Decidable (∀ op ∈ decodeOp code, op.clean))

/-- The expression has clean operations and those of `codes` only, and no LEB128 number
of more than ten bytes unless long ones are allowed. -/
def Within (codes : UInt8 → Prop) (long : Prop) (items : List Item) : Prop :=
  ∀ item ∈ items, (Clean item.code ∨ codes item.code) ∧ (item.length ≤ 10 ∨ long)

/-- An expression that is accepted evaluates to its DWARF value, or to an error. -/
def Right (bytes : List UInt8) (items : List Item) : Prop :=
  ∀ ninstr out, convertExpression bytes = .ok (ninstr, out) → ∀ env v, evalExpr env ninstr (ofList out) = some v →
    run dwarf env (items.map Item.instr) [] = some v

section Clean

variable {env : Env} {code : Nat → UInt8} {bytes rest : List UInt8} {instr : Instr} {instrs : List Instr}
  {st : List Word}
  {v : Word} {i n : Nat} {r : Word × List UInt8}

theorem leb_rest {count : Nat → Nat} {signed : Bool} {shift : Nat} {result : Word}
    (hleb : leb count signed bytes shift result = some r) : r.2.length < bytes.length := by
  induction bytes generalizing shift result with
  | nil => cases hleb
  | cons byte rest ih =>
    rw [leb] at hleb
    split at hleb
    · cases hleb
      exact Nat.lt_succ_self _
    · exact Nat.lt_succ_of_lt (ih hleb)

/-- Up to ten bytes no shift count reaches 64. -/
theorem leb_count {signed : Bool} {shift : Nat} {result : Word} (hleb : leb id signed bytes shift result = some r)
    (hlen : shift + 7 * (bytes.length - r.2.length) ≤ 70) : leb (· % 64) signed bytes shift result = some r := by
  induction bytes generalizing shift result with
  | nil => cases hleb
  | cons byte rest ih =>
    have hrest := leb_rest hleb
    rw [List.length_cons] at hlen hrest
    have hshift : shift % 64 = shift := Nat.mod_eq_of_lt (by omega)
    rw [leb] at hleb ⊢
    simp only [hshift]
    split at hleb
    next hlast =>
      rw [if_pos hlast]
      exact hleb
    next hmore =>
      rw [if_neg hmore]
      exact ih hleb (by omega)

/-- A clean operation with a short operand is translated as DWARF reads it. -/
theorem operand_clean {op : Op} {r : Instr × List UInt8} (hop : operand id true rest op = some r) (hclean : op.clean)
    (hlen : rest.length - r.2.length ≤ 10) :
    operand (· % 64) false rest op = some r ∧ r.1 ≠ .ge ∧ r.1 ≠ .shl := by
  cases op with
  | const => cases hclean
  | lit n | reg n =>
    cases hop
    exact ⟨rfl, nofun, nofun⟩
  | plain instr =>
    cases hop
    exact ⟨rfl, of_decide_eq_true hclean⟩
  | _ =>
    obtain ⟨o, hleb, rfl⟩ := Option.map_eq_some_iff.mp hop
    rw [operand, leb_count hleb (by dsimp only at hlen; omega)]
    exact ⟨rfl, nofun, nofun⟩

theorem convertLoop_clean {fuel left size : Nat} {items : List Item} (hdecode : decode fuel bytes = some items)
    (hclean : ∀ item ∈ items, Clean item.code ∧ item.length ≤ 10)
    (hconvert : convertLoop left size bytes = .ok instrs) :
    instrs = items.map Item.instr ∧ ∀ instr ∈ instrs, instr ≠ .ge ∧ instr ≠ .shl := by
  induction fuel generalizing bytes items left size instrs with
  | zero =>
    cases bytes with
    | nil =>
      cases hdecode
      cases left <;> cases hconvert <;> exact ⟨rfl, nofun⟩
    | cons => cases hdecode
  | succ fuel ih =>
    cases bytes with
    | nil =>
      cases hdecode
      cases left <;> cases hconvert <;> exact ⟨rfl, nofun⟩
    | cons code rest =>
      obtain ⟨op, hop, hdecode⟩ := Option.bind_eq_some_iff.mp hdecode
      obtain ⟨r, hr, hdecode⟩ := Option.bind_eq_some_iff.mp hdecode
      obtain ⟨items, hitems, rfl⟩ := Option.map_eq_some_iff.mp hdecode
      obtain ⟨hfirst, hlater⟩ := List.forall_mem_cons.mp hclean
      obtain ⟨hsame, hinstr⟩ := operand_clean hr (hfirst.1 op hop) hfirst.2
      cases left with
      | zero => cases hconvert
      | succ left =>
        simp only [convertLoop, hop, hsame] at hconvert
        split at hconvert
        · cases hnext : convertLoop left (size + r.1.encode.length) r.2 with
          | error e =>
            rw [hnext] at hconvert
            cases hconvert
          | ok instrs =>
            rw [hnext] at hconvert
            cases hconvert
            obtain ⟨rfl, hrest⟩ := ih hitems hlater hnext
            exact ⟨rfl, List.forall_mem_cons.mpr ⟨hinstr, hrest⟩⟩
        · cases hconvert

theorem fetch_encode (h : Holds code i instr.encode) : fetch code i = some (instr, i + instr.encode.length) := by
  have hword : ∀ pos (w : Word), Holds code pos (le 8 w.toNat) → BitVec.ofNat 64 (readLe code pos 8) = w := by
    intro pos w hw
    rw [readLe_of_holds code pos 8 w.toNat hw, Nat.mod_eq_of_lt (Nat.lt_of_lt_of_eq w.isLt (by decide)),
      BitVec.ofNat_toNat,
      BitVec.setWidth_eq]
  cases instr with
  | const w | plusConst w =>
    obtain ⟨hcode, hw⟩ := (holds_cons _ _ _ _).mp h
    simp [fetch, hcode, hword _ _ hw, Instr.encode]
  | breg r w =>
    obtain ⟨hcode, hargs⟩ := (holds_cons _ _ _ _).mp h
    obtain ⟨hr, hw⟩ := (holds_cons _ _ _ _).mp hargs
    simp [fetch, hcode, hr, hword _ _ hw, Instr.encode]
  | _ =>
    have hcode := ((holds_cons _ _ _ _).mp h).1
    simp [fetch, hcode, Instr.encode]

/-- The interpreter runs the instructions whose bytes it finds. -/
theorem evalLoop_run (hcode : Holds code i (instrs.flatMap Instr.encode))
    (heval : evalLoop env code instrs.length i st = some v) : run bpf env instrs st = some v := by
  induction instrs generalizing i st with
  | nil =>
    rw [List.length_nil, evalLoop] at heval
    split at heval
    · exact heval
    · cases heval
  | cons instr instrs ih =>
    rw [List.flatMap_cons, holds_append] at hcode
    rw [List.length_cons, evalLoop] at heval
    split at heval
    · cases heval
    · rw [fetch_encode hcode.1, Option.bind_some] at heval
      obtain ⟨st', hexec, heval⟩ := Option.bind_eq_some_iff.mp heval
      rw [run, hexec, Option.bind_some]
      exact ih hcode.2 heval

theorem run_congr (h : ∀ instr ∈ instrs, instr ≠ .ge ∧ instr ≠ .shl) :
    run bpf env instrs st = run dwarf env instrs st := by
  induction instrs generalizing st with
  | nil => rfl
  | cons instr instrs ih =>
    obtain ⟨⟨hge, hshl⟩, hrest⟩ := List.forall_mem_cons.mp h
    have hexec : exec bpf env instr st = exec dwarf env instr st := by
      cases instr with
      | ge => exact absurd rfl hge
      | shl => exact absurd rfl hshl
      | _ => obtain _ | ⟨b, _ | ⟨a, st⟩⟩ := st <;> rfl
    rw [run, run, hexec]
    congr 1
    funext st'
    exact ih hrest

theorem right_of_clean {fuel : Nat} {items : List Item} (hdecode : decode fuel bytes = some items)
    (hclean : ∀ item ∈ items, Clean item.code ∧ item.length ≤ 10) : Right bytes items := by
  intro ninstr out hconvert env v heval
  unfold convertExpression at hconvert
  cases hloop : convertLoop MAX_EXPR_INSTRUCTIONS 1 bytes with
  | error e =>
    rw [hloop] at hconvert
    cases hconvert
  | ok instrs =>
    rw [hloop] at hconvert
    cases hconvert
    obtain ⟨rfl, hinstrs⟩ := convertLoop_clean hdecode hclean hloop
    rw [evalExpr] at heval
    split at heval
    · cases heval
    · have hholds := holds_ofList [] ((items.map Item.instr).flatMap Instr.encode) []
      rw [List.nil_append, List.append_nil] at hholds
      rw [← run_congr hinstrs]
      exact evalLoop_run hholds heval

end Clean

/-! ## What is not -/

def zeroEnv : Env := ⟨fun _ => 0, fun _ => true, fun _ => none⟩

/-- The opcodes of the other operations: `addr`, the constants of fixed size, `shl` and `ge`. -/
def unclean : List UInt8 := [0x03, 0x08, 0x09, 0x0a, 0x0b, 0x0c, 0x0d, 0x0e, 0x0f, 0x24, 0x2a]

/-- An expression with one of them: 1 shifted by 64, 0 compared with -1, or a constant of
bytes that are themselves `lit0`. -/
def misread (code : UInt8) : List UInt8 :=
  match decodeOp code with
  | some (.const size _) => code :: List.replicate size 0x30
  | some (.plain .shl) => [0x31, 0x10, 0x40, code]
  | _ => [0x30, 0x11, 0x7f, code]

/-- A number of eleven bytes, 2 to the power of 70. -/
def longNumber : List UInt8 := 0x10 :: List.replicate 10 0x80 ++ [0x01]

def evaluated (bytes : List UInt8) : Option Word :=
  match convertExpression bytes with
  | .ok (ninstr, out) => evalExpr zeroEnv ninstr (ofList out)
  | .error _ => none

/-- It has a value that is not the one of DWARF, with operations of these opcodes beside clean ones. -/
def Differs (codes : List UInt8) (length : Nat) (bytes : List UInt8) : Bool :=
  match decode bytes.length bytes, evaluated bytes with
  | some items, some v => run dwarf zeroEnv (items.map Item.instr) [] ≠ some v ∧
      ∀ item ∈ items, (Clean item.code ∨ item.code ∈ codes) ∧ item.length ≤ length
  | _, _ => false

theorem misread_differs : ∀ code ∈ unclean, Differs [code] 10 (misread code) := by decide +kernel

theorem longNumber_differs : Differs [] 11 longNumber := by decide +kernel

theorem mem_unclean (code : UInt8) (hclean : ¬ Clean code) : code ∈ unclean := by
  have hall : ∀ n : Fin 256, ¬ Clean (UInt8.ofNat n) → UInt8.ofNat n ∈ unclean := by decide +kernel
  have hcode := hall ⟨code.toNat, code.toNat_lt⟩
  rw [UInt8.ofNat_toNat] at hcode
  exact hcode hclean

theorem not_right_of_differs {codes : List UInt8} {length : Nat} {bytes : List UInt8} (h : Differs codes length bytes) :
    ∃ items, decode bytes.length bytes = some items ∧ ¬ Right bytes items ∧
      ∀ item ∈ items, (Clean item.code ∨ item.code ∈ codes) ∧ item.length ≤ length := by
  unfold Differs at h
  split at h
  next items v hdecode heval =>
    obtain ⟨hne, hitems⟩ := of_decide_eq_true h
    refine ⟨items, hdecode, ?_, hitems⟩
    intro hright
    unfold evaluated at heval
    split at heval
    next ninstr out hconvert => exact hne (hright ninstr out hconvert zeroEnv v heval)
    · cases heval
  · cases h

/-- The translation is right for the expressions of clean operations with numbers of ten
bytes at most, and for no class of expressions with more operations. -/
theorem conversion_right_iff (codes : UInt8 → Prop) (long : Prop) :
    (∀ bytes items, decode bytes.length bytes = some items → Within codes long items → Right bytes items) ↔
      (∀ code, codes code → Clean code) ∧ ¬ long := by
  constructor
  · intro h
    constructor
    · intro code hcode
      by_contra hclean
      obtain ⟨items, hdecode, hwrong, hitems⟩ := not_right_of_differs (misread_differs code (mem_unclean code hclean))
      apply hwrong (h _ _ hdecode _)
      intro item hitem
      obtain ⟨hop, hlen⟩ := hitems item hitem
      constructor
      · apply hop.imp_right
        intro heq
        rwa [List.mem_singleton.mp heq]
      · exact .inl hlen
    · intro hlong
      obtain ⟨items, hdecode, hwrong, hitems⟩ := not_right_of_differs longNumber_differs
      apply hwrong (h _ _ hdecode _)
      intro item hitem
      exact ⟨(hitems item hitem).1.imp_right fun hnone => absurd hnone List.not_mem_nil, .inr hlong⟩
  · rintro ⟨hcodes, hlong⟩ bytes items hdecode hwithin
    apply right_of_clean hdecode
    intro item hitem
    obtain ⟨hop, hlen⟩ := hwithin item hitem
    exact ⟨hop.elim id (hcodes item.code), hlen.resolve_right hlong⟩

/-- The operand of `const1u 0x30` is read a second time, as `lit0`. -/
theorem operand_read_twice :
    (decode 2 [0x08, 0x30]).map (fun items => run dwarf zeroEnv (items.map Item.instr) []) = some (some 0x30) ∧
      evaluated [0x08, 0x30] = some 0 := by
  decide +kernel

end DwarfExpr
