import Mathlib.Algebra.Group.Int.Defs
import Mathlib.Data.List.Nodup

/-!
# Promotion of types

`get_promoted_type` of `types.cpp` looks for a type that takes the values of two others: those
of a variable or a map at two assignments, of the two sides of an operator. Types are compared
by `IsEqual` and `IsCompatible`; where they are compatible but neither integers, strings,
pointers nor made of others, the current one is kept, whatever its size.
-/

namespace TypePromotion

open Function

/-! ## Types -/

/-- The sizes of integers, as `SetIntBitWidth` admits them for values. -/
inductive Width where
  | one
  | two
  | four
  | eight
  deriving DecidableEq

namespace Width

def bytes : Width → Nat
  | one => 1
  | two => 2
  | four => 4
  | eight => 8

def max (a b : Width) : Width := if a.bytes < b.bytes then b else a

/-- Twice the size, unless that is more than 8 bytes. -/
def double : Width → Option Width
  | one => some two
  | two => some four
  | four => some eight
  | eight => none

end Width

/-- `is_signed_` and `sign_flexible_`: `get_integer_type` makes literals flexible, and signed. -/
inductive Sign where
  | unsigned
  | signed
  | flexible
  deriving DecidableEq

namespace Sign

def isSigned : Sign → Bool
  | unsigned => false
  | signed | flexible => true

def isFlexible : Sign → Bool
  | flexible => true
  | unsigned | signed => false

def ofBool (signed : Bool) : Sign := if signed then .signed else .unsigned

end Sign

structure IntType where
  width : Width
  sign : Sign
  deriving DecidableEq

inductive MapKind where
  | count
  | sum
  | min
  | max
  | avg
  | stats
  deriving DecidableEq

def MapKind.castable : MapKind → Bool
  | stats => false
  | _ => true

inductive SizedKind where
  | buffer
  | inet
  deriving DecidableEq

inductive FixedKind where
  | voidtype
  | boolean
  | hist
  | lhist
  | tseries
  | ksym
  | usym
  | username
  | timestamp
  | macAddress
  | cgroupPath
  | timestampMode
  deriving DecidableEq

def FixedKind.size : FixedKind → Nat
  | voidtype | timestampMode => 0
  | boolean => 1
  | macAddress => 6
  | hist | lhist | tseries | ksym | username => 8
  | usym | timestamp | cgroupPath => 16

inductive StackMode where
  | bpftrace
  | perf
  | raw
  | buildId
  deriving DecidableEq

structure StackType where
  limit : Nat
  mode : StackMode
  kernel : Bool
  deriving DecidableEq

/-- The sizes of `CreateStack`; a `bpf_stack_build_id` takes 32 bytes. -/
def StackType.size (t : StackType) : Nat :=
  t.limit * (if t.mode = .buildId then 32 else 8) + if t.kernel then 8 else 16

inductive AddrSpace where
  | none
  | kernel
  | user
  deriving DecidableEq

mutual

/-- `SizedType`. An enum is an unsigned integer with a name. -/
inductive SizedType where
  | none
  | integer (type : IntType)
  | enum (width : Width) (name : String)
  | map (kind : MapKind) (signed : Bool)
  | string (size : Nat)
  | sized (kind : SizedKind) (size : Nat)
  | fixed (kind : FixedKind)
  | cType (name : String) (size : Nat)
  | stack (type : StackType)
  | pointer (pointee : SizedType) (as : AddrSpace)
  | array (numElements size : Nat) (element : SizedType)
  | tuple (fields : Fields)
  | record (fields : Fields)

/-- The fields of a `Struct`, with empty names in tuples. -/
inductive Fields where
  | nil
  | cons (name : String) (type : SizedType) (rest : Fields)

end

namespace Fields

def count : Fields → Nat
  | nil => 0
  | cons _ _ rest => rest.count + 1

def names : Fields → List String
  | nil => []
  | cons name _ rest => name :: rest.names

/-- `HasField` and `GetField` by name. -/
def find (name : String) : Fields → Option SizedType
  | nil => none
  | cons n type rest => if n = name then some type else find name rest

end Fields

/-! ## Comparisons -/

mutual

/-- `IsEqual`, by `operator<=>`. The flexibility of a sign, address spaces and sizes of arrays
are not compared. -/
def isEqual : SizedType → SizedType → Bool
  | .none, .none => true
  | .integer a, .integer b => a.width = b.width ∧ a.sign.isSigned = b.sign.isSigned
  | .enum w n, .enum w' m => n = m ∧ w = w'
  | .map k s, .map k' s' => k = k' ∧ s = s'
  | .string n, .string m => n = m
  | .sized k n, .sized k' m => k = k' ∧ n = m
  | .fixed k, .fixed k' => k = k'
  | .cType n m, .cType n' m' => n = n' ∧ m = m'
  | .stack t, .stack u => t = u
  | .pointer p _, .pointer q _ => isEqual p q
  | .array n _ e, .array m _ e' => decide (n = m) && isEqual e e'
  | .tuple fs, .tuple gs => isEqualFields false fs gs
  | .record fs, .record gs => isEqualFields true fs gs
  | _, _ => false

def isEqualFields (named : Bool) : Fields → Fields → Bool
  | .nil, .nil => true
  | .cons n t fs, .cons m u gs => (!named || decide (n = m)) && (isEqual t u && isEqualFields named fs gs)
  | _, _ => false

end

mutual

def isCompatible : SizedType → SizedType → Bool
  | .none, .none => true
  | .integer _, .integer _ | .integer _, .enum _ _ | .enum _ _, .integer _ | .enum _ _, .enum _ _ => true
  | .map k _, .map k' _ => k = k'
  | .string _, .string _ => true
  | .sized k _, .sized k' _ => k = k'
  | .fixed k, .fixed k' => k = k'
  | .cType n _, .cType n' _ => n = n'
  | .stack t, .stack u => t = u
  | .pointer p _, .pointer q _ => isCompatible p q
  | .array _ n e, .array _ m e' => isEqual e e' && (decide (n = 0) || decide (m = 0) || decide (n = m))
  | .tuple fs, .tuple gs => isCompatibleTuple fs gs
  | .record fs, .record gs => decide (fs.count = gs.count) && isCompatibleRecord gs fs
  | _, _ => false

def isCompatibleTuple : Fields → Fields → Bool
  | .nil, .nil => true
  | .cons _ t fs, .cons _ u gs => isCompatible t u && isCompatibleTuple fs gs
  | _, _ => false

def isCompatibleRecord (gs : Fields) : Fields → Bool
  | .nil => true
  | .cons n t fs =>
    match gs.find n with
    | some u => isCompatible t u && isCompatibleRecord gs fs
    | none => false

end

/-! ## Promotion -/

def getPromotedInt (current new : IntType) : IntType :=
  let flexible := current.sign.isFlexible && new.sign.isFlexible
  let make (width : Width) (signed : Bool) : IntType :=
    ⟨width, if flexible then .flexible else .ofBool signed⟩
  if current.sign.isSigned ≠ new.sign.isSigned then
    if current.sign.isFlexible ∨ new.sign.isFlexible then
      make (current.width.max new.width)
        (!current.sign.isFlexible && current.sign.isSigned || !new.sign.isFlexible && new.sign.isSigned)
    else if current.sign.isSigned ∧ new.width.bytes < current.width.bytes then ⟨current.width, .signed⟩
    else if new.sign.isSigned ∧ current.width.bytes < new.width.bytes then ⟨new.width, .signed⟩
    else ⟨(current.width.max new.width).double.getD .eight, .signed⟩
  else make (current.width.max new.width) current.sign.isSigned

/-- The size and sign of an enum and of a map value. -/
def ofEnum (width : Width) : IntType := ⟨width, .unsigned⟩

def ofMap (signed : Bool) : IntType := ⟨.eight, .ofBool signed⟩

def getPromotedCastableMap (kind : MapKind) (current new : Bool) : SizedType :=
  if current ≠ new then .map kind (if current then current else new) else .map kind current

/-- `GetPointeeTy().GetAS()` of a pointer to the type. -/
def pointeeAS (as : AddrSpace) : SizedType → AddrSpace
  | .pointer _ inner => if as = .user then .user else if as = .kernel ∧ inner ≠ .none then .kernel else inner
  | _ => if as = .user then .user else .none

mutual

/-- `get_promoted_element`, `get_promoted_tuple` and `get_promoted_record`, of compatible types. -/
def getPromotedElement : SizedType → SizedType → Option SizedType
  | .integer a, .integer b => some (.integer (getPromotedInt a b))
  | .integer a, .enum w _ => some (.integer (getPromotedInt a (ofEnum w)))
  | .enum w _, .integer b => some (.integer (getPromotedInt (ofEnum w) b))
  | .enum w _, .enum w' _ => some (.integer (getPromotedInt (ofEnum w) (ofEnum w')))
  | .map k s, .map _ s' => some (if k.castable then getPromotedCastableMap k s s' else .map k s)
  | .tuple fs, .tuple gs => (getPromotedTuple fs gs).map .tuple
  | .record fs, .record gs => (getPromotedRecord gs fs).map .record
  | .string n, .string m => some (.string (max n m))
  | .pointer p _, .pointer q as => (getPromotedElement p q).map (.pointer · (pointeeAS as q))
  | current, _ => some current

def getPromotedTuple : Fields → Fields → Option Fields
  | .cons _ t fs, .cons _ u gs =>
    match getPromotedElement t u, getPromotedTuple fs gs with
    | some v, some rest => some (.cons "" v rest)
    | _, _ => none
  | _, _ => some .nil

/-- In the order of the current type. -/
def getPromotedRecord (gs : Fields) : Fields → Option Fields
  | .nil => some .nil
  | .cons n t fs =>
    match (gs.find n).bind (getPromotedElement t), getPromotedRecord gs fs with
    | some v, some rest => some (.cons n v rest)
    | _, _ => none

end

/-- The integers of a type, of a map's values too. -/
def asInt : SizedType → Option IntType
  | .integer t => some t
  | .enum w _ => some (ofEnum w)
  | .map _ signed => some (ofMap signed)
  | _ => none

def isInteger : SizedType → Bool
  | .integer _ | .enum _ _ => true
  | _ => false

def isCastableMap : SizedType → Bool
  | .map k _ => k.castable
  | _ => false

def getPromotedType (current new : SizedType) : Option SizedType :=
  match current, new with
  | .none, .map k signed => some (if k.castable then .integer (ofMap signed) else .map k signed)
  | .none, new => some new
  | current, new =>
    if isEqual current new then some new
    else if isCompatible current new then getPromotedElement current new
    else if (isInteger current && isCastableMap new) || (isInteger new && isCastableMap current) then
      match asInt current, asInt new with
      | some a, some b => some (.integer (getPromotedInt a b))
      | _, _ => none
    else none

/-! ## Values -/

inductive Val where
  | int (z : Int)
  | bytes (bs : List UInt8)
  | address (a : UInt64)
  | seq (vs : List Val)
  | fields (f : String → Val)

/-- Half of the number of values. -/
def Width.half : Width → Int
  | one => 2 ^ 7
  | two => 2 ^ 15
  | four => 2 ^ 31
  | eight => 2 ^ 63

/-- The least value and the bound of the values; literals are not negative. -/
def IntType.values (t : IntType) : Int × Int :=
  match t.sign with
  | .unsigned => (0, 2 * t.width.half)
  | .signed => (-t.width.half, t.width.half)
  | .flexible => (0, t.width.half)

/-- The same for what can be stored. -/
def IntType.stores (t : IntType) : Int × Int := if t.sign.isSigned then (-t.width.half, t.width.half) else t.values

section Holds

variable (range : IntType → Int × Int)

mutual

/-- The values of a type, with a range for its integers. Those of a record are known by name. -/
def Holds : SizedType → Val → Prop
  | .none, _ => False
  | .integer t, v => ∃ z, v = .int z ∧ (range t).1 ≤ z ∧ z < (range t).2
  | .enum w _, v => ∃ z, v = .int z ∧ (range (ofEnum w)).1 ≤ z ∧ z < (range (ofEnum w)).2
  | .map _ signed, v => ∃ z, v = .int z ∧ (range (ofMap signed)).1 ≤ z ∧ z < (range (ofMap signed)).2
  | .string n, v | .sized _ n, v => ∃ bs, v = .bytes bs ∧ bs.length ≤ n
  | .fixed k, v => ∃ bs, v = .bytes bs ∧ bs.length = k.size
  | .cType _ n, v => ∃ bs, v = .bytes bs ∧ bs.length = n
  | .stack t, v => ∃ bs, v = .bytes bs ∧ bs.length = t.size
  | .pointer _ _, v => ∃ a, v = .address a
  | .array n _ e, v => ∃ vs, v = .seq vs ∧ vs.length = n ∧ ∀ u ∈ vs, Holds e u
  | .tuple fs, v => ∃ vs, v = .seq vs ∧ HoldsTuple fs vs
  | .record fs, v => ∃ f, v = .fields f ∧ HoldsRecord fs f

def HoldsTuple : Fields → List Val → Prop
  | .nil, vs => vs = []
  | .cons _ t fs, vs => ∃ u us, vs = u :: us ∧ Holds t u ∧ HoldsTuple fs us

def HoldsRecord : Fields → (String → Val) → Prop
  | .nil, _ => True
  | .cons n t fs, f => Holds t (f n) ∧ HoldsRecord fs f

end

end Holds

/-- The values that expressions of a type take. -/
def Has (t : SizedType) (v : Val) : Prop := Holds IntType.values t v

def Represents (t : SizedType) (v : Val) : Prop := Holds IntType.stores t v

mutual

/-- Types of values: there is no `none` in them, and the names in a record differ, as the parser
checks. -/
def isValueType : SizedType → Bool
  | .none => false
  | .array _ _ e => isValueType e
  | .tuple fs => areValueTypes fs
  | .record fs => decide fs.names.Nodup && areValueTypes fs
  | _ => true

def areValueTypes : Fields → Bool
  | .nil => true
  | .cons _ t fs => isValueType t && areValueTypes fs

end

mutual

/-- Two types at the same place, inside of tuples and records. -/
def anywhere (q : SizedType → SizedType → Bool) : SizedType → SizedType → Bool
  | .tuple fs, .tuple gs => anywhereTuple q fs gs
  | .record fs, .record gs => anywhereRecord q gs fs
  | a, b => q a b

def anywhereTuple (q : SizedType → SizedType → Bool) : Fields → Fields → Bool
  | .cons _ t fs, .cons _ u gs => anywhere q t u || anywhereTuple q fs gs
  | _, _ => false

def anywhereRecord (q : SizedType → SizedType → Bool) (gs : Fields) : Fields → Bool
  | .nil => false
  | .cons n t fs => ((gs.find n).any (anywhere q t)) || anywhereRecord q gs fs

end

/-- A 64-bit unsigned integer meets a signed one. -/
def intsClash (a b : IntType) : Bool :=
  decide (a = ⟨.eight, .unsigned⟩ ∧ b.sign = .signed) || decide (a.sign = .signed ∧ b = ⟨.eight, .unsigned⟩)

def clash (a b : SizedType) : Bool :=
  match asInt a, asInt b with
  | some t, some u => intsClash t u
  | _, _ => false

/-- The current type is kept though the new one has another size: buffers and addresses that
are larger, structs not yet resolved, arrays with another number of elements. -/
def keepsSize : SizedType → SizedType → Bool
  | .sized _ n, .sized _ m => n < m
  | .cType _ n, .cType _ m => n ≠ m
  | .array n _ _, .array m _ _ => n ≠ m
  | _, _ => false

/-! ## Integers -/

theorem getPromotedInt_range (a b : IntType) (h : intsClash a b = false) :
    let t := (getPromotedInt a b).stores
    (t.1 ≤ a.values.1 ∧ a.values.2 ≤ t.2) ∧ t.1 ≤ b.values.1 ∧ b.values.2 ≤ t.2 := by
  obtain ⟨w, s⟩ := a
  obtain ⟨w', s'⟩ := b
  revert h
  cases w <;> cases s <;> cases w' <;> cases s' <;> decide

/-- The values of a type are stored by another. -/
def Sub (a t : SizedType) : Prop := ∀ v, Has a v → Represents t v

def SubTuple (fs ts : Fields) : Prop := ∀ vs, HoldsTuple IntType.values fs vs → HoldsTuple IntType.stores ts vs

def SubRecord (fs ts : Fields) : Prop := ∀ f, HoldsRecord IntType.values fs f → HoldsRecord IntType.stores ts f

theorem sub_integer {a b : SizedType} {t u : IntType} (ha : asInt a = some t) (hb : asInt b = some u)
    (h : u.stores.1 ≤ t.values.1 ∧ t.values.2 ≤ u.stores.2) : Sub a b := by
  have hvalue : ∀ v, Has a v → ∃ z, v = .int z ∧ t.values.1 ≤ z ∧ z < t.values.2 := by
    cases a with
    | integer _ | enum _ _ | map _ _ =>
      cases ha
      exact fun _ h => h
    | _ => cases ha
  have hstored : ∀ v, (∃ z, v = .int z ∧ u.stores.1 ≤ z ∧ z < u.stores.2) → Represents b v := by
    cases b with
    | integer _ | enum _ _ | map _ _ =>
      cases hb
      exact fun _ h => h
    | _ => cases hb
  intro v hv
  obtain ⟨z, rfl, hlo, hhi⟩ := hvalue v hv
  exact hstored _ ⟨z, rfl, by omega, by omega⟩

theorem values_sub_stores (t : IntType) : t.stores.1 ≤ t.values.1 ∧ t.values.2 ≤ t.stores.2 := by
  obtain ⟨w, s⟩ := t
  cases w <;> cases s <;> decide

theorem stores_congr {t u : IntType} (hw : t.width = u.width) (hs : t.sign.isSigned = u.sign.isSigned) :
    t.stores = u.stores := by
  obtain ⟨w, s⟩ := t
  obtain ⟨w', s'⟩ := u
  obtain rfl : w = w' := hw
  cases s <;> cases s' <;> first | rfl | cases hs

/-! ## Equal types -/

mutual

theorem sub_self : ∀ t, Sub t t
  | .none | .string _ | .sized _ _ | .fixed _ | .cType _ _ | .stack _ | .pointer _ _ => fun _ h => h
  | .integer _ | .enum _ _ | .map _ _ => sub_integer rfl rfl (values_sub_stores _)
  | .array _ _ e => fun _ ⟨vs, hv, hlen, hall⟩ => ⟨vs, hv, hlen, fun u hu => sub_self e u (hall u hu)⟩
  | .tuple fs => fun _ ⟨vs, hv, h⟩ => ⟨vs, hv, (sub_self_fields fs).1 vs h⟩
  | .record fs => fun _ ⟨f, hv, h⟩ => ⟨f, hv, (sub_self_fields fs).2 f h⟩

theorem sub_self_fields : ∀ fs, SubTuple fs fs ∧ SubRecord fs fs
  | .nil => ⟨fun _ h => h, fun _ h => h⟩
  | .cons _ t fs => by
    obtain ⟨htuple, hrecord⟩ := sub_self_fields fs
    exact ⟨fun _ ⟨v, vs, hv, ht, h⟩ => ⟨v, vs, hv, sub_self t v ht, htuple vs h⟩,
      fun f h => ⟨sub_self t _ h.1, hrecord f h.2⟩⟩

end

theorem sub_both_self (t : SizedType) : Sub t t ∧ Sub t t := ⟨sub_self t, sub_self t⟩

mutual

theorem represents_of_isEqual : ∀ a b, isEqual a b = true → Holds IntType.stores a = Holds IntType.stores b
  | .none, .none, _ | .pointer _ _, .pointer _ _, _ => rfl
  | .integer t, .integer u, h => by
    obtain ⟨hw, hs⟩ := of_decide_eq_true h
    funext v
    rw [Holds, Holds, stores_congr hw hs]
  | .enum w n, .enum w' m, h | .map k s, .map k' s', h | .sized k n, .sized k' m, h | .cType n m, .cType n' m', h => by
    obtain ⟨rfl, rfl⟩ := of_decide_eq_true h
    rfl
  | .string n, .string m, h | .fixed k, .fixed k', h | .stack t, .stack u, h => by
    obtain rfl := of_decide_eq_true h
    rfl
  | .array n _ e, .array m _ e', h => by
    obtain ⟨hn, he⟩ := (Bool.and_eq_true _ _).mp h
    obtain rfl := of_decide_eq_true hn
    funext v
    rw [Holds, Holds, represents_of_isEqual e e' he]
  | .tuple fs, .tuple gs, h => by
    funext v
    rw [Holds, Holds, (represents_of_isEqualFields false fs gs h).1]
  | .record fs, .record gs, h => by
    funext v
    rw [Holds, Holds, (represents_of_isEqualFields true fs gs h).2 rfl]

theorem represents_of_isEqualFields (named : Bool) : ∀ fs gs, isEqualFields named fs gs = true →
    HoldsTuple IntType.stores fs = HoldsTuple IntType.stores gs ∧
      (named = true → HoldsRecord IntType.stores fs = HoldsRecord IntType.stores gs)
  | .nil, .nil, _ => ⟨rfl, fun _ => rfl⟩
  | .cons n t fs, .cons m u gs, h => by
    simp only [isEqualFields, Bool.and_eq_true, Bool.or_eq_true, Bool.not_eq_true', decide_eq_true_eq] at h
    obtain ⟨hname, htype, hrest⟩ := h
    obtain ⟨htuple, hrecord⟩ := represents_of_isEqualFields named fs gs hrest
    constructor
    · funext vs
      rw [HoldsTuple, HoldsTuple, represents_of_isEqual t u htype, htuple]
    · intro hnamed
      obtain rfl : n = m := hname.resolve_left (by simp [hnamed])
      funext f
      rw [HoldsRecord, HoldsRecord, represents_of_isEqual t u htype, hrecord hnamed]

end

theorem sub_of_isEqual {a b : SizedType} (h : isEqual a b = true) : Sub a b ∧ Sub b a :=
  have heq := represents_of_isEqual a b h
  ⟨fun v hv => (congrFun heq v).mp (sub_self a v hv), fun v hv => (congrFun heq v).mpr (sub_self b v hv)⟩

/-! ## Every type of values has one -/

theorem values_nonempty (t : IntType) : t.values.1 ≤ 0 ∧ 0 < t.values.2 := by
  obtain ⟨w, s⟩ := t
  cases w <;> cases s <;> decide

variable {n : String} {u : SizedType}

theorem holdsRecord_update {range : IntType → Int × Int} : ∀ fs : Fields, n ∉ fs.names → ∀ f v,
    HoldsRecord range fs (update f n v) ↔ HoldsRecord range fs f
  | .nil, _, _, _ => Iff.rfl
  | .cons m t fs, hn, f, v => by
    simp only [Fields.names, List.mem_cons, not_or] at hn
    rw [HoldsRecord, HoldsRecord, update_of_ne (Ne.symm hn.1), holdsRecord_update fs hn.2 f v]

mutual

theorem exists_has : ∀ t, isValueType t = true → ∃ v, Has t v
  | .integer t, _ => ⟨.int 0, 0, rfl, values_nonempty t⟩
  | .enum w _, _ => ⟨.int 0, 0, rfl, values_nonempty (ofEnum w)⟩
  | .map _ signed, _ => ⟨.int 0, 0, rfl, values_nonempty (ofMap signed)⟩
  | .string _, _ | .sized _ _, _ => ⟨.bytes [], [], rfl, Nat.zero_le _⟩
  | .fixed k, _ => ⟨.bytes (List.replicate k.size 0), _, rfl, List.length_replicate⟩
  | .cType _ n, _ => ⟨.bytes (List.replicate n 0), _, rfl, List.length_replicate⟩
  | .stack t, _ => ⟨.bytes (List.replicate t.size 0), _, rfl, List.length_replicate⟩
  | .pointer _ _, _ => ⟨.address 0, 0, rfl⟩
  | .array n _ e, h => by
    obtain ⟨v, hv⟩ := exists_has e h
    refine ⟨.seq (List.replicate n v), _, rfl, List.length_replicate, fun u hu => ?_⟩
    obtain rfl := List.eq_of_mem_replicate hu
    exact hv
  | .tuple fs, h => by
    obtain ⟨vs, hvs⟩ := exists_holdsTuple fs h
    exact ⟨.seq vs, vs, rfl, hvs⟩
  | .record fs, h => by
    simp only [isValueType, Bool.and_eq_true, decide_eq_true_eq] at h
    obtain ⟨f, hf⟩ := exists_holdsRecord fs h.1 h.2
    exact ⟨.fields f, f, rfl, hf⟩

theorem exists_holdsTuple : ∀ fs, areValueTypes fs = true → ∃ vs, HoldsTuple IntType.values fs vs
  | .nil, _ => ⟨[], rfl⟩
  | .cons _ t fs, h => by
    obtain ⟨ht, hfs⟩ := (Bool.and_eq_true _ _).mp h
    obtain ⟨v, hv⟩ := exists_has t ht
    obtain ⟨vs, hvs⟩ := exists_holdsTuple fs hfs
    exact ⟨v :: vs, v, vs, rfl, hv, hvs⟩

theorem exists_holdsRecord : ∀ fs, fs.names.Nodup → areValueTypes fs = true → ∃ f, HoldsRecord IntType.values fs f
  | .nil, _, _ => ⟨fun _ => .bytes [], trivial⟩
  | .cons n t fs, hnodup, h => by
    obtain ⟨ht, hfs⟩ := (Bool.and_eq_true _ _).mp h
    obtain ⟨hn, hnodup⟩ := List.nodup_cons.mp hnodup
    obtain ⟨v, hv⟩ := exists_has t ht
    obtain ⟨f, hf⟩ := exists_holdsRecord fs hnodup hfs
    refine ⟨update f n v, ?_, (holdsRecord_update fs hn f v).mpr hf⟩
    rw [update_self]
    exact hv

end

/-! ## Fields -/

theorem subTuple_cons {m : String} {a t : SizedType} {fs ts : Fields} (ha : isValueType a = true)
    (hfs : areValueTypes fs = true) : SubTuple (.cons n a fs) (.cons m t ts) ↔ Sub a t ∧ SubTuple fs ts := by
  constructor
  · intro h
    constructor
    · intro v hv
      obtain ⟨vs, hvs⟩ := exists_holdsTuple fs hfs
      obtain ⟨u, us, heq, hu, -⟩ := h (v :: vs) ⟨v, vs, rfl, hv, hvs⟩
      obtain ⟨rfl, rfl⟩ := List.cons.inj heq
      exact hu
    · intro vs hvs
      obtain ⟨v, hv⟩ := exists_has a ha
      obtain ⟨u, us, heq, -, hus⟩ := h (v :: vs) ⟨v, vs, rfl, hv, hvs⟩
      obtain ⟨rfl, rfl⟩ := List.cons.inj heq
      exact hus
  · rintro ⟨ha, hfs⟩ _ ⟨v, vs, rfl, hv, hvs⟩
    exact ⟨v, vs, rfl, ha v hv, hfs vs hvs⟩

theorem exists_field {v : Val} (hv : Has u v) : ∀ fs, fs.names.Nodup →
    areValueTypes fs = true → fs.find n = some u → ∃ f, HoldsRecord IntType.values fs f ∧ f n = v
  | .nil, _, _, h => by cases h
  | .cons m t fs, hnodup, hty, h => by
    obtain ⟨ht, hfs⟩ := (Bool.and_eq_true _ _).mp hty
    obtain ⟨hm, hnodup⟩ := List.nodup_cons.mp hnodup
    rw [Fields.find] at h
    split at h
    · next heq =>
      obtain rfl := Option.some.inj h
      obtain ⟨f, hf⟩ := exists_holdsRecord fs hnodup hfs
      refine ⟨update f m v, ⟨?_, (holdsRecord_update fs hm f v).mpr hf⟩, ?_⟩
      · rw [update_self]
        exact hv
      · rw [heq, update_self]
    · next hne =>
      obtain ⟨f, hf, hfn⟩ := exists_field hv fs hnodup hfs h
      obtain ⟨w, hw⟩ := exists_has t ht
      refine ⟨update f m w, ⟨?_, (holdsRecord_update fs hm f w).mpr hf⟩, ?_⟩
      · rw [update_self]
        exact hw
      · rw [update_of_ne (Ne.symm hne), hfn]

theorem holds_find {f : String → Val} : ∀ fs, HoldsRecord IntType.values fs f →
    fs.find n = some u → Has u (f n)
  | .nil, _, h => by cases h
  | .cons m t fs, hf, h => by
    rw [Fields.find] at h
    split at h
    · next heq =>
      cases h
      exact heq ▸ hf.1
    · exact holds_find fs hf.2 h

theorem subRecord_cons {t : SizedType} {fs ts : Fields} (hnodup : fs.names.Nodup) (hfs : areValueTypes fs = true)
    (hu : fs.find n = some u) : SubRecord fs (.cons n t ts) ↔ Sub u t ∧ SubRecord fs ts := by
  constructor
  · intro h
    constructor
    · intro v hv
      obtain ⟨f, hf, rfl⟩ := exists_field hv fs hnodup hfs hu
      exact (h f hf).1
    · exact fun f hf => (h f hf).2
  · rintro ⟨ht, hts⟩ f hf
    exact ⟨ht _ (holds_find fs hf hu), hts f hf⟩

theorem isValueType_find : ∀ fs, areValueTypes fs = true → fs.find n = some u →
    isValueType u = true
  | .nil, _, h => by cases h
  | .cons m t fs, hfs, h => by
    obtain ⟨ht, hfs⟩ := (Bool.and_eq_true _ _).mp hfs
    rw [Fields.find] at h
    split at h
    · cases h
      exact ht
    · exact isValueType_find fs hfs h

/-- Fields with the types that a record has under their names. -/
def Fields.Within (all : Fields) : Fields → Prop
  | .nil => True
  | .cons n t fs => all.find n = some t ∧ Within all fs

theorem Fields.Within.cons {t : SizedType} {all : Fields} : ∀ {fs : Fields}, n ∉ fs.names →
    Within all fs → Within (.cons n t all) fs
  | .nil, _, _ => trivial
  | .cons m u fs, hn, h => by
    simp only [names, List.mem_cons, not_or] at hn
    refine ⟨?_, Within.cons hn.2 h.2⟩
    rw [find, if_neg hn.1]
    exact h.1

theorem Fields.within_self : ∀ fs : Fields, fs.names.Nodup → Within fs fs
  | .nil, _ => trivial
  | .cons n t fs, h => by
    obtain ⟨hn, h⟩ := List.nodup_cons.mp h
    exact ⟨by rw [find, if_pos rfl], (within_self fs h).cons hn⟩

theorem sub_tuple_iff {fs ts : Fields} : Sub (.tuple fs) (.tuple ts) ↔ SubTuple fs ts := by
  constructor
  · intro h vs hvs
    obtain ⟨us, heq, hus⟩ := h (.seq vs) ⟨vs, rfl, hvs⟩
    obtain rfl := Val.seq.inj heq
    exact hus
  · rintro h _ ⟨vs, rfl, hvs⟩
    exact ⟨vs, rfl, h vs hvs⟩

theorem sub_record_iff {fs ts : Fields} : Sub (.record fs) (.record ts) ↔ SubRecord fs ts := by
  constructor
  · intro h f hf
    obtain ⟨g, heq, hg⟩ := h (.fields f) ⟨f, rfl, hf⟩
    obtain rfl := Val.fields.inj heq
    exact hg
  · rintro h _ ⟨f, rfl, hf⟩
    exact ⟨f, rfl, h f hf⟩

/-! ## Promoted types -/

theorem sub_promotedInt {a b : SizedType} {t u : IntType} (ha : asInt a = some t) (hb : asInt b = some u)
    (h : clash a b = false) :
    Sub a (.integer (getPromotedInt t u)) ∧ Sub b (.integer (getPromotedInt t u)) := by
  have hrange := getPromotedInt_range t u (by simpa [clash, ha, hb] using h)
  exact ⟨sub_integer ha rfl hrange.1, sub_integer hb rfl hrange.2⟩

theorem eq_of_not_intsClash {s s' : Bool} (h : intsClash (ofMap s) (ofMap s') = false) : s = s' := by
  revert h
  cases s <;> cases s' <;> decide

theorem anywhere_of_asInt {a : SizedType} {t : IntType} (h : asInt a = some t) (q : SizedType → SizedType → Bool)
    (b : SizedType) : anywhere q a b = q a b ∧ keepsSize a b = false := by
  cases a with
  | integer _ | enum _ _ | map _ _ => exact ⟨rfl, rfl⟩
  | _ => cases h

theorem sub_sized_iff {k k' : SizedKind} {n m : Nat} : Sub (.sized k' m) (.sized k n) ↔ m ≤ n := by
  constructor
  · intro h
    obtain ⟨bs, heq, hbs⟩ := h (.bytes (List.replicate m 0)) ⟨_, rfl, Nat.le_of_eq List.length_replicate⟩
    obtain rfl := Val.bytes.inj heq
    rwa [List.length_replicate] at hbs
  · rintro h _ ⟨bs, rfl, hbs⟩
    exact ⟨bs, rfl, by omega⟩

theorem sub_cType_iff {a b : String} {n m : Nat} : Sub (.cType b m) (.cType a n) ↔ n = m := by
  constructor
  · intro h
    obtain ⟨bs, heq, hbs⟩ := h (.bytes (List.replicate m 0)) ⟨_, rfl, List.length_replicate⟩
    obtain rfl := Val.bytes.inj heq
    rw [List.length_replicate] at hbs
    exact hbs.symm
  · rintro rfl v hv
    exact hv

theorem sub_array_iff {n m k l : Nat} {e e' : SizedType} (he : isEqual e e' = true) (hv : isValueType e' = true) :
    Sub (.array m l e') (.array n k e) ↔ n = m := by
  constructor
  · intro h
    obtain ⟨v, hv⟩ := exists_has e' hv
    obtain ⟨vs, heq, hlen, -⟩ := h (.seq (List.replicate m v)) ⟨_, rfl, List.length_replicate,
      fun u hu => List.eq_of_mem_replicate hu ▸ hv⟩
    obtain rfl := Val.seq.inj heq
    rw [List.length_replicate] at hlen
    exact hlen.symm
  · rintro rfl _ ⟨vs, rfl, hlen, hall⟩
    exact ⟨vs, rfl, hlen, fun u hu => (sub_of_isEqual he).2 u (hall u hu)⟩

mutual

theorem getPromotedElement_iff : ∀ a b t, isCompatible a b = true → isValueType a = true → isValueType b = true →
    anywhere clash a b = false → getPromotedElement a b = some t →
      ((Sub a t ∧ Sub b t) ↔ anywhere keepsSize a b = false)
  | .none, .none, _, _, ha, _, _, _ => by cases ha
  | .integer _, .integer _, _, _, _, _, hclash, ht | .integer _, .enum _ _, _, _, _, _, hclash, ht
  | .enum _ _, .integer _, _, _, _, _, hclash, ht | .enum _ _, .enum _ _, _, _, _, _, hclash, ht => by
    cases ht
    exact iff_of_true (sub_promotedInt rfl rfl hclash) rfl
  | .map k s, .map k' s', _, hk, _, _, hclash, ht => by
    obtain rfl := of_decide_eq_true hk
    obtain rfl := eq_of_not_intsClash hclash
    simp only [getPromotedElement, getPromotedCastableMap, ne_eq, not_true_eq_false, ite_self] at ht
    cases ht
    exact iff_of_true (sub_both_self _) rfl
  | .string n, .string m, _, _, _, _, _, ht => by
    cases ht
    refine iff_of_true ⟨?_, ?_⟩ rfl
    · rintro _ ⟨bs, rfl, hbs⟩
      exact ⟨bs, rfl, by omega⟩
    · rintro _ ⟨bs, rfl, hbs⟩
      exact ⟨bs, rfl, by omega⟩
  | .sized k n, .sized k' m, _, _, _, _, _, ht => by
    cases ht
    simp only [sub_self, true_and, sub_sized_iff, anywhere, keepsSize, decide_eq_false_iff_not, Nat.not_lt]
  | .fixed k, .fixed k', _, hk, _, _, _, ht | .stack t, .stack u, _, hk, _, _, _, ht => by
    obtain rfl := of_decide_eq_true hk
    cases ht
    exact iff_of_true (sub_both_self _) rfl
  | .cType n m, .cType n' m', _, _, _, _, _, ht => by
    cases ht
    simp only [sub_self, true_and, sub_cType_iff, anywhere, keepsSize, decide_eq_false_iff_not, not_not]
  | .pointer p _, .pointer q _, _, _, _, _, _, ht => by
    obtain ⟨r, -, rfl⟩ := Option.map_eq_some_iff.mp ht
    exact iff_of_true ⟨fun _ h => h, fun _ h => h⟩ rfl
  | .array n k e, .array m l e', _, hcompat, _, hb, _, ht => by
    cases ht
    have he := ((Bool.and_eq_true _ _).mp hcompat).1
    simp only [sub_self, true_and, sub_array_iff he hb, anywhere, keepsSize, decide_eq_false_iff_not, not_not]
  | .tuple fs, .tuple gs, _, hcompat, ha, hb, hclash, ht => by
    obtain ⟨ts, hts, rfl⟩ := Option.map_eq_some_iff.mp ht
    rw [sub_tuple_iff, sub_tuple_iff]
    exact getPromotedTuple_iff fs gs ts hcompat ha hb hclash hts
  | .record fs, .record gs, _, hcompat, ha, hb, hclash, ht => by
    obtain ⟨ts, hts, rfl⟩ := Option.map_eq_some_iff.mp ht
    obtain ⟨hfs, hafs⟩ := (Bool.and_eq_true _ _).mp ha
    obtain ⟨hgs, hbgs⟩ := (Bool.and_eq_true _ _).mp hb
    have hnodup := of_decide_eq_true hfs
    rw [sub_record_iff, sub_record_iff]
    exact getPromotedRecord_iff hnodup hafs (of_decide_eq_true hgs) hbgs fs ts (Fields.within_self fs hnodup)
      ((Bool.and_eq_true _ _).mp hcompat).2 hclash hts

theorem getPromotedTuple_iff : ∀ fs gs ts, isCompatibleTuple fs gs = true → areValueTypes fs = true →
    areValueTypes gs = true → anywhereTuple clash fs gs = false → getPromotedTuple fs gs = some ts →
      ((SubTuple fs ts ∧ SubTuple gs ts) ↔ anywhereTuple keepsSize fs gs = false)
  | .nil, .nil, ts, _, _, _, _, hts => by
    cases hts
    exact iff_of_true ⟨fun _ h => h, fun _ h => h⟩ rfl
  | .cons n t fs, .cons m u gs, _, hcompat, hfs, hgs, hclash, hts => by
    simp only [isCompatibleTuple, areValueTypes, anywhereTuple, Bool.and_eq_true, Bool.or_eq_false_iff]
      at hcompat hfs hgs hclash
    simp only [getPromotedTuple] at hts
    split at hts
    · next v rest hv hrest =>
      cases hts
      have helem := getPromotedElement_iff t u v hcompat.1 hfs.1 hgs.1 hclash.1 hv
      have htail := getPromotedTuple_iff fs gs rest hcompat.2 hfs.2 hgs.2 hclash.2 hrest
      rw [subTuple_cons hfs.1 hfs.2, subTuple_cons hgs.1 hgs.2, and_and_and_comm, helem, htail, anywhereTuple,
        Bool.or_eq_false_iff]
    · cases hts

theorem getPromotedRecord_iff {all gs : Fields} (hall : all.names.Nodup) (hallTypes : areValueTypes all = true)
    (hgs : gs.names.Nodup) (hgsTypes : areValueTypes gs = true) : ∀ fs ts, all.Within fs →
      isCompatibleRecord gs fs = true → anywhereRecord clash gs fs = false → getPromotedRecord gs fs = some ts →
        ((SubRecord all ts ∧ SubRecord gs ts) ↔ anywhereRecord keepsSize gs fs = false)
  | .nil, ts, _, _, _, hts => by
    cases hts
    exact iff_of_true ⟨fun _ _ => trivial, fun _ _ => trivial⟩ rfl
  | .cons n t fs, _, hwithin, hcompat, hclash, hts => by
    rw [isCompatibleRecord] at hcompat
    split at hcompat
    · next u hu =>
      simp only [anywhereRecord, hu, Option.any_some, Bool.or_eq_false_iff, Bool.and_eq_true] at hcompat hclash
      simp only [getPromotedRecord, hu, Option.bind_some] at hts
      split at hts
      · next v rest hv hrest =>
        cases hts
        have helem := getPromotedElement_iff t u v hcompat.1 (isValueType_find all hallTypes hwithin.1)
          (isValueType_find gs hgsTypes hu) hclash.1 hv
        have htail := getPromotedRecord_iff hall hallTypes hgs hgsTypes fs rest hwithin.2 hcompat.2 hclash.2 hrest
        rw [subRecord_cons hall hallTypes hwithin.1, subRecord_cons hgs hgsTypes hu, and_and_and_comm, helem, htail,
          anywhereRecord, hu, Option.any_some, Bool.or_eq_false_iff]
      · cases hts
    · cases hcompat

end

/-- Of two types of values that have a promoted type, and where no 64-bit unsigned integer meets
a signed one: every value of either is representable in it exactly if the two are equal or
nothing in them keeps its size though the other has another one. -/
theorem promoted_type_represents_iff {current new t : SizedType} (hc : isValueType current = true)
    (hn : isValueType new = true) (ht : getPromotedType current new = some t)
    (hclash : anywhere clash current new = false) :
    (∀ v, Has current v ∨ Has new v → Represents t v) ↔
      isEqual current new = true ∨ anywhere keepsSize current new = false := by
  have hboth : (∀ v, Has current v ∨ Has new v → Represents t v) ↔ Sub current t ∧ Sub new t := by
    simp only [or_imp, forall_and, Sub]
  rw [hboth]
  unfold getPromotedType at ht
  split at ht
  · cases hc
  · cases hc
  · split at ht
    · next heq =>
      cases ht
      exact iff_of_true ⟨(sub_of_isEqual heq).1, sub_self _⟩ (.inl heq)
    · next hne =>
      split at ht
      · next hcompat =>
        rw [getPromotedElement_iff _ _ _ hcompat hc hn hclash ht, or_iff_right hne]
      · split at ht
        · split at ht
          · next a b ha hb =>
            cases ht
            rw [(anywhere_of_asInt ha clash new).1] at hclash
            obtain ⟨hany, hkeeps⟩ := anywhere_of_asInt ha keepsSize new
            exact iff_of_true (sub_promotedInt ha hb hclash) (.inr (hany.trans hkeeps))
          · cases ht
        · cases ht

/-- `(1, "ab")` and `(300, "abcd")` -/
theorem promoted_type_represents_iff_tuples :
    let int (w : Width) : SizedType := .integer ⟨w, .flexible⟩
    let pair (w : Width) (n : Nat) : SizedType := .tuple (.cons "" (int w) (.cons "" (.string n) .nil))
    ∀ v, Has (pair .one 3) v ∨ Has (pair .two 5) v → Represents (pair .two 5) v :=
  (promoted_type_represents_iff (by decide) (by decide) rfl (by decide)).mpr (.inr (by decide))

/-- A buffer keeps its size if one that is larger comes next. -/
theorem larger_buffer_is_cut :
    getPromotedType (.sized .buffer 8) (.sized .buffer 16) = some (.sized .buffer 8) ∧
      anywhere clash (.sized .buffer 8) (.sized .buffer 16) = false ∧
        ∃ v, Has (.sized .buffer 16) v ∧ ¬ Represents (.sized .buffer 8) v := by
  refine ⟨rfl, by decide, .bytes (List.replicate 16 0), ⟨_, rfl, by decide⟩, ?_⟩
  rintro ⟨bs, heq, hbs⟩
  obtain rfl := Val.bytes.inj heq
  exact absurd hbs (by decide)

end TypePromotion
