import Ubpftrace.TypePromotion

/-!
# The order of promotions

The type of a map or a variable is promoted with one assignment after another, as the resolver
meets them. Integers and tuples of them give the same type in every order as long as each literal
is narrower than the signed integers beside it: for `IsEqual` a literal is equal to a signed type of
its size, and then the promoted type is the new one, flexible or not.
-/

namespace TypePromotion

/-- `get_promoted_type` of one type after another, from the type `none`. -/
def promoteAll (ts : List SizedType) : Option SizedType := ts.foldlM getPromotedType .none

mutual

/-- Integer types of a set, and tuples nested over them. -/
inductive Over (S : IntType → Prop) : SizedType → Prop
  | integer {t : IntType} (h : S t) : Over S (.integer t)
  | tuple {fs : Fields} (h : OverFields S fs) : Over S (.tuple fs)

inductive OverFields (S : IntType → Prop) : Fields → Prop
  | nil : OverFields S .nil
  | cons {t : SizedType} {fs : Fields} (ht : Over S t) (hfs : OverFields S fs) : OverFields S (.cons "" t fs)

end

/-- If one of the two is a literal and the other signed, the literal is narrower. -/
def Apart (x y : IntType) : Prop :=
  (x.sign = .flexible → y.sign = .signed → x.width.bytes < y.width.bytes) ∧
    (y.sign = .flexible → x.sign = .signed → y.width.bytes < x.width.bytes)

instance (x y : IntType) : Decidable (Apart x y) := inferInstanceAs (Decidable (_ ∧ _))

/-! ## Integers -/

def IntType.all : List IntType :=
  [Width.one, .two, .four, .eight].flatMap fun w => [Sign.unsigned, .signed, .flexible].map (.mk w)

theorem IntType.mem_all (x : IntType) : x ∈ all := by
  obtain ⟨w, s⟩ := x
  cases w <;> cases s <;> decide

instance {p : IntType → Prop} [DecidablePred p] : Decidable (∀ x, p x) :=
  decidable_of_iff (∀ x ∈ IntType.all, p x) ⟨fun h x => h x x.mem_all, fun h x _ => h x⟩

theorem getPromotedInt_comm : ∀ x y, getPromotedInt x y = getPromotedInt y x := by decide +kernel

theorem getPromotedInt_apart : ∀ x y z, Apart x y → Apart x z → Apart y z → Apart (getPromotedInt x y) z := by
  decide +kernel

theorem getPromotedInt_right_comm : ∀ x y z, Apart x y → Apart x z → Apart y z →
    getPromotedInt (getPromotedInt x y) z = getPromotedInt (getPromotedInt x z) y := by
  decide +kernel

theorem getPromotedInt_of_isEqual : ∀ x y, Apart x y → isEqual (.integer x) (.integer y) = true →
    getPromotedInt x y = y := by
  decide +kernel

/-! ## Tuples -/

mutual

/-- Promotion by position, of types of one shape. -/
def merge : SizedType → SizedType → Option SizedType
  | .integer a, .integer b => some (.integer (getPromotedInt a b))
  | .tuple fs, .tuple gs => (mergeFields fs gs).map .tuple
  | _, _ => none

def mergeFields : Fields → Fields → Option Fields
  | .nil, .nil => some .nil
  | .cons _ t fs, .cons _ u gs => (merge t u).bind fun v => (mergeFields fs gs).map (.cons "" v)
  | _, _ => none

end

variable {S T : IntType → Prop}

mutual

theorem merge_comm : ∀ {a b}, Over S a → Over T b → merge a b = merge b a
  | _, _, .integer _, .integer _ => by rw [merge, merge, getPromotedInt_comm]
  | _, _, .tuple hfs, .tuple hgs => by rw [merge, merge, mergeFields_comm hfs hgs]
  | _, _, .integer _, .tuple _ | _, _, .tuple _, .integer _ => rfl

theorem mergeFields_comm : ∀ {fs gs}, OverFields S fs → OverFields T gs → mergeFields fs gs = mergeFields gs fs
  | _, _, .nil, .nil => rfl
  | _, _, .cons ht hfs, .cons hu hgs => by
    rw [mergeFields, mergeFields, merge_comm ht hu, mergeFields_comm hfs hgs]
  | _, _, .nil, .cons _ _ | _, _, .cons _ _, .nil => rfl

end

mutual

theorem merge_eq : ∀ {a b}, Over S a → Over T b →
    merge a b = if isCompatible a b then getPromotedElement a b else none
  | _, _, .integer _, .integer _ => rfl
  | _, _, .tuple hfs, .tuple hgs => by
    rw [merge, mergeFields_eq hfs hgs, isCompatible, getPromotedElement]
    split <;> rfl
  | _, _, .integer _, .tuple _ | _, _, .tuple _, .integer _ => rfl

theorem mergeFields_eq : ∀ {fs gs}, OverFields S fs → OverFields T gs →
    mergeFields fs gs = if isCompatibleTuple fs gs then getPromotedTuple fs gs else none
  | _, _, .nil, .nil => rfl
  | .cons _ t fs, .cons _ u gs, .cons ht hfs, .cons hu hgs => by
    rw [mergeFields, merge_eq ht hu, mergeFields_eq hfs hgs, isCompatibleTuple, getPromotedTuple]
    cases isCompatible t u <;> cases isCompatibleTuple fs gs <;> cases getPromotedElement t u <;>
      cases getPromotedTuple fs gs <;> rfl
  | _, _, .nil, .cons _ _ | _, _, .cons _ _, .nil => rfl

end

/-- What has been promoted so far is apart from all types that are still to come. -/
def ApartFrom (S : IntType → Prop) (x : IntType) : Prop := ∀ y, S y → Apart x y

mutual

theorem merge_of_isEqual : ∀ {a b}, Over (ApartFrom S) a → Over S b → isEqual a b = true → merge a b = some b
  | _, _, .integer hx, .integer hy, h => by rw [merge, getPromotedInt_of_isEqual _ _ (hx _ hy) h]
  | _, _, .tuple hfs, .tuple hgs, h => by rw [merge, mergeFields_of_isEqual hfs hgs h, Option.map_some]

theorem mergeFields_of_isEqual : ∀ {fs gs}, OverFields (ApartFrom S) fs → OverFields S gs →
    isEqualFields false fs gs = true → mergeFields fs gs = some gs
  | _, _, .nil, .nil, _ => rfl
  | _, _, .cons ht hfs, .cons hu hgs, h => by
    simp only [isEqualFields, Bool.not_false, Bool.true_or, Bool.true_and, Bool.and_eq_true] at h
    rw [mergeFields, merge_of_isEqual ht hu h.1, mergeFields_of_isEqual hfs hgs h.2]
    rfl

end

theorem getPromotedType_eq {a b : SizedType} (ha : Over (ApartFrom S) a) (hb : Over S b) :
    getPromotedType a b = merge a b := by
  have hcast : isCastableMap a = false ∧ isCastableMap b = false := by
    cases ha <;> cases hb <;> exact ⟨rfl, rfl⟩
  have hnone : a ≠ .none := by
    rintro rfl
    cases ha
  rw [merge_eq ha hb]
  unfold getPromotedType
  split
  · exact absurd rfl hnone
  · exact absurd rfl hnone
  · split
    · next heq => rw [← merge_eq ha hb, merge_of_isEqual ha hb heq]
    · simp [hcast]

mutual

theorem over_merge (hS : ∀ x, S x → ApartFrom S x) : ∀ {z x c}, Over (ApartFrom S) z → Over S x →
    merge z x = some c → Over (ApartFrom S) c
  | _, _, _, .integer hz, .integer hx, h => by
    cases h
    exact .integer fun y hy => getPromotedInt_apart _ _ y (hz _ hx) (hz y hy) (hS _ hx y hy)
  | _, _, _, .tuple hfs, .tuple hgs, h => by
    obtain ⟨fs, hmerge, rfl⟩ := Option.map_eq_some_iff.mp h
    exact .tuple (over_mergeFields hS hfs hgs hmerge)

theorem over_mergeFields (hS : ∀ x, S x → ApartFrom S x) : ∀ {fs gs hs}, OverFields (ApartFrom S) fs →
    OverFields S gs → mergeFields fs gs = some hs → OverFields (ApartFrom S) hs
  | _, _, _, .nil, .nil, h => by
    cases h
    exact .nil
  | _, _, _, .cons ht hfs, .cons hu hgs, h => by
    obtain ⟨v, hv, hrest⟩ := Option.bind_eq_some_iff.mp h
    obtain ⟨rest, hmerge, rfl⟩ := Option.map_eq_some_iff.mp hrest
    exact .cons (over_merge hS ht hu hv) (over_mergeFields hS hfs hgs hmerge)

end

theorem mergeFields_twice (n m k : String) (t u w : SizedType) (fs gs hs : Fields) :
    (mergeFields (.cons n t fs) (.cons m u gs)).bind (mergeFields · (.cons k w hs)) =
      ((merge t u).bind (merge · w)).bind fun v =>
        ((mergeFields fs gs).bind (mergeFields · hs)).map (.cons "" v) := by
  cases ht : merge t u <;> cases hfs : mergeFields fs gs <;> simp [mergeFields, ht, hfs]

mutual

theorem merge_right_comm (hS : ∀ x, S x → ApartFrom S x) : ∀ {z x y}, Over (ApartFrom S) z → Over S x →
    Over S y → (merge z x).bind (merge · y) = (merge z y).bind (merge · x)
  | _, _, _, .integer hz, .integer hx, .integer hy => by
    simp only [merge, Option.bind_some, getPromotedInt_right_comm _ _ _ (hz _ hx) (hz _ hy) (hS _ hx _ hy)]
  | _, _, _, .tuple hfs, .tuple hgs, .tuple hhs => by
    have hfields := congrArg (Option.map SizedType.tuple) (mergeFields_right_comm hS hfs hgs hhs)
    simpa only [merge, Option.bind_map, Option.map_bind, Function.comp_def] using hfields
  | _, _, _, .integer _, .integer _, .tuple _ | _, _, _, .integer _, .tuple _, .integer _
  | _, _, _, .integer _, .tuple _, .tuple _ | _, _, _, .tuple _, .integer _, .integer _ => rfl
  | _, _, _, .tuple _, .tuple _, .integer _ | _, _, _, .tuple _, .integer _, .tuple _ => by
    simp [merge, Option.bind_map, Function.comp_def]

theorem mergeFields_right_comm (hS : ∀ x, S x → ApartFrom S x) : ∀ {fs gs hs}, OverFields (ApartFrom S) fs →
    OverFields S gs → OverFields S hs →
      (mergeFields fs gs).bind (mergeFields · hs) = (mergeFields fs hs).bind (mergeFields · gs)
  | _, _, _, .nil, .nil, .nil => rfl
  | _, _, _, .cons ht hfs, .cons hu hgs, .cons hw hhs => by
    rw [mergeFields_twice, mergeFields_twice, merge_right_comm hS ht hu hw, mergeFields_right_comm hS hfs hgs hhs]
  | _, _, _, .nil, .nil, .cons _ _ | _, _, _, .nil, .cons _ _, .nil | _, _, _, .nil, .cons _ _, .cons _ _
  | _, _, _, .cons _ _, .nil, .nil => rfl
  | _, _, _, .cons _ _, .cons _ _, .nil | _, _, _, .cons _ _, .nil, .cons _ _ => by
    simp [mergeFields, Option.bind_assoc, Option.bind_map, Function.comp_def]

end

/-! ## Sequences -/

mutual

theorem over_mono (hST : ∀ x, S x → T x) : ∀ {a}, Over S a → Over T a
  | _, .integer h => .integer (hST _ h)
  | _, .tuple h => .tuple (overFields_mono hST h)

theorem overFields_mono (hST : ∀ x, S x → T x) : ∀ {fs}, OverFields S fs → OverFields T fs
  | _, .nil => .nil
  | _, .cons ht hfs => .cons (over_mono hST ht) (overFields_mono hST hfs)

end

theorem getPromotedType_none {b : SizedType} (hb : Over S b) : getPromotedType .none b = some b := by
  cases hb <;> rfl

section

variable {z x : SizedType} (hS : ∀ x, S x → ApartFrom S x) (hz : z = .none ∨ Over (ApartFrom S) z) (hx : Over S x)
include hS hz hx

/-- From the type `none` or what has been promoted, two types in either order. -/
theorem getPromotedType_swap {y : SizedType} (hy : Over S y) :
    (getPromotedType z x).bind (getPromotedType · y) = (getPromotedType z y).bind (getPromotedType · x) := by
  obtain rfl | hz := hz
  · rw [getPromotedType_none hx, getPromotedType_none hy, Option.bind_some, Option.bind_some,
      getPromotedType_eq (over_mono hS hx) hy, getPromotedType_eq (over_mono hS hy) hx, merge_comm hx hy]
  · have hnext : ∀ {x y}, Over S x → Over S y →
        (getPromotedType z x).bind (getPromotedType · y) = (merge z x).bind (merge · y) := by
      intro x y hx hy
      rw [getPromotedType_eq hz hx]
      exact Option.bind_congr fun c hc => getPromotedType_eq (over_merge hS hz hx hc) hy
    rw [hnext hx hy, hnext hy hx, merge_right_comm hS hz hx hy]

theorem over_getPromotedType {c : SizedType} (h : getPromotedType z x = some c) : Over (ApartFrom S) c := by
  obtain rfl | hz := hz
  · rw [getPromotedType_none hx] at h
    cases h
    exact over_mono hS hx
  · rw [getPromotedType_eq hz hx] at h
    exact over_merge hS hz hx h

end

theorem foldlM_perm (hS : ∀ x, S x → ApartFrom S x) {l l' : List SizedType} (h : l.Perm l') :
    ∀ z, (z = .none ∨ Over (ApartFrom S) z) → (∀ x ∈ l, Over S x) →
      l.foldlM getPromotedType z = l'.foldlM getPromotedType z := by
  induction h with
  | nil => exact fun _ _ _ => rfl
  | cons x _ ih =>
    intro z hz hl
    rw [List.forall_mem_cons] at hl
    rw [List.foldlM_cons, List.foldlM_cons]
    exact Option.bind_congr fun c hc => ih c (.inr (over_getPromotedType hS hz hl.1 hc)) hl.2
  | swap x y l =>
    intro z hz hl
    rw [List.forall_mem_cons, List.forall_mem_cons] at hl
    simp only [List.foldlM_cons, Option.bind_eq_bind, ← Option.bind_assoc, getPromotedType_swap hS hz hl.1 hl.2.1]
  | trans h₁ _ ih₁ ih₂ =>
    intro z hz hl
    rw [ih₁ z hz hl, ih₂ z hz fun x hx => hl x (h₁.mem_iff.mpr hx)]

/-- A signed integer, then a literal that is not narrower, twice. -/
theorem promoteAll_literals {w v : Width} (h : ¬ w.bytes < v.bytes) :
    promoteAll [.integer ⟨v, .signed⟩, .integer ⟨w, .flexible⟩, .integer ⟨w, .flexible⟩] =
        some (.integer ⟨w, .flexible⟩) ∧
      promoteAll [.integer ⟨w, .flexible⟩, .integer ⟨w, .flexible⟩, .integer ⟨v, .signed⟩] =
        some (.integer ⟨w, .signed⟩) := by
  cases w <;> cases v <;> first | exact absurd (by decide) h | exact ⟨rfl, rfl⟩

/-- All lists of integer types from a set, and of tuples nested over them, are promoted to the same
type in every order in which they are promoted at all, exactly if every literal type of the set is
narrower than every signed type of it. -/
theorem promotion_order_irrelevant_iff (S : IntType → Prop) :
    (∀ l l' t t', (∀ x ∈ l, Over S x) → l.Perm l' → promoteAll l = some t → promoteAll l' = some t' → t = t') ↔
      ∀ x y, S x → S y → x.sign = .flexible → y.sign = .signed → x.width.bytes < y.width.bytes := by
  constructor
  · rintro h ⟨w, _⟩ ⟨v, _⟩ hx hy rfl rfl
    by_contra hlt
    obtain ⟨hfirst, hlast⟩ := promoteAll_literals hlt
    have hover :
      ∀ z ∈ [SizedType.integer ⟨v, .signed⟩, .integer ⟨w, .flexible⟩, .integer ⟨w, .flexible⟩], Over S z := by
      simp [Over.integer hx, Over.integer hy]
    have heq := h _ _ _ _ hover (.trans (.swap _ _ _) (.cons _ (.swap _ _ _))) hfirst hlast
    cases heq
  · intro h l l' t t' hl hperm ht ht'
    have hS : ∀ x, S x → ApartFrom S x := fun x hx y hy => ⟨h x y hx hy, h y x hy hx⟩
    rw [promoteAll, foldlM_perm hS hperm .none (.inl rfl) hl] at ht
    exact Option.some.inj (ht.symm.trans ht')

/-- `int8`, the literal 1 and `uint8`: the type is `uint8`, or `int16` if the literal is last. -/
theorem literal_after_signed :
    let int8 : SizedType := .integer ⟨.one, .signed⟩
    let literal : SizedType := .integer ⟨.one, .flexible⟩
    let uint8 : SizedType := .integer ⟨.one, .unsigned⟩
    [int8, literal, uint8].Perm [int8, uint8, literal] ∧
      promoteAll [int8, literal, uint8] = some uint8 ∧
        promoteAll [int8, uint8, literal] = some (.integer ⟨.two, .signed⟩) :=
  ⟨.cons _ (.swap _ _ _), rfl, rfl⟩

end TypePromotion
