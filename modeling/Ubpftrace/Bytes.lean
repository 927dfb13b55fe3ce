import Mathlib.Data.List.Basic
import Mathlib.Tactic.Ring

/-!
# Little-endian words in a byte memory

A memory is a total function from addresses to bytes; `Holds mem a bs` says
that the bytes `bs` stand at address `a`. Words are read least significant
byte first, as the x86-64 and AArch64 targets store them.
-/

namespace Bytes

/-- The `w` low bytes of `n`, least significant first. -/
def le : Nat → Nat → List UInt8
  | 0, _ => []
  | w + 1, n => UInt8.ofNat (n % 256) :: le w (n / 256)

def readLe (mem : Nat → UInt8) (a : Nat) : Nat → Nat
  | 0 => 0
  | w + 1 => (mem a).toNat + 256 * readLe mem (a + 1) w

def Holds (mem : Nat → UInt8) (a : Nat) (bs : List UInt8) : Prop :=
  ∀ i (h : i < bs.length), mem (a + i) = bs[i]

/-- A byte list seen as a memory that starts at address zero. -/
def ofList (bs : List UInt8) : Nat → UInt8 := fun i => bs.getD i 0

/-- The `n` bytes that stand at address `a`. -/
def slice (mem : Nat → UInt8) (a n : Nat) : List UInt8 := (List.range n).map fun i => mem (a + i)

@[simp] theorem length_le (w n : Nat) : (le w n).length = w := by
  induction w generalizing n with
  | zero => rfl
  | succ w ih => simp [le, ih]

variable (mem : Nat → UInt8) (a : Nat)

@[simp] theorem length_slice (n : Nat) : (slice mem a n).length = n := by
  simp [slice]

@[simp] theorem holds_nil : Holds mem a [] := by
  intro i h
  simp at h

theorem holds_cons (b : UInt8) (bs : List UInt8) : Holds mem a (b :: bs) ↔ mem a = b ∧ Holds mem (a + 1) bs := by
  constructor
  · intro h
    have h0 := h 0 (by simp)
    refine ⟨h0, ?_⟩
    intro i hi
    have := h (i + 1) (by simpa using hi)
    simpa [Nat.add_assoc, Nat.add_comm 1] using this
  · rintro ⟨hb, hbs⟩ i hi
    cases i with
    | zero => simpa using hb
    | succ i =>
      have := hbs i (by simpa using hi)
      simpa [Nat.add_assoc, Nat.add_comm 1] using this

theorem holds_append (bs cs : List UInt8) : Holds mem a (bs ++ cs) ↔ Holds mem a bs ∧ Holds mem (a + bs.length) cs := by
  induction bs generalizing a with
  | nil => simp
  | cons b bs ih =>
    simp only [List.cons_append, holds_cons, ih, List.length_cons, and_assoc]
    have he : a + 1 + bs.length = a + (bs.length + 1) := by omega
    rw [he]

theorem readLe_of_holds (w n : Nat) (h : Holds mem a (le w n)) : readLe mem a w = n % 256 ^ w := by
  induction w generalizing a n with
  | zero => simp [readLe, Nat.mod_one]
  | succ w ih =>
    obtain ⟨hb, hrest⟩ := (holds_cons _ _ _ _).mp h
    rw [readLe, hb, ih _ _ hrest, Nat.pow_succ', Nat.mod_mul]
    simp

theorem readLe_lt (w : Nat) : readLe mem a w < 256 ^ w := by
  induction w generalizing a with
  | zero => exact Nat.one_pos
  | succ w ih =>
    have hbyte : (mem a).toNat < 256 := (mem a).toNat_lt
    have hrest := ih (a + 1)
    rw [readLe, Nat.pow_succ']
    omega

theorem readLe_congr {mem mem' : Nat → UInt8} {a b : Nat} (w : Nat) (h : ∀ i < w, mem (a + i) = mem' (b + i)) :
    readLe mem a w = readLe mem' b w := by
  induction w generalizing a b with
  | zero => rfl
  | succ w ih =>
    have h0 := h 0 (Nat.succ_pos w)
    rw [Nat.add_zero, Nat.add_zero] at h0
    have hrest : readLe mem (a + 1) w = readLe mem' (b + 1) w := by
      apply ih
      intro i hi
      have := h (i + 1) (Nat.succ_lt_succ hi)
      rwa [Nat.add_assoc, Nat.add_assoc, Nat.add_comm 1 i]
    rw [readLe, readLe, h0, hrest]

theorem le_readLe (bs : List UInt8) (h : Holds mem a bs) : le bs.length (readLe mem a bs.length) = bs := by
  induction bs generalizing a with
  | nil => rfl
  | cons b bs ih =>
    obtain ⟨hb, hrest⟩ := (holds_cons _ _ _ _).mp h
    have hbyte : b.toNat < 256 := b.toNat_lt
    have hlow : (b.toNat + 256 * readLe mem (a + 1) bs.length) % 256 = b.toNat := by omega
    have hhigh : (b.toNat + 256 * readLe mem (a + 1) bs.length) / 256 = readLe mem (a + 1) bs.length := by omega
    rw [List.length_cons, readLe, hb, le, hlow, hhigh, ih (a + 1) hrest, UInt8.ofNat_toNat]

theorem readU16_of_holds (x : UInt16) (h : Holds mem a (le 2 x.toNat)) : UInt16.ofNat (readLe mem a 2) = x := by
  rw [readLe_of_holds _ _ _ _ h, show 256 ^ 2 = 2 ^ 16 by decide, Nat.mod_eq_of_lt x.toNat_lt, UInt16.ofNat_toNat]

theorem readU32_of_holds (x : UInt32) (h : Holds mem a (le 4 x.toNat)) : UInt32.ofNat (readLe mem a 4) = x := by
  rw [readLe_of_holds _ _ _ _ h, show 256 ^ 4 = 2 ^ 32 by decide, Nat.mod_eq_of_lt x.toNat_lt, UInt32.ofNat_toNat]

theorem readU64_of_holds (x : UInt64) (h : Holds mem a (le 8 x.toNat)) : UInt64.ofNat (readLe mem a 8) = x := by
  rw [readLe_of_holds _ _ _ _ h, show 256 ^ 8 = 2 ^ 64 by decide, Nat.mod_eq_of_lt x.toNat_lt, UInt64.ofNat_toNat]

theorem holds_congr (mem mem' : Nat → UInt8) (a : Nat) (bs : List UInt8)
    (h : ∀ i < bs.length, mem (a + i) = mem' (a + i)) (hm : Holds mem a bs) : Holds mem' a bs := by
  intro i hi
  rw [← h i hi]
  exact hm i hi

theorem slice_of_holds (bs : List UInt8) (h : Holds mem a bs) : slice mem a bs.length = bs := by
  apply List.ext_getElem
  · simp
  · intro i hi hi'
    simpa [slice] using h i hi'

theorem holds_slice (n : Nat) : Holds mem a (slice mem a n) := by
  intro i hi
  simp [slice]

theorem holds_ofList (pre bs post : List UInt8) : Holds (ofList (pre ++ bs ++ post)) pre.length bs := by
  intro i hi
  have hlt : ¬ pre.length + i < pre.length := by omega
  simp [ofList, List.getD_eq_getElem?_getD, List.getElem?_append, hi, hlt]

theorem holds_ofList_slice (n a : Nat) (bs : List UInt8) (h : Holds mem a bs)
    (hn : a + bs.length ≤ n) : Holds (ofList (slice mem 0 n)) a bs := by
  intro i hi
  rw [← h i hi]
  have hlt : a + i < n := by omega
  simp [ofList, slice, List.getD_eq_getElem?_getD, hlt]

/-- The memory after the bytes `bs` were stored at address `a`. -/
def write (mem : Nat → UInt8) (a : Nat) (bs : List UInt8) : Nat → UInt8 :=
  fun i => if a ≤ i then bs.getD (i - a) (mem i) else mem i

theorem write_of_ne (bs : List UInt8) (x : Nat) (h : ∀ i < bs.length, x ≠ a + i) : write mem a bs x = mem x := by
  rw [write]
  split
  · next hle =>
    have hlen : bs.length ≤ x - a := by
      by_contra hlt
      exact h (x - a) (by omega) (by omega)
    rw [List.getD_eq_getElem?_getD, List.getElem?_eq_none hlen, Option.getD_none]
  · rfl

theorem holds_write_self (bs : List UInt8) : Holds (write mem a bs) a bs := by
  intro i hi
  simp [write, hi]

theorem holds_write_set (i : Nat) (bs : List UInt8) (b : UInt8) (h : Holds mem a bs) :
    Holds (write mem (a + i) [b]) a (bs.set i b) := by
  intro j hj
  rw [List.length_set] at hj
  rw [List.getElem_set]
  split
  · next hij => simp [write, hij]
  · next hij =>
    rw [write_of_ne _ _ _ _ (by simpa using fun he => hij he.symm)]
    exact h j hj

theorem holds_write_of_disjoint (b : Nat) (bs cs : List UInt8) (h : Holds mem b cs)
    (hdisj : ∀ i < cs.length, ∀ j < bs.length, b + i ≠ a + j) : Holds (write mem a bs) b cs :=
  holds_congr mem _ b cs (fun i hi => (write_of_ne mem a bs _ (hdisj i hi)).symm) h

theorem length_flatMap_rows {α : Type} (row : α → List UInt8) (w : Nat) (hw : ∀ x, (row x).length = w) (xs : List α) :
    (xs.flatMap row).length = w * xs.length := by
  induction xs with
  | nil => rfl
  | cons x xs ih =>
    rw [List.flatMap_cons, List.length_append, hw, ih, List.length_cons, Nat.mul_succ, Nat.add_comm]

theorem holds_flatMap {α : Type} (w : Nat) (row : α → List UInt8) (hw : ∀ x, (row x).length = w) (xs : List α)
    (h : Holds mem a (xs.flatMap row)) (i : Nat) (hi : i < xs.length) : Holds mem (a + w * i) (row xs[i]) := by
  induction xs generalizing a i with
  | nil => simp at hi
  | cons x xs ih =>
    rw [List.flatMap_cons, holds_append, hw] at h
    cases i with
    | zero => simpa using h.1
    | succ i =>
      have := ih (a + w) h.2 i (by simpa using hi)
      simpa [Nat.mul_add, Nat.add_assoc, Nat.add_comm w] using this

/-! ## Ranges one behind the other -/

section Tiles

variable {α : Type} {start len : α → Nat} {p q : Nat} {xs : List α} {x : α}

/-- The ranges fill the bytes from `p` to `q` without gap or overlap. -/
def Tiles (start len : α → Nat) : Nat → List α → Nat → Prop
  | p, [], q => p = q
  | p, x :: xs, q => start x = p ∧ Tiles start len (p + len x) xs q

theorem tiles_append {ys : List α} :
    Tiles start len p (xs ++ ys) q ↔ ∃ m, Tiles start len p xs m ∧ Tiles start len m ys q := by
  induction xs generalizing p with
  | nil => simp [Tiles]
  | cons x xs ih => simp [Tiles, ih, and_assoc]

theorem tiles_snoc : Tiles start len p (xs ++ [x]) q ↔ Tiles start len p xs (start x) ∧ q = start x + len x := by
  simp [tiles_append, Tiles, eq_comm]

variable (h : Tiles start len p xs q)
include h

theorem Tiles.le : p ≤ q := by
  induction xs generalizing p with
  | nil => exact Nat.le_of_eq h
  | cons x xs ih => exact Nat.le_of_add_right_le (ih h.2)

theorem Tiles.within (hx : x ∈ xs) : p ≤ start x ∧ start x + len x ≤ q := by
  induction xs generalizing p with
  | nil => cases hx
  | cons y xs ih =>
    obtain ⟨rfl, h⟩ := h
    rcases List.mem_cons.mp hx with rfl | hx
    · exact ⟨Nat.le_refl _, h.le⟩
    · exact ⟨Nat.le_of_add_right_le (ih h hx).1, (ih h hx).2⟩

theorem Tiles.pairwise : xs.Pairwise fun x y => start x + len x ≤ start y := by
  induction xs generalizing p with
  | nil => exact .nil
  | cons x xs ih =>
    obtain ⟨rfl, h⟩ := h
    exact .cons (fun y hy => (h.within hy).1) (ih h)

theorem Tiles.sum : q = p + (xs.map len).sum := by
  induction xs generalizing p with
  | nil => exact h.symm
  | cons x xs ih => rw [ih h.2, List.map_cons, List.sum_cons, Nat.add_assoc]

theorem Tiles.length {m : Nat} (hm : ∀ x ∈ xs, m ≤ len x) : p + m * xs.length ≤ q := by
  induction xs generalizing p with
  | nil => exact Nat.le_of_eq h
  | cons x xs ih =>
    have hrest := ih h.2 fun y hy => hm y (List.mem_cons_of_mem _ hy)
    have hx := hm x List.mem_cons_self
    rw [List.length_cons, Nat.mul_succ]
    omega

theorem Tiles.end_le {n : Nat} (hp : p ≤ n) (hn : ∀ x ∈ xs, start x + len x ≤ n) : q ≤ n := by
  induction xs generalizing p with
  | nil => exact h ▸ hp
  | cons x xs ih => exact ih h.2 (h.1 ▸ hn x List.mem_cons_self) fun y hy => hn y (List.mem_cons_of_mem _ hy)

end Tiles

end Bytes
