import Mathlib.Logic.Basic

/-!
# Structured control flow

Code that runs on a state ends with a value, a jump out of it or without fuel. Loops take a
number of turns at most, so that runs which do not end show in every approximation.

Two codes are compared by a relation on the states they go through, `A`, and one on what
the returns of the first become in the second, `E`: returns again, or breaks.
-/

namespace StructuredFlow

inductive Flow (ρ α : Type*) where
  | value (a : α)
  | brk
  | cont
  | ret (x : ρ)
  | outOfFuel
  deriving DecidableEq

variable {ρ α β κ S : Type*}

/-- Run on with the value, if there is one. -/
def andThen (r : Flow ρ α × S) (k : α → S → Flow ρ β × S) : Flow ρ β × S :=
  match r with
  | (.value a, s) => k a s
  | (.brk, s) => (.brk, s)
  | (.cont, s) => (.cont, s)
  | (.ret x, s) => (.ret x, s)
  | (.outOfFuel, s) => (.outOfFuel, s)

def mapRet (f : ρ → ρ) (r : Flow ρ α × S) : Flow ρ α × S :=
  match r with
  | (.ret x, s) => (.ret (f x), s)
  | r => r

/-- A loop of at most the given number of turns. A turn runs from a cursor and names the
next one; a `brk` leaves the loop, after a value or `cont` it goes on. -/
def iterate (turn : κ → S → (Flow ρ α × S) × κ) : Nat → κ → S → Flow ρ Unit × S
  | 0, _, s => (.outOfFuel, s)
  | n + 1, c, s =>
    match turn c s with
    | ((.value _, s), c) => iterate turn n c s
    | ((.cont, s), c) => iterate turn n c s
    | ((.brk, s), _) => (.value (), s)
    | ((.ret x, s), _) => (.ret x, s)
    | ((.outOfFuel, s), _) => (.outOfFuel, s)

/-- A code run a fixed number of times. -/
def repeated (code : S → Flow ρ α × S) : Nat → S → Flow ρ Unit × S
  | 0, s => (.value (), s)
  | n + 1, s => andThen (code s) fun _ s => repeated code n s

/-! ## Simulation -/

/-- The second run ends as the first one, in a related state. A return may have become
another return (`some`) or a break (`none`). -/
inductive Sim (A : S → S → Prop) (E : ρ → S → Option ρ → S → Prop) : Flow ρ α × S → Flow ρ α × S → Prop
  | value {a : α} {s s' : S} (h : A s s') : Sim A E (.value a, s) (.value a, s')
  | brk {s s' : S} (h : A s s') : Sim A E (.brk, s) (.brk, s')
  | cont {s s' : S} (h : A s s') : Sim A E (.cont, s) (.cont, s')
  | outOfFuel {s s' : S} (h : A s s') : Sim A E (.outOfFuel, s) (.outOfFuel, s')
  | retRet {x y : ρ} {s s' : S} (h : E x s (some y) s') : Sim A E (.ret x, s) (.ret y, s')
  | retBrk {x : ρ} {s s' : S} (h : E x s none s') : Sim A E (.ret x, s) (.brk, s')

/-- The same for a loop in which returns have become breaks: the second loop ends normally. -/
inductive Left (A : S → S → Prop) (E : ρ → S → Option ρ → S → Prop) : Flow ρ Unit × S → Flow ρ Unit × S → Prop
  | value {s s' : S} (h : A s s') : Left A E (.value (), s) (.value (), s')
  | outOfFuel {s s' : S} (h : A s s') : Left A E (.outOfFuel, s) (.outOfFuel, s')
  | returned {x : ρ} {s s' : S} (h : E x s none s') : Left A E (.ret x, s) (.value (), s')

section Rules

variable {A : S → S → Prop} {E E' : ρ → S → Option ρ → S → Prop}

theorem Sim.mono {r r' : Flow ρ α × S} (h : Sim A E r r') (hE : ∀ x s o s', E x s o s' → E' x s o s') :
    Sim A E' r r' := by
  cases h with
  | value h => exact .value h
  | brk h => exact .brk h
  | cont h => exact .cont h
  | outOfFuel h => exact .outOfFuel h
  | retRet h => exact .retRet (hE _ _ _ _ h)
  | retBrk h => exact .retBrk (hE _ _ _ _ h)

theorem Sim.andThen {r r' : Flow ρ α × S} {k k' : α → S → Flow ρ β × S} (h : Sim A E r r')
    (hk : ∀ a s s', A s s' → Sim A E (k a s) (k' a s')) : Sim A E (andThen r k) (StructuredFlow.andThen r' k') := by
  cases h with
  | value h => exact hk _ _ _ h
  | brk h => exact .brk h
  | cont h => exact .cont h
  | outOfFuel h => exact .outOfFuel h
  | retRet h => exact .retRet h
  | retBrk h => exact .retBrk h

theorem Sim.repeated {code code' : S → Flow ρ α × S} (h : ∀ s s', A s s' → Sim A E (code s) (code' s'))
    (n : Nat) {s s' : S}
    (hs : A s s') : Sim A E (repeated code n s) (StructuredFlow.repeated code' n s') := by
  induction n generalizing s s' with
  | zero => exact .value hs
  | succ n ih => exact (h s s' hs).andThen fun _ _ _ hs => ih hs

/-- The turns of the two loops name the same cursors, and returns become breaks. -/
theorem Left.iterate {turn turn' : κ → S → (Flow ρ α × S) × κ} (hE : ∀ x s o s', E x s o s' → o = none)
    (h : ∀ c s s', A s s' → Sim A E (turn c s).1 (turn' c s').1 ∧ (turn c s).2 = (turn' c s').2) (n : Nat)
    {c : κ} {s s' : S}
    (hs : A s s') : Left A E (iterate turn n c s) (StructuredFlow.iterate turn' n c s') := by
  induction n generalizing c s s' with
  | zero => exact .outOfFuel hs
  | succ n ih =>
    obtain ⟨hsim, hcursor⟩ := h c s s' hs
    rw [StructuredFlow.iterate, StructuredFlow.iterate]
    rcases hturn : turn c s with ⟨r, d⟩
    rcases hturn' : turn' c s' with ⟨r', d'⟩
    rw [hturn, hturn'] at hsim hcursor
    obtain rfl : d = d' := hcursor
    cases hsim with
    | value h => exact ih h
    | brk h => exact .value h
    | cont h => exact ih h
    | outOfFuel h => exact .outOfFuel h
    | retRet h => cases hE _ _ _ _ h
    | retBrk h => exact .returned h

end Rules

/-! ## Code that ends without a value -/

/-- The run ends with a jump or without fuel. -/
def Leaves (r : Flow ρ α × S) : Prop := ∀ a s, r ≠ (.value a, s)

section Leaving

variable {r : Flow ρ α × S}

/-- What stands behind such code does not matter. -/
theorem Leaves.andThen_eq (h : Leaves r) (k k' : α → S → Flow ρ β × S) : andThen r k = andThen r k' := by
  obtain ⟨f, s⟩ := r
  cases f with
  | value a => exact absurd rfl (h a s)
  | _ => rfl

theorem Leaves.andThen (h : Leaves r) (k : α → S → Flow ρ β × S) : Leaves (andThen r k) := by
  obtain ⟨f, s⟩ := r
  cases f with
  | value a => exact absurd rfl (h a s)
  | _ => exact fun _ _ hval => by cases hval

theorem leaves_andThen (r : Flow ρ α × S) {k : α → S → Flow ρ β × S} (hk : ∀ a s, Leaves (k a s)) :
    Leaves (andThen r k) := by
  obtain ⟨f, s⟩ := r
  cases f with
  | value a => exact hk a s
  | _ => exact fun _ _ hval => by cases hval

theorem leaves_repeated {code : S → Flow ρ α × S} (h : ∀ s, Leaves (code s)) {n : Nat} (hn : 0 < n) (s : S) :
    Leaves (repeated code n s) := by
  cases n with
  | zero => omega
  | succ n => exact (h s).andThen _

theorem andThen_assoc {γ : Type*} (r : Flow ρ α × S) (k : α → S → Flow ρ β × S) (l : β → S → Flow ρ γ × S) :
    andThen (andThen r k) l = andThen r fun a s => andThen (k a s) l := by
  obtain ⟨f, s⟩ := r
  cases f <;> rfl

end Leaving

theorem iterate_succ (turn : κ → S → (Flow ρ α × S) × κ) (n : Nat) (c : κ) (s : S) :
    iterate turn (n + 1) c s =
      match (andThen (turn c s).1 fun _ s => ((.cont, s) : Flow ρ Unit × S)) with
      | (.value _, t) | (.cont, t) => iterate turn n (turn c s).2 t
      | (.brk, t) => (.value (), t)
      | (.ret x, t) => (.ret x, t)
      | (.outOfFuel, t) => (.outOfFuel, t) := by
  rw [iterate]
  rcases turn c s with ⟨⟨f, t⟩, d⟩
  cases f <;> rfl

theorem iterate_congr {turn turn' : κ → S → (Flow ρ α × S) × κ} (hcursor : ∀ c s, (turn c s).2 = (turn' c s).2)
    (h : ∀ c s, (andThen (turn c s).1 fun _ s => ((.cont, s) : Flow ρ Unit × S)) = andThen (turn' c s).1 fun _ s =>
      (.cont, s))
    (n : Nat) (c : κ) (s : S) : iterate turn n c s = iterate turn' n c s := by
  induction n generalizing c s with
  | zero => rfl
  | succ n ih =>
    rw [iterate_succ, iterate_succ, h, hcursor]
    simp only [ih]

end StructuredFlow
