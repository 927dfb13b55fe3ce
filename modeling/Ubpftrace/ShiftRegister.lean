import Mathlib.Data.BitVec
import Mathlib.Data.List.GetD

/-!
# Linear feedback shift registers

A register of `w` bits that takes in one bit of a message after the other, at its
low end, and adds a feedback word when a one is shifted out. With a feedback word
whose highest bit is set no step loses anything, and `w` bits in a row are as good
as a word: two messages that differ only inside `w` consecutive bits leave the
register in different states.
-/

namespace ShiftRegister

open Function

variable {w : Nat}

def step (feedback x : BitVec w) : BitVec w := (x >>> 1) ^^^ (if x.getLsbD 0 then feedback else 0#w)

/-- The register after some steps without input. -/
def steps (feedback : BitVec w) (n : Nat) (x : BitVec w) : BitVec w := (step feedback)^[n] x

/-- The bit as the lowest one of a word. -/
def low (w : Nat) (b : Bool) : BitVec w := if b then BitVec.twoPow w 0 else 0#w

def feed (feedback x : BitVec w) (message : List Bool) : BitVec w :=
  message.foldl (fun x b => step feedback (x ^^^ low w b)) x

/-- The bits of a message as a word, the first one lowest. -/
def word (w : Nat) (message : List Bool) : BitVec w := (BitVec.ofBoolListLE message).setWidth w

section Steps

variable (feedback : BitVec w)

theorem step_xor (x y : BitVec w) : step feedback (x ^^^ y) = step feedback x ^^^ step feedback y := by
  unfold step
  apply BitVec.eq_of_getLsbD_eq
  simp only [BitVec.getLsbD_xor, BitVec.ushiftRight_xor_distrib]
  cases x.getLsbD 0 <;> cases y.getLsbD 0 <;> simp [Bool.xor_comm, Bool.xor_left_comm]

theorem steps_xor (n : Nat) (x y : BitVec w) :
    steps feedback n (x ^^^ y) = steps feedback n x ^^^ steps feedback n y := by
  induction n generalizing x y with
  | zero => rfl
  | succ n ih => simp only [steps, iterate_succ_apply, step_xor] at ih ⊢; exact ih _ _

@[simp] theorem steps_zero_right (n : Nat) : steps feedback n 0#w = 0#w := by
  have h := steps_xor feedback n 0#w 0#w
  rwa [BitVec.xor_self, BitVec.xor_self] at h

theorem step_twoPow {n : Nat} (hn : n + 1 < w) : step feedback (BitVec.twoPow w (n + 1)) = BitVec.twoPow w n := by
  have hlow : (BitVec.twoPow w (n + 1)).getLsbD 0 = false := by simp [BitVec.getLsbD_twoPow]
  rw [step, hlow, if_neg Bool.false_ne_true, BitVec.xor_zero]
  apply BitVec.eq_of_getLsbD_eq
  intro i hi
  by_cases h : n = i
  · simp [h, Nat.add_comm]
    omega
  · have h' : n + 1 ≠ 1 + i := by omega
    simp [h, h']

theorem steps_twoPow {n : Nat} (hn : n < w) : steps feedback n (BitVec.twoPow w n) = BitVec.twoPow w 0 := by
  induction n with
  | zero => rfl
  | succ n ih =>
    rw [steps, iterate_succ_apply, step_twoPow feedback hn]
    exact ih (by omega)

theorem steps_shifted_low {n : Nat} (hn : n < w) (b : Bool) :
    steps feedback n (if b then BitVec.twoPow w n else 0#w) = low w b := by
  cases b with
  | false => exact steps_zero_right feedback n
  | true => exact steps_twoPow feedback hn

theorem getLsbD_word (message : List Bool) {i : Nat} (hi : i < w) :
    (word w message).getLsbD i = message.getD i false := by
  simp [word, hi, BitVec.getLsbD_ofBoolListLE]

theorem word_concat (message : List Bool) (b : Bool) :
    word w (message ++ [b]) = word w message ^^^ (if b then BitVec.twoPow w message.length else 0#w) := by
  apply BitVec.eq_of_getLsbD_eq
  intro i hi
  rw [BitVec.getLsbD_xor, getLsbD_word _ hi, getLsbD_word _ hi]
  rcases Nat.lt_trichotomy i message.length with hlt | rfl | hgt
  · rw [List.getD_append _ _ _ _ hlt]
    cases b <;> simp [BitVec.getLsbD_twoPow, Nat.ne_of_gt hlt]
  · cases b <;> simp [hi]
  · rw [List.getD_append_right _ _ _ _ (Nat.le_of_lt hgt), List.getD_eq_default _ _ (Nat.le_of_lt hgt),
      List.getD_eq_default _ _ (by simp; omega)]
    cases b <;> simp [BitVec.getLsbD_twoPow, Nat.ne_of_lt hgt]

theorem word_injective {m m' : List Bool} (hlen : m.length = m'.length) (hw : m.length ≤ w)
    (h : word w m = word w m') : m = m' := by
  apply List.ext_getElem hlen
  intro i hi hi'
  have hbit := congrArg (BitVec.getLsbD · i) h
  simp only [getLsbD_word _ (Nat.lt_of_lt_of_le hi hw)] at hbit
  rwa [List.getD_eq_getElem _ _ hi, List.getD_eq_getElem _ _ hi'] at hbit

/-- As many bits as the register has may be added before the first step. -/
theorem feed_eq_steps (x : BitVec w) (message : List Bool) (h : message.length ≤ w) :
    feed feedback x message = steps feedback message.length (x ^^^ word w message) := by
  induction message using List.reverseRecOn with
  | nil =>
    have hnil : word w [] = 0#w := by
      apply BitVec.eq_of_getLsbD_eq
      intro i hi
      simp [getLsbD_word _ hi]
    rw [hnil, BitVec.xor_zero]
    rfl
  | append_singleton message b ih =>
    rw [List.length_append, List.length_singleton] at h ⊢
    rw [word_concat message b, ← BitVec.xor_assoc, steps, iterate_succ_apply', ← steps, steps_xor,
      steps_shifted_low feedback (by omega), ← ih (by omega)]
    simp [feed]

end Steps

section Injective

variable {feedback : BitVec w}

/-- A register that a step empties was empty: a feedback word would have left its highest bit. -/
theorem eq_zero_of_step (htop : feedback.getLsbD (w - 1) = true) {x : BitVec w} (h : step feedback x = 0#w) :
    x = 0#w := by
  have hbit (i : Nat) := congrArg (BitVec.getLsbD · i) h
  simp only [step, BitVec.getLsbD_xor, BitVec.getLsbD_ushiftRight, BitVec.getLsbD_zero] at hbit
  cases hlow : x.getLsbD 0 with
  | false =>
    apply BitVec.eq_of_getLsbD_eq
    intro i hi
    cases i with
    | zero => rw [hlow, BitVec.getLsbD_zero]
    | succ i => simpa [hlow, Nat.add_comm] using hbit i
  | true =>
    have htopbit := hbit (w - 1)
    rw [hlow, if_pos rfl, htop, BitVec.getLsbD_of_ge x (1 + (w - 1)) (by omega)] at htopbit
    cases htopbit

theorem step_injective (htop : feedback.getLsbD (w - 1) = true) : Injective (step feedback) := by
  intro x y h
  have hzero : step feedback (x ^^^ y) = 0#w := by rw [step_xor, h, BitVec.xor_self]
  exact BitVec.xor_eq_zero_iff.mp (eq_zero_of_step htop hzero)

theorem feed_append (x : BitVec w) (m m' : List Bool) :
    feed feedback x (m ++ m') = feed feedback (feed feedback x m) m' := List.foldl_append

/-- A message loses nothing of the register. -/
theorem feed_injective (htop : feedback.getLsbD (w - 1) = true) (m : List Bool) :
    Injective (feed feedback · m) := by
  induction m with
  | nil => exact fun x y h => h
  | cons b m ih =>
    intro x y h
    have hstep := step_injective htop (ih h)
    exact (BitVec.xor_left_inj _).mp hstep

/-- Two messages that differ only inside as many consecutive bits as the register has
leave it in different states. -/
theorem feed_ne_of_burst (htop : feedback.getLsbD (w - 1) = true) (x : BitVec w) {m m' : List Bool}
    (hlen : m.length = m'.length) (hne : m ≠ m') (s : Nat)
    (hburst : ∀ i < m.length, m[i]? ≠ m'[i]? → s ≤ i ∧ i < s + w) : feed feedback x m ≠ feed feedback x m' := by
  -- both messages have the same start and the same end around the burst
  have hsame (i : Nat) (hi : ¬ (s ≤ i ∧ i < s + w)) : m[i]? = m'[i]? := by
    by_cases hlt : i < m.length
    · exact not_not.mp fun hdiff => hi (hburst i hlt hdiff)
    · rw [List.getElem?_eq_none (by omega), List.getElem?_eq_none (by omega)]
  have hstart : m.take s = m'.take s := by
    apply List.ext_getElem?
    intro i
    by_cases hi : i < s
    · rw [List.getElem?_take_of_lt hi, List.getElem?_take_of_lt hi]
      exact hsame i (by omega)
    · rw [List.getElem?_take_eq_none (by omega), List.getElem?_take_eq_none (by omega)]
  have hend : (m.drop s).drop w = (m'.drop s).drop w := by
    apply List.ext_getElem?
    intro i
    rw [List.drop_drop, List.drop_drop, List.getElem?_drop, List.getElem?_drop]
    exact hsame _ (by omega)
  intro h
  rw [← List.take_append_drop s m, ← List.take_append_drop w (m.drop s), ← List.take_append_drop s m',
    ← List.take_append_drop w (m'.drop s), ← hstart, ← hend] at h
  simp only [feed_append] at h
  have hmiddle := feed_injective htop _ h
  have hlens : ((m.drop s).take w).length = ((m'.drop s).take w).length := by simp [hlen]
  rw [feed_eq_steps _ _ _ (List.length_take_le _ _), feed_eq_steps _ _ _ (List.length_take_le _ _), ← hlens] at hmiddle
  have hwords := (BitVec.xor_right_inj _).mp ((step_injective htop).iterate _ hmiddle)
  have hburst := word_injective hlens (List.length_take_le _ _) hwords
  apply hne
  rw [← List.take_append_drop s m, ← List.take_append_drop w (m.drop s), ← List.take_append_drop s m',
    ← List.take_append_drop w (m'.drop s), hstart, hend, hburst]

end Injective

end ShiftRegister
