import Ubpftrace.ShmLedger

/-!
# Schedules

Whole calls as lists of actions, so that a run can be put together from them
and executed, and the two outcomes of a reservation on a state that is not
known in full.
-/

namespace ShmBuffer

open EventRecord
open Runs (Reaches)

variable {ι : Type}

instance (s : State ι) (a : Action ι) : Decidable (Drained s a) := by
  unfold Drained
  split
  · split <;> infer_instance
  · infer_instance

instance (s : State ι) (a : Action ι) : Decidable (NoWrap s a) := by
  unfold NoWrap
  split
  · infer_instance
  · split <;> infer_instance
  · infer_instance

instance (s : State ι) (a : Action ι) : Decidable (Inside s a) := by
  unfold Inside
  split
  · infer_instance
  · split <;> infer_instance
  · infer_instance

instance (s : State ι) (a : Action ι) : Decidable (Regular s a) := by
  unfold Regular
  infer_instance

/-- A call up to its granted reservation: load, register, re-check, reserve. -/
def reserveSteps (t : ι) (ev : Event) : List (Action ι) := .call t ev :: List.replicate 4 (.writer t)

/-- The time stamp, the stores, the commit and the count of a reserved record. -/
def recordSteps (t : ι) (ev : Event) : List (Action ι) :=
  List.replicate (1 + headerSize + ev.payload.length + 2) (.writer t)

def logSteps (t : ι) (ev : Event) : List (Action ι) := reserveSteps t ev ++ recordSteps t ev

/-- `swap_and_flush` up to its drain loop. -/
def swapSteps (force : Bool) : List (Action ι) := .flush force :: List.replicate 3 .worker

/-- From a drain loop that finds nobody registered to the reset. -/
def handOverSteps : List (Action ι) := List.replicate (4 + maxLocalRanks + 2) .worker

def flushSteps (force : Bool) : List (Action ι) := swapSteps force ++ handOverSteps

/-- A forced flush that finds an empty buffer: the drain loop, the length, the reset. -/
def emptyFlushSteps : List (Action ι) := swapSteps true ++ List.replicate 3 .worker

/-- One thread of local rank zero. -/
def solo : Unit → Thread := fun _ => ⟨0, 0⟩

/-- An event with an empty payload. -/
def probe : Event := ⟨1, [], by decide⟩

def State.countDropped (s : State ι) (r : Nat) : State ι :=
  s.setStats r { s.shm.rankStats r with droppedEvents := add64 (s.shm.rankStats r).droppedEvents 1 }

variable [DecidableEq ι]

@[simp] theorem setWriter_setWriter (s : State ι) (t : ι) (w w' : Writer) :
    (s.setWriter t w).setWriter t w' = s.setWriter t w' := by
  simp [State.setWriter]

@[simp] theorem setWriter_writers (s : State ι) (t : ι) (w : Writer) : (s.setWriter t w).writers t = w := by
  simp [State.setWriter]

/-- After a granted reservation in the active buffer. -/
def State.reserved (s : State ι) (t : ι) (ev : Event) : State ι :=
  let offset := (s.buffer s.active).writeOffset
  (((s.enter s.active).advance s.active ev.recordLen).logGrant (s.extent s.active offset ev.recordLen)).setWriter t
    (.stamp ev s.active offset)

/-- After a refused reservation of `n` bytes in the active buffer. -/
def State.refused (cfg : ι → Thread) (s : State ι) (t : ι) (n : Nat) : State ι :=
  ((((s.enter s.active).advance s.active n).leave s.active).countDropped (cfg t).localRank).setWriter t .idle

variable {cfg : ι → Thread} {s s' : State ι}

theorem writer_single {t : ι} {w w' : Writer} (hok : NoWrap (s.setWriter t w) (.writer t))
    (h : writerStep cfg (s.setWriter t w) t = some ((s'.setWriter t w).setWriter t w')) :
    Reaches (step cfg) Regular (s.setWriter t w) (s'.setWriter t w') := by
  rw [setWriter_setWriter] at h
  exact Reaches.single (a := .writer t) ⟨trivial, hok⟩ h

variable (cfg)

/-- From a call to the reservation: load, register, and an undisturbed re-check. -/
theorem enter_reaches (t : ι) (ev : Event) (hidle : s.writers t = .idle) (hr : (cfg t).localRank < maxLocalRanks)
    (hfit : headerSize + ev.payload.length < 2 ^ 32) (hw : (s.buffer s.active).activeWriters + 1 < 2 ^ 32) :
    Reaches (step cfg) Regular s ((s.enter s.active).setWriter t (.reserve ev s.active)) := by
  have h₁ : Reaches (step cfg) Regular s (s.setWriter t (.load ev 0)) :=
    Reaches.single (a := .call t ev) ⟨trivial, hfit⟩ (by simp [step, hidle]; omega)
  have h₂ : Reaches (step cfg) Regular (s.setWriter t (.load ev 0))
      (s.setWriter t (.register ev 0 s.shm.activeEpochBuffer)) :=
    writer_single (by simp [NoWrap]) (by simp [writerStep]; rfl)
  have h₃ : Reaches (step cfg) Regular (s.setWriter t (.register ev 0 s.shm.activeEpochBuffer))
      ((s.enter s.active).setWriter t (.verify ev 0 s.shm.activeEpochBuffer)) :=
    writer_single (by simp only [NoWrap, setWriter_writers]; exact hw)
      (by simp only [writerStep, setWriter_writers]; rfl)
  have h₄ : Reaches (step cfg) Regular ((s.enter s.active).setWriter t (.verify ev 0 s.shm.activeEpochBuffer))
      ((s.enter s.active).setWriter t (.reserve ev s.active)) :=
    writer_single (by simp [NoWrap]) (by simp only [writerStep, setWriter_writers]; exact if_pos rfl)
  exact h₁.trans (h₂.trans (h₃.trans h₄))

theorem reserve_step (t : ι) (ev : Event)
    (hcap : add64 (s.buffer s.active).writeOffset ev.recordLen ≤ bufferCapacity) :
    step cfg ((s.enter s.active).setWriter t (.reserve ev s.active)) (.writer t) = some (s.reserved t ev) := by
  have hoff : (((s.enter s.active).setWriter t (.reserve ev s.active)).buffer s.active).writeOffset =
      (s.buffer s.active).writeOffset := enter_writeOffset s s.active s.active
  simp only [step, writerStep, setWriter_writers, hoff]
  rw [if_pos hcap]
  exact congrArg some (setWriter_setWriter (((s.enter s.active).advance s.active _).logGrant _) t _ _)

theorem refuse_reaches (t : ι) (ev : Event) (hidle : s.writers t = .idle) (hr : (cfg t).localRank < maxLocalRanks)
    (hfit : headerSize + ev.payload.length < 2 ^ 32) (hw : (s.buffer s.active).activeWriters + 1 < 2 ^ 32)
    (hwrap : (s.buffer s.active).writeOffset + ev.recordLen < 2 ^ 64)
    (hcap : bufferCapacity < (s.buffer s.active).writeOffset + ev.recordLen) :
    Reaches (step cfg) Regular s (s.refused cfg t ev.recordLen) := by
  have hoff : ((s.enter s.active).buffer s.active).writeOffset = (s.buffer s.active).writeOffset := by simp
  have h₁ := enter_reaches cfg t ev hidle hr hfit hw
  have h₂ : Reaches (step cfg) Regular ((s.enter s.active).setWriter t (.reserve ev s.active))
      (((s.enter s.active).advance s.active ev.recordLen).setWriter t (.abort s.active)) := by
    apply writer_single
    · simpa only [NoWrap, setWriter_writers] using hoff ▸ hwrap
    · simp only [writerStep, setWriter_writers]
      refine (if_neg ?_).trans rfl
      change ¬ add64 ((s.enter s.active).buffer s.active).writeOffset _ ≤ _
      rw [hoff, add64, Nat.mod_eq_of_lt hwrap]
      omega
  have h₃ : Reaches (step cfg) Regular
    (((s.enter s.active).advance s.active ev.recordLen).setWriter t (.abort s.active))
      ((((s.enter s.active).advance s.active ev.recordLen).leave s.active).setWriter t .drop) :=
    writer_single (by simp [NoWrap]) (by simp only [writerStep, setWriter_writers]; rfl)
  have h₄ : Reaches (step cfg) Regular
      ((((s.enter s.active).advance s.active ev.recordLen).leave s.active).setWriter t .drop)
        (s.refused cfg t ev.recordLen) :=
    writer_single (by simp [NoWrap]) (by simp only [writerStep, setWriter_writers]; rfl)
  exact h₁.trans (h₂.trans (h₃.trans h₄))

end ShmBuffer
