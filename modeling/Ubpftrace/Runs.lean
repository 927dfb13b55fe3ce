import Mathlib.Algebra.BigOperators.Group.Finset.Piecewise
import Mathlib.Data.Fintype.Basic

/-!
# Runs of a labelled transition function

A system is a partial step function: an action that is not enabled has no
successor. `Reaches` collects the runs whose every step meets a side condition
on the state before the step and the action taken, so that a property of all
runs and a property of the runs under an assumption have one form.
-/

namespace Runs

open Function

variable {σ α : Type}

inductive Reaches (step : σ → α → Option σ) (ok : σ → α → Prop) (s : σ) : σ → Prop where
  | refl : Reaches step ok s s
  | tail {t u : σ} {a : α} : Reaches step ok s t → ok t a → step t a = some u → Reaches step ok s u

/-- The state after a schedule, if every action is enabled and admitted. -/
def run (step : σ → α → Option σ) (ok : σ → α → Prop) [∀ s a, Decidable (ok s a)] (s : σ) : List α → Option σ
  | [] => some s
  | a :: as => if ok s a then (step s a).bind fun t => run step ok t as else none

variable {step : σ → α → Option σ} {ok ok' : σ → α → Prop} {s t u : σ}

theorem Reaches.trans (h : Reaches step ok s t) (h' : Reaches step ok t u) : Reaches step ok s u := by
  induction h' with
  | refl => exact h
  | tail _ hok hstep ih => exact ih.tail hok hstep

theorem Reaches.single {a : α} (hok : ok s a) (h : step s a = some t) : Reaches step ok s t :=
  Reaches.refl.tail hok h

theorem Reaches.mono (hm : ∀ s a, ok s a → ok' s a) (h : Reaches step ok s t) : Reaches step ok' s t := by
  induction h with
  | refl => exact .refl
  | tail _ hok hstep ih => exact ih.tail (hm _ _ hok) hstep

theorem Reaches.invariant (I : σ → Prop) (hs : I s)
    (hstep : ∀ t a u, I t → ok t a → step t a = some u → I u)
    (h : Reaches step ok s t) : I t := by
  induction h with
  | refl => exact hs
  | tail _ hok hst ih => exact hstep _ _ _ ih hok hst

theorem reaches_of_run [∀ s a, Decidable (ok s a)] (as : List α) (h : run step ok s as = some t) :
    Reaches step ok s t := by
  induction as generalizing s with
  | nil =>
    cases h
    exact .refl
  | cons a as ih =>
    rw [run] at h
    split at h
    · next hok =>
      obtain ⟨u, hu, hrest⟩ := Option.bind_eq_some_iff.mp h
      exact (Reaches.single hok hu).trans (ih hrest)
    · cases h

theorem run_concat [∀ s a, Decidable (ok s a)] (as : List α) (a : α) :
    run step ok s (as ++ [a]) = (run step ok s as).bind fun t => if ok t a then step t a else none := by
  induction as generalizing s with
  | nil =>
    rw [List.nil_append, run, run, Option.bind_some]
    split
    · cases step s a <;> rfl
    · rfl
  | cons b as ih =>
    rw [List.cons_append, run, run]
    split
    · cases step s b with
      | none => rfl
      | some t => exact ih
    · rfl

/-- The invariant rule for properties that speak of the schedule as well. -/
theorem run_invariant [∀ s a, Decidable (ok s a)] (I : List α → σ → Prop) (hs : I [] s)
    (hstep : ∀ as t a u, I as t → ok t a → step t a = some u → I (as ++ [a]) u) {as : List α}
    (h : run step ok s as = some t) : I as t := by
  induction as using List.reverseRecOn generalizing t with
  | nil => exact Option.some.inj h ▸ hs
  | append_singleton as a ih =>
    rw [run_concat] at h
    obtain ⟨u, hu, hlast⟩ := Option.bind_eq_some_iff.mp h
    rw [Option.ite_none_right_eq_some] at hlast
    exact hstep as u a t (ih hu) hlast.1 hlast.2

/-- A total over all threads changes by the change at the thread that moves. -/
theorem sum_update {ι β : Type} [Fintype ι] [DecidableEq ι] (F : ι → β → Nat) (w : ι → β) (t : ι) (x : β) :
    ∑ u, F u (update w t x u) + F t (w t) = ∑ u, F u (w u) + F t x := by
  simp only [apply_update F w t x, Finset.sum_update_of_mem (Finset.mem_univ t)]
  rw [← Finset.sum_sdiff (Finset.subset_univ {t}), Finset.sum_singleton]
  omega

section Outputs

variable {τ ι ρ : Type} {P : σ → ι → Prop}

/-- The actions of a run of a machine with outputs, each with what it returned. -/
def trace (step : σ → ι → ρ × σ) (s : σ) : List ι → List (ι × ρ)
  | [] => []
  | a :: as => (a, (step s a).1) :: trace step (step s a).2 as

def after (step : σ → ι → ρ × σ) (s : σ) (as : List ι) : σ := as.foldl (fun s a => (step s a).2) s

theorem after_append (step : σ → ι → ρ × σ) (s : σ) (as bs : List ι) :
    after step s (as ++ bs) = after step (after step s as) bs := by
  simp [after]

theorem trace_append (step : σ → ι → ρ × σ) (s : σ) (as bs : List ι) :
    trace step s (as ++ bs) = trace step s as ++ trace step (after step s as) bs := by
  induction as generalizing s with
  | nil => rfl
  | cons a as ih => rw [List.cons_append, trace, trace, ih, List.cons_append]; rfl

/-- The last action of a history with a property of the action and its answer. -/
def lastAction (p : ι × ρ → Bool) (history : List (ι × ρ)) : Option ι := (history.reverse.find? p).map Prod.fst

theorem lastAction_concat (p : ι × ρ → Bool) (history : List (ι × ρ)) (a : ι) (r : ρ) :
    lastAction p (history ++ [(a, r)]) = if p (a, r) then some a else lastAction p history := by
  unfold lastAction
  split <;> simp_all

/-- A property of a state and of the action that is taken in it, all along a run. -/
def Always (step : σ → ι → ρ × σ) (P : σ → ι → Prop) (s : σ) : List ι → Prop
  | [] => True
  | a :: as => P s a ∧ Always step P (step s a).2 as

theorem Always.imp {step : σ → ι → ρ × σ} {Q : σ → ι → Prop} (I : σ → Prop)
    (hstep : ∀ s a, I s → P s a → Q s a ∧ I (step s a).2) {s : σ} (hs : I s) {as : List ι} (h : Always step P s as) :
    Always step Q s as := by
  induction as generalizing s with
  | nil => trivial
  | cons a as ih =>
    obtain ⟨hQ, hI⟩ := hstep s a hs h.1
    exact ⟨hQ, ih hI h.2⟩

theorem always_of_forall {step : σ → ι → ρ × σ} (h : ∀ s a, P s a) (s : σ) (as : List ι) : Always step P s as := by
  induction as generalizing s with
  | nil => trivial
  | cons a as ih => exact ⟨h s a, ih _⟩

theorem always_append {step : σ → ι → ρ × σ} {s : σ} {as bs : List ι} :
    Always step P s (as ++ bs) ↔ Always step P s as ∧ Always step P (after step s as) bs := by
  induction as generalizing s with
  | nil => simp [Always, after]
  | cons a as ih =>
    rw [List.cons_append, Always, Always, ih, and_assoc]
    rfl

/-- Machines whose steps answer alike from related states, and lead to related
states, cannot be told apart by any sequence of actions. -/
theorem simulation {step : σ → ι → ρ × σ} {step' : τ → ι → ρ × τ} (R : σ → τ → Prop)
    (hstep : ∀ s t a, R s t → (step s a).1 = (step' t a).1 ∧ R (step s a).2 (step' t a).2)
    {s : σ} {t : τ} (h : R s t) (as : List ι) :
    trace step s as = trace step' t as ∧ R (after step s as) (after step' t as) := by
  induction as generalizing s t with
  | nil => exact ⟨rfl, h⟩
  | cons a as ih =>
    obtain ⟨hout, hnext⟩ := hstep s t a h
    obtain ⟨htrace, hafter⟩ := ih hnext
    exact ⟨by rw [trace, trace, hout, htrace], hafter⟩

end Outputs

end Runs
