import Ubpftrace.RecordCounts

/-!
# What becomes of a reserve attempt

Every attempt of a rank ends as recorded or as dropped and is in flight until
then, and `active_writers` follows the registrations, in every interleaving
in which the writers stay inside their buffers, also when a drain loop gives up. The counters have 64 and 32 bits: the
equations hold modulo their widths, and exactly as long as neither can wrap.
-/

namespace ShmBuffer

open Function
open Runs (run run_invariant)

variable {ι : Type}

/-- The calls of `ubpf_probe_reserve_record` made for rank `r` in a schedule. -/
def attempts (cfg : ι → Thread) (r : Nat) (as : List (Action ι)) : Nat :=
  as.countP fun
    | .call t _ => (cfg t).localRank = r
    | _ => false

/-- The threads of rank `r` whose attempt is not yet counted. -/
def inFlight [Fintype ι] (cfg : ι → Thread) (writers : ι → Writer) (r : Nat) : Nat :=
  ∑ t, if writers t ≠ .idle ∧ (cfg t).localRank = r then 1 else 0

/-- The words that a writer's registration and its commit go by name one of the
two buffers, whether or not a drain loop has been abandoned. -/
structure Indexed (cfg : ι → Thread) (s : State ι) : Prop where
  active : s.active < 2
  loaded : ∀ w, s.worker.loaded = some w → w = s.shm.activeEpochBuffer
  entered : ∀ t b, (s.writers t).entered = some b → b < 2
  ranked : ∀ t, s.writers t = .idle ∨ (cfg t).localRank < maxLocalRanks

structure Accounted [Fintype ι] (cfg : ι → Thread) (as : List (Action ι)) (s : State ι) : Prop where
  registered : ∀ b, (s.buffer b).activeWriters = registeredCount s.writers b % 2 ^ 32
  ended : ∀ r < maxLocalRanks, ∃ recorded dropped,
    (s.shm.rankStats r).recordedEvents = recorded % 2 ^ 64 ∧ (s.shm.rankStats r).droppedEvents = dropped % 2 ^ 64 ∧
      recorded + dropped + inFlight cfg s.writers r = attempts cfg r as

variable {cfg : ι → Thread} {s : State ι} {t : ι}

/-- `commit` never sees an index or a rank it rejects. -/
theorem Indexed.accepts (h : Indexed cfg s) {rec : EventRecord.Record} {b offset done : Nat}
    (hw : s.writers t = .write rec b offset done) : ¬ (1 < b ∨ maxLocalRanks ≤ (cfg t).localRank) := by
  have hlt := h.entered t b (by rw [hw]; rfl)
  have hr := (h.ranked t).resolve_left (by rw [hw]; nofun)
  omega

variable [DecidableEq ι]

variable {s' : State ι}

theorem Indexed.update (h : Indexed cfg s) (t : ι) (w : Writer)
    (hword : s'.shm.activeEpochBuffer = s.shm.activeEpochBuffer) (hworker : s'.worker = s.worker)
    (hwriters : s'.writers = update s.writers t w) (hent : ∀ b, w.entered = some b → b < 2)
    (hrank : w = .idle ∨ (cfg t).localRank < maxLocalRanks) : Indexed cfg s' := by
  constructor
  · rw [State.active, hword]
    exact h.active
  · rw [hworker, hword]
    exact h.loaded
  · rw [hwriters, forall_update_iff s.writers fun _ v => ∀ b, v.entered = some b → b < 2]
    exact ⟨hent, fun u _ => h.entered u⟩
  · rw [hwriters, forall_update_iff s.writers fun u v => v = .idle ∨ (cfg u).localRank < maxLocalRanks]
    exact ⟨hrank, fun u _ => h.ranked u⟩

theorem writerStep_indexed (h : Indexed cfg s) (t : ι) (hs : writerStep cfg s t = some s') :
    Indexed cfg s' := by
  have hrank : s.writers t ≠ .idle → ∀ w : Writer, w = .idle ∨ (cfg t).localRank < maxLocalRanks :=
    fun hbusy _ => Or.inr ((h.ranked t).resolve_left hbusy)
  have hstay : ∀ b, (s.writers t).entered = some b → ∀ c, some b = some c → c < 2 := by
    intro b hb c hc
    rw [← Option.some.inj hc]
    exact h.entered t b hb
  cases writerStep_cases hs with
  | load _ _ hw | register _ _ _ hw | overtaken _ _ _ hw | retry _ _ _ hw | giveUp _ _ _ hw | abort _ hw
  | commit _ _ _ _ hw =>
    rw [hw] at hrank
    exact h.update t _ rfl rfl rfl nofun (hrank nofun _)
  | verified ev retry current hw hsame =>
    rw [hw] at hrank
    refine h.update t _ rfl rfl rfl ?_ (hrank nofun _)
    intro b hb
    rw [← Option.some.inj hb, ← hsame]
    exact h.active
  | grant ev b hw | refuse ev b hw | stamp ev b offset hw | store rec b offset done hw =>
    rw [hw] at hrank hstay
    exact h.update t _ rfl rfl rfl (hstay b rfl) (hrank nofun _)
  | drop | count | ignore => exact h.update t _ rfl rfl rfl nofun (Or.inl rfl)

omit [DecidableEq ι] in
theorem workerStep_indexed (h : Indexed cfg s) (hs : workerStep s = some s') : Indexed cfg s' := by
  have hl := h.loaded
  cases workerStep_cases hs with
  | load force hw => exact { h with loaded := fun w hw' => (Option.some.inj hw').symm }
  | go force current hw =>
    rw [hw] at hl
    exact { h with loaded := hl }
  | swap current hw =>
    rw [hw] at hl
    have hlt : bufIdx current < 2 := by
      rw [hl current rfl]
      exact h.active
    refine ⟨?_, nofun, h.entered, h.ranked⟩
    change bufIdx (nextWord current) < 2
    rw [bufIdx_nextWord current hlt]
    omega
  | skip | spin | drained | measure | empty | stream | read | total | write | recycle =>
    exact { h with loaded := nofun }

theorem step_indexed (h : Indexed cfg s) (a : Action ι) (hs : step cfg s a = some s') :
    Indexed cfg s' := by
  cases step_cases hs with
  | unranked => exact h
  | call t ev _ hr => exact h.update t _ rfl rfl rfl nofun (Or.inr hr)
  | writer t _ hs => exact writerStep_indexed h t hs
  | flush => exact { h with loaded := nofun }
  | worker _ hs => exact workerStep_indexed h hs
  | tick => exact { h with }

variable [Fintype ι] {as : List (Action ι)}

theorem inFlight_update (cfg : ι → Thread) (writers : ι → Writer) (t : ι) (w : Writer) (r : Nat) :
    inFlight cfg (update writers t w) r + (if writers t ≠ .idle ∧ (cfg t).localRank = r then 1 else 0) =
      inFlight cfg writers r + (if w ≠ .idle ∧ (cfg t).localRank = r then 1 else 0) :=
  Runs.sum_update (fun u (v : Writer) => if v ≠ .idle ∧ (cfg u).localRank = r then 1 else 0) writers t w

/-- What a move does to the registrations: nothing, one more, or one less. -/
inductive RegisterMove (s : State ι) (t : ι) (w : Writer) (s' : State ι) : Prop where
  | same (buffers : ∀ b, (s'.buffer b).activeWriters = (s.buffer b).activeWriters)
      (place : w.registered = (s.writers t).registered)
  | enter (b : Nat) (buffers : ∀ c, (s'.buffer c).activeWriters = ((s.enter b).buffer c).activeWriters)
      (before : (s.writers t).registered = none) (after : w.registered = some b)
  | leave (b : Nat) (buffers : ∀ c, (s'.buffer c).activeWriters = ((s.leave b).buffer c).activeWriters)
      (before : (s.writers t).registered = some b) (after : w.registered = none)

omit [Fintype ι] in
theorem writerStep_registers (h : Indexed cfg s) (t : ι) (hs : writerStep cfg s t = some s') :
    ∃ w, s'.writers = update s.writers t w ∧ RegisterMove s t w s' := by
  cases writerStep_cases hs with
  | load _ _ hw | verified _ _ _ hw | overtaken _ _ _ hw | drop hw | stamp _ _ _ hw | count hw =>
    exact ⟨_, rfl, .same (fun _ => rfl) (by rw [hw]; rfl)⟩
  | register ev retry current hw => exact ⟨_, rfl, .enter _ (fun _ => rfl) (by rw [hw]; rfl) rfl⟩
  | retry _ _ _ hw | giveUp _ _ _ hw | abort _ hw | commit _ _ _ _ hw =>
    exact ⟨_, rfl, .leave _ (fun _ => rfl) (by rw [hw]; rfl) rfl⟩
  | grant ev b hw | refuse ev b hw =>
    exact ⟨_, rfl, .same (fun c => advance_activeWriters s b ev.recordLen c) (by rw [hw]; rfl)⟩
  | store rec b offset done hw => exact ⟨_, rfl, .same (fun c => store_activeWriters s b _ c _) (by rw [hw]; rfl)⟩
  | ignore rec b offset done hw hbad => exact absurd hbad (h.accepts hw)

/-- What a move does to the attempts: it goes on with one, or ends it as recorded or as dropped. -/
inductive AttemptMove (cfg : ι → Thread) (s : State ι) (t : ι) (w : Writer) (s' : State ι) : Prop where
  | goOn (stats : s'.shm.rankStats = s.shm.rankStats) (before : s.writers t ≠ .idle) (after : w ≠ .idle)
  | recorded (stats : s'.shm.rankStats = update s.shm.rankStats (cfg t).localRank
        { s.shm.rankStats (cfg t).localRank with
          recordedEvents := add64 (s.shm.rankStats (cfg t).localRank).recordedEvents 1 })
      (before : s.writers t ≠ .idle) (after : w = .idle)
  | dropped (stats : s'.shm.rankStats = update s.shm.rankStats (cfg t).localRank
        { s.shm.rankStats (cfg t).localRank with
          droppedEvents := add64 (s.shm.rankStats (cfg t).localRank).droppedEvents 1 })
      (before : s.writers t ≠ .idle) (after : w = .idle)

omit [Fintype ι] in
theorem writerStep_attempts (h : Indexed cfg s) (t : ι) (hs : writerStep cfg s t = some s') :
    ∃ w, s'.writers = update s.writers t w ∧ AttemptMove cfg s t w s' := by
  cases writerStep_cases hs with
  | load _ _ hw | register _ _ _ hw | verified _ _ _ hw | overtaken _ _ _ hw | retry _ _ _ hw | giveUp _ _ _ hw
  | grant _ _ hw | refuse _ _ hw | abort _ hw | stamp _ _ _ hw | store _ _ _ _ hw | commit _ _ _ _ hw =>
    exact ⟨_, rfl, .goOn rfl (by rw [hw]; nofun) nofun⟩
  | drop hw => exact ⟨_, rfl, .dropped rfl (by rw [hw]; nofun) rfl⟩
  | count hw => exact ⟨_, rfl, .recorded rfl (by rw [hw]; nofun) rfl⟩
  | ignore rec b offset done hw hbad => exact absurd hbad (h.accepts hw)

theorem registered_step {w : Writer} (h : ∀ b, (s.buffer b).activeWriters = registeredCount s.writers b % 2 ^ 32)
    (hwriters : s'.writers = update s.writers t w) (hmove : RegisterMove s t w s') :
    ∀ b, (s'.buffer b).activeWriters = registeredCount s'.writers b % 2 ^ 32 := by
  intro c
  have hupd := registeredCount_update s.writers t w c
  rw [hwriters]
  cases hmove with
  | same hbuffers hplace =>
    rw [hplace] at hupd
    rw [hbuffers, h]
    omega
  | enter b hbuffers hbefore hafter =>
    simp only [hbefore, hafter, reduceCtorEq, if_false, Option.some.injEq] at hupd
    rw [hbuffers, State.enter, buffer_setBuffer]
    by_cases hc : c = b
    · subst hc
      simp only [if_true, add32, h] at hupd ⊢
      omega
    · rw [if_neg hc, h]
      rw [if_neg (Ne.symm hc)] at hupd
      omega
  | leave b hbuffers hbefore hafter =>
    simp only [hbefore, hafter, reduceCtorEq, if_false, Option.some.injEq] at hupd
    rw [hbuffers, State.leave, buffer_setBuffer]
    by_cases hc : c = b
    · subst hc
      simp only [if_true, sub32, h] at hupd ⊢
      omega
    · rw [if_neg hc, h]
      rw [if_neg (Ne.symm hc)] at hupd
      omega

theorem Accounted.ended_step {r : Nat} {w : Writer} (h : Accounted cfg as s) (hr : r < maxLocalRanks)
    (hwriters : s'.writers = update s.writers t w) (hmove : AttemptMove cfg s t w s') :
    ∃ recorded dropped, (s'.shm.rankStats r).recordedEvents = recorded % 2 ^ 64 ∧
      (s'.shm.rankStats r).droppedEvents = dropped % 2 ^ 64 ∧
      recorded + dropped + inFlight cfg s'.writers r = attempts cfg r as := by
  obtain ⟨recorded, dropped, hrec, hdrop, hsum⟩ := h.ended r hr
  have hupd := inFlight_update cfg s.writers t w r
  rw [hwriters]
  cases hmove with
  | goOn hstats hbefore hafter =>
    simp only [ne_eq, hbefore, hafter, not_false_eq_true, true_and] at hupd
    exact ⟨recorded, dropped, by rw [hstats, hrec], by rw [hstats, hdrop], by omega⟩
  | recorded hstats hbefore hafter =>
    subst hafter
    simp only [ne_eq, hbefore, not_false_eq_true, not_true_eq_false, false_and, true_and, if_false] at hupd
    by_cases hr : (cfg t).localRank = r
    · subst hr
      rw [if_pos rfl] at hupd
      refine ⟨recorded + 1, dropped, ?_, ?_, by omega⟩
      · simp only [hstats, update_self, add64, hrec, Nat.mod_add_mod]
      · simp only [hstats, update_self, hdrop]
    · rw [if_neg hr] at hupd
      rw [hstats, update_of_ne (Ne.symm hr)]
      exact ⟨recorded, dropped, hrec, hdrop, by omega⟩
  | dropped hstats hbefore hafter =>
    subst hafter
    simp only [ne_eq, hbefore, not_false_eq_true, not_true_eq_false, false_and, true_and, if_false] at hupd
    by_cases hr : (cfg t).localRank = r
    · subst hr
      rw [if_pos rfl] at hupd
      refine ⟨recorded, dropped + 1, ?_, ?_, by omega⟩
      · simp only [hstats, update_self, hrec]
      · simp only [hstats, update_self, add64, hdrop, Nat.mod_add_mod]
    · rw [if_neg hr] at hupd
      rw [hstats, update_of_ne (Ne.symm hr)]
      exact ⟨recorded, dropped, hrec, hdrop, by omega⟩

omit [DecidableEq ι] [Fintype ι] in
theorem attempts_concat (r : Nat) (as : List (Action ι)) (a : Action ι) :
    attempts cfg r (as ++ [a]) = attempts cfg r as + attempts cfg r [a] := List.countP_append

omit [Fintype ι] in
theorem unranked_of_call {ev : Event} (hs : step cfg s (.call t ev) = some s) : maxLocalRanks ≤ (cfg t).localRank := by
  simp only [step] at hs
  split at hs
  · next hidle =>
    by_contra hlt
    rw [if_neg hlt, Option.some.injEq] at hs
    have hload := congrArg (fun s : State ι => s.writers t) hs
    rw [setWriter_writers, hidle] at hload
    cases hload
  · cases hs

omit [DecidableEq ι] in
/-- Actions other than a call make no attempt. -/
theorem Accounted.keep {a : Action ι} (h : Accounted cfg as s) (hnone : ∀ r < maxLocalRanks, attempts cfg r [a] = 0)
    (hwriters : s'.writers = s.writers) (hstats : s'.shm.rankStats = s.shm.rankStats)
    (hbuffers : ∀ b, (s'.buffer b).activeWriters = (s.buffer b).activeWriters) : Accounted cfg (as ++ [a]) s' := by
  constructor
  · intro b
    rw [hbuffers, hwriters]
    exact h.registered b
  · intro r hr
    rw [hstats, hwriters, attempts_concat, hnone r hr]
    exact h.ended r hr

omit [DecidableEq ι] [Fintype ι] in
theorem workerStep_activeWriters (hs : workerStep s = some s') (b : Nat) :
    (s'.buffer b).activeWriters = (s.buffer b).activeWriters := by
  cases workerStep_cases hs with
  | recycle b' => exact reset_activeWriters s b' b
  | _ => rfl

theorem step_accounted (hi : Indexed cfg s) (h : Accounted cfg as s) (a : Action ι) (hs : step cfg s a = some s') :
    Accounted cfg (as ++ [a]) s' := by
  cases step_cases hs with
  | unranked t ev =>
    refine h.keep ?_ rfl rfl (fun _ => rfl)
    intro r hr
    have hne : (cfg t).localRank ≠ r := by
      have := unranked_of_call hs
      omega
    simp [attempts, hne]
  | call t ev hidle hr =>
    have hreg : RegisterMove s t (.load ev 0) (s.setWriter t (.load ev 0)) := .same (fun _ => rfl) (by rw [hidle]; rfl)
    refine ⟨registered_step h.registered rfl hreg, ?_⟩
    intro r hlt
    obtain ⟨recorded, dropped, hrec, hdrop, hsum⟩ := h.ended r hlt
    have hupd := inFlight_update cfg s.writers t (.load ev 0) r
    simp only [ne_eq, hidle, not_true_eq_false, reduceCtorEq, not_false_eq_true, false_and, true_and, if_false] at hupd
    refine ⟨recorded, dropped, hrec, hdrop, ?_⟩
    change recorded + dropped + inFlight cfg (update s.writers t (.load ev 0)) r = _
    have hone : attempts cfg r [.call t ev] = if (cfg t).localRank = r then 1 else 0 := by
      simp [attempts, List.countP_singleton]
    rw [attempts_concat, hone]
    omega
  | writer t _ hs =>
    obtain ⟨w, hwriters, hreg⟩ := writerStep_registers hi t hs
    obtain ⟨w', hwriters', hatt⟩ := writerStep_attempts hi t hs
    refine ⟨registered_step h.registered hwriters hreg, fun r hr => ?_⟩
    rw [attempts_concat]
    exact h.ended_step hr hwriters' hatt
  | flush | tick => exact h.keep (fun _ _ => rfl) rfl rfl (fun _ => rfl)
  | worker _ hs =>
    obtain ⟨-, hstats, hwriters⟩ := workerStep_frame hs
    exact h.keep (fun _ _ => rfl) hwriters hstats (workerStep_activeWriters hs)

omit [DecidableEq ι] in
theorem init_accounted : Accounted cfg [] (init ι) := by
  constructor
  · intro b
    simp [init, State.buffer, registeredCount, Writer.registered]
  · intro r _
    exact ⟨0, 0, rfl, rfl, by simp [inFlight, init, attempts]⟩

omit [DecidableEq ι] [Fintype ι] in
theorem init_indexed : Indexed cfg (init ι) :=
  ⟨by simp [State.active, init, bufIdx], nofun, nofun, fun _ => Or.inl rfl⟩

/-- In every interleaving of any number of writers and the worker in which no length or offset
wraps, at each step: the attempts of a rank are those recorded, those dropped and those in flight,
modulo the width of the counters and exactly below `2 ^ 64` attempts; and
`active_writers` is the number of registered writers modulo `2 ^ 32`, so that
with fewer of them it never underflows when one of them leaves. -/
theorem attempts_accounted (cfg : ι → Thread) (as : List (Action ι)) (s : State ι)
    (h : run (step cfg) Inside (init ι) as = some s) :
    (∀ r < maxLocalRanks,
      ((s.shm.rankStats r).recordedEvents + (s.shm.rankStats r).droppedEvents + inFlight cfg s.writers r) % 2 ^ 64 =
          attempts cfg r as % 2 ^ 64 ∧
        (attempts cfg r as < 2 ^ 64 →
          (s.shm.rankStats r).recordedEvents + (s.shm.rankStats r).droppedEvents + inFlight cfg s.writers r =
            attempts cfg r as)) ∧
      ∀ b, (s.buffer b).activeWriters = registeredCount s.writers b % 2 ^ 32 ∧
        (registeredCount s.writers b < 2 ^ 32 → (s.buffer b).activeWriters = registeredCount s.writers b ∧
          ∀ t, (s.writers t).registered = some b → 0 < (s.buffer b).activeWriters) := by
  obtain ⟨-, hacc⟩ := run_invariant (fun as s => Indexed cfg s ∧ Accounted cfg as s) ⟨init_indexed, init_accounted⟩
    (fun as t a u ht _ hst => ⟨step_indexed ht.1 a hst, step_accounted ht.1 ht.2 a hst⟩) h
  constructor
  · intro r hr
    obtain ⟨recorded, dropped, hrec, hdrop, hsum⟩ := hacc.ended r hr
    omega
  · intro b
    refine ⟨hacc.registered b, fun hlt => ?_⟩
    have hexact : (s.buffer b).activeWriters = registeredCount s.writers b := by
      rw [hacc.registered, Nat.mod_eq_of_lt hlt]
    refine ⟨hexact, fun t ht => ?_⟩
    rw [hexact]
    exact count_pos s.writers t b ht

theorem attempts_accounted_solo :
    ∃ s, run (step solo) Inside (init Unit) (logSteps () probe) = some s ∧
      (s.shm.rankStats 0).recordedEvents + (s.shm.rankStats 0).droppedEvents + inFlight solo s.writers 0 =
        attempts solo 0 (logSteps () probe) := by
  have hrun : (run (step solo) Inside (init Unit) (logSteps () probe)).isSome := by
    decide +kernel
  obtain ⟨s, hs⟩ := Option.isSome_iff_exists.mp hrun
  exact ⟨s, hs, ((attempts_accounted solo _ s hs).1 0 (by decide)).2 (by decide)⟩

/-! ## A crowd -/

/-- Every thread of a list calls, loads the active word and registers. -/
def registerSteps (ts : List ι) : List (Action ι) := ts.flatMap fun t => [.call t probe, .writer t, .writer t]

omit [Fintype ι] in
theorem register_one (hidle : s.writers t = .idle) (hword : s.shm.activeEpochBuffer = 0)
    (hr : (cfg t).localRank < maxLocalRanks) (as : List (Action ι)) :
    run (step cfg) Inside s (.call t probe :: .writer t :: .writer t :: as) =
      run (step cfg) Inside ((s.enter 0).setWriter t (.verify probe 0 0)) as := by
  have hcall : step cfg s (.call t probe) = some (s.setWriter t (.load probe 0)) := by
    simp only [step, hidle]
    exact if_neg (Nat.not_le.mpr hr)
  have hload : step cfg (s.setWriter t (.load probe 0)) (.writer t) = some (s.setWriter t (.register probe 0 0)) := by
    simp only [step, writerStep, setWriter_writers, setWriter_setWriter]
    rw [show (s.setWriter t (.load probe 0)).shm.activeEpochBuffer = 0 from hword]
  have hregister : step cfg (s.setWriter t (.register probe 0 0)) (.writer t) =
      some ((s.enter 0).setWriter t (.verify probe 0 0)) := by
    simp only [step, writerStep, setWriter_writers]
    exact congrArg some (setWriter_setWriter (s.enter 0) t _ _)
  have hsmall : Inside s (.call t probe) := show EventRecord.headerSize + probe.payload.length < 2 ^ 32 by decide
  have hsecond : Inside (s.setWriter t (.load probe 0)) (.writer t) := by simp [Inside]
  have hthird : Inside (s.setWriter t (.register probe 0 0)) (.writer t) := by simp [Inside]
  rw [run, if_pos hsmall, hcall, Option.bind_some, run, if_pos hsecond, hload, Option.bind_some, run, if_pos hthird,
    hregister, Option.bind_some]

omit [Fintype ι] in
theorem register_crowd (cfg : ι → Thread) (hr : ∀ t, (cfg t).localRank < maxLocalRanks) (ts : List ι) (hnd : ts.Nodup)
    (hidle : ∀ t ∈ ts, s.writers t = .idle) (hword : s.shm.activeEpochBuffer = 0)
    (hlt : (s.buffer 0).activeWriters < 2 ^ 32) :
    ∃ s', run (step cfg) Inside s (registerSteps ts) = some s' ∧
      (∀ t ∈ ts, (s'.writers t).registered = some 0) ∧ (∀ t, t ∉ ts → s'.writers t = s.writers t) ∧
        (s'.buffer 0).activeWriters = ((s.buffer 0).activeWriters + ts.length) % 2 ^ 32 := by
  induction ts generalizing s with
  | nil => exact ⟨s, rfl, nofun, fun _ _ => rfl, (Nat.mod_eq_of_lt hlt).symm⟩
  | cons t ts ih =>
    obtain ⟨hnot, hnd⟩ := List.nodup_cons.mp hnd
    have hother : ∀ u, u ≠ t → ((s.enter 0).setWriter t (.verify probe 0 0)).writers u = s.writers u :=
      fun u hu => update_of_ne hu _ _
    have hcount : (((s.enter 0).setWriter t (.verify probe 0 0)).buffer 0).activeWriters =
        ((s.buffer 0).activeWriters + 1) % 2 ^ 32 := by
      change ((s.enter 0).buffer 0).activeWriters = _
      rw [State.enter, setBuffer_same]
      rfl
    obtain ⟨s', hrun, hreg, hrest, hend⟩ := ih (s := (s.enter 0).setWriter t (.verify probe 0 0)) hnd
      (fun u hu => by
        rw [hother u (by rintro rfl; exact hnot hu)]
        exact hidle u (List.mem_cons_of_mem _ hu))
      hword (by rw [hcount]; exact Nat.mod_lt _ (by decide))
    refine ⟨s', ?_, ?_, ?_, ?_⟩
    · rw [← hrun]
      exact register_one (hidle t List.mem_cons_self) hword (hr t) (registerSteps ts)
    · intro u hu
      obtain rfl | hu := List.mem_cons.mp hu
      · rw [hrest u hnot, setWriter_writers]
        rfl
      · exact hreg u hu
    · intro u hu
      rw [List.mem_cons, not_or] at hu
      rw [hrest u hu.2, hother u hu.1]
    · rw [hend, hcount, List.length_cons, Nat.mod_add_mod, Nat.add_assoc, Nat.add_comm 1]

/-- With `2 ^ 32` writers registered in one buffer the 32-bit `active_writers` is zero again. -/
theorem crowd_counted_as_nobody :
    ∃ as s, run (step fun _ => ⟨0, 0⟩) Inside (init (Fin (2 ^ 32))) as = some s ∧
      registeredCount s.writers 0 = 2 ^ 32 ∧ (s.buffer 0).activeWriters = 0 := by
  obtain ⟨s, hrun, hreg, -, hcount⟩ := register_crowd (fun _ => ⟨0, 0⟩) (s := init (Fin (2 ^ 32)))
    (fun _ => by decide) (List.finRange (2 ^ 32)) (List.nodup_finRange _) (fun _ _ => rfl) rfl (by decide)
  refine ⟨_, s, hrun, ?_, ?_⟩
  · simp only [registeredCount, hreg _ (List.mem_finRange _), if_true]
    rw [← Finset.card_eq_sum_ones, Finset.card_univ, Fintype.card_fin]
  · rw [hcount, List.length_finRange]
    rfl

end ShmBuffer
