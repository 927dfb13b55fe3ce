import Mathlib.Algebra.Order.BigOperators.Group.Finset
import Ubpftrace.Runs
import Ubpftrace.ShmMoves

/-!
# Who may be in a buffer

The control part of the double-buffer protocol: `active_writers` counts the
registered writers, a writer that has passed its re-check is in the active
buffer or in the one being drained, and a worker past its drain loop is alone
in the buffer it flushes. The epoch number plays no part in the argument: after
any number of swaps, also past the wrap of the 32-bit epoch, an equal word
names the buffer that is active now.
-/

namespace ShmBuffer

open EventRecord

/-- The buffer whose `active_writers` counts this thread. -/
def Writer.registered : Writer → Option Nat
  | .verify _ _ current => some (bufIdx current)
  | .release _ _ current => some (bufIdx current)
  | .reserve _ b => some b
  | .abort b => some b
  | .stamp _ b _ => some b
  | .write _ b _ _ => some b
  | _ => none

/-- The buffer this thread is in after a successful re-check. -/
def Writer.entered : Writer → Option Nat
  | .reserve _ b => some b
  | .abort b => some b
  | .stamp _ b _ => some b
  | .write _ b _ _ => some b
  | _ => none

/-- The event or record a thread is working on fits its 32-bit length. -/
def Writer.Fits : Writer → Prop
  | .load ev _ => headerSize + ev.payload.length < 2 ^ 32
  | .register ev _ _ => headerSize + ev.payload.length < 2 ^ 32
  | .verify ev _ _ => headerSize + ev.payload.length < 2 ^ 32
  | .release ev _ _ => headerSize + ev.payload.length < 2 ^ 32
  | .reserve ev _ => headerSize + ev.payload.length < 2 ^ 32
  | .stamp ev _ _ => headerSize + ev.payload.length < 2 ^ 32
  | .write rec _ _ _ => rec.Fits
  | _ => True

/-- The word the worker has loaded and not yet replaced. -/
def Worker.loaded : Worker → Option Nat
  | .peek _ current => some current
  | .swap current => some current
  | _ => none

/-- The buffer between its swap and its reset. -/
def Worker.flushing : Worker → Option Nat
  | .drain b _ => some b
  | .measure b => some b
  | .stream b _ => some b
  | .stats b _ _ _ _ => some b
  | .write b _ _ _ => some b
  | .recycle b => some b
  | _ => none

variable {ι : Type}

def State.active (s : State ι) : Nat := bufIdx s.shm.activeEpochBuffer

def registeredCount [Fintype ι] (writers : ι → Writer) (b : Nat) : Nat :=
  ∑ t, if (writers t).registered = some b then 1 else 0

/-- A writer past its re-check is in the active buffer or holds up the drain loop. -/
def State.Admits (s : State ι) (b : Nat) : Prop := b = s.active ∨ ∃ n, s.worker = .drain b n

structure Control [Fintype ι] (cfg : ι → Thread) (s : State ι) : Prop where
  active : s.active < 2
  counted : ∀ b, (s.buffer b).activeWriters = registeredCount s.writers b
  bounded : ∀ b, registeredCount s.writers b < 2 ^ 32
  entered : ∀ t b, (s.writers t).entered = some b → s.Admits b
  loaded : ∀ w, s.worker.loaded = some w → w = s.shm.activeEpochBuffer
  flushing : ∀ b, s.worker.flushing = some b → b + s.active = 1
  ranked : ∀ t, s.writers t = .idle ∨ (cfg t).localRank < maxLocalRanks
  fits : ∀ t, (s.writers t).Fits

theorem bufIdx_nextWord (word : Nat) (h : bufIdx word < 2) : bufIdx (nextWord word) = 1 - bufIdx word := by
  simp only [bufIdx, nextWord, sub32] at *
  omega

theorem admits_lt (s : State ι) (ha : s.active < 2) (hf : ∀ b, s.worker.flushing = some b → b + s.active = 1)
    (b : Nat) (h : s.Admits b) : b < 2 := by
  obtain rfl | ⟨n, hn⟩ := h
  · exact ha
  · have := hf b (by rw [hn]; rfl)
    omega

variable [Fintype ι] {cfg : ι → Thread} {s : State ι}

/-- Past the drain loop nobody else is inside the buffer that is flushed. -/
theorem Control.alone (h : Control cfg s) (b : Nat) (hf : s.worker.flushing = some b)
    (hd : ∀ n, s.worker ≠ .drain b n) (t : ι) : (s.writers t).entered ≠ some b := by
  intro he
  have hsum := h.flushing b hf
  obtain rfl | ⟨n, hn⟩ := h.entered t b he
  · omega
  · exact hd n hn

theorem count_pos (writers : ι → Writer) (t : ι) (b : Nat) (h : (writers t).registered = some b) :
    0 < registeredCount writers b := by
  have := Finset.single_le_sum (f := fun t => if (writers t).registered = some b then 1 else 0)
    (fun _ _ => Nat.zero_le _) (Finset.mem_univ t)
  simp only [h, if_true] at this
  exact this

theorem Writer.registered_of_entered {w : Writer} {b : Nat} (h : w.entered = some b) : w.registered = some b := by
  cases w <;> simp_all [Writer.entered, Writer.registered]

/-- A drain loop that ends on a zero count leaves nobody registered. -/
theorem Control.drained (h : Control cfg s) (b : Nat) (hz : (s.buffer b).activeWriters = 0) (t : ι) :
    (s.writers t).registered ≠ some b := by
  intro hr
  have := count_pos s.writers t b hr
  rw [← h.counted b, hz] at this
  omega

/-- `commit` never sees an index or a rank it rejects. -/
theorem Control.accepts (h : Control cfg s) {t : ι} {rec : Record} {b offset done : Nat}
    (hw : s.writers t = .write rec b offset done) : ¬ (1 < b ∨ maxLocalRanks ≤ (cfg t).localRank) := by
  have hlt := admits_lt s h.active h.flushing b (h.entered t b (by rw [hw]; rfl))
  have hr := (h.ranked t).resolve_left (by rw [hw]; nofun)
  omega

variable [DecidableEq ι]

theorem registeredCount_update (writers : ι → Writer) (t : ι) (w : Writer) (b : Nat) :
    registeredCount (Function.update writers t w) b + (if (writers t).registered = some b then 1 else 0) =
      registeredCount writers b + (if w.registered = some b then 1 else 0) :=
  Runs.sum_update (fun _ (v : Writer) => if v.registered = some b then 1 else 0) writers t w

variable {s' : State ι}

section

variable (h : Control cfg s) (t : ι) (w : Writer) (hword : s'.shm.activeEpochBuffer = s.shm.activeEpochBuffer)
    (hworker : s'.worker = s.worker)
include h hword hworker

/-- One thread moves to `w`: what holds of the other threads and of the worker
stays, and the count of registered threads is the caller's business. -/
theorem Control.update (hwriters : s'.writers = Function.update s.writers t w)
    (hcounted : ∀ b, (s'.buffer b).activeWriters = registeredCount s'.writers b)
    (hbounded : ∀ b, registeredCount s'.writers b < 2 ^ 32) (hent : ∀ b, w.entered = some b → s.Admits b)
    (hrank : w = .idle ∨ (cfg t).localRank < maxLocalRanks) (hfit : w.Fits) : Control cfg s' := by
  have hactive : s'.active = s.active := by simp only [State.active, hword]
  constructor
  · rw [hactive]
    exact h.active
  · exact hcounted
  · exact hbounded
  · have hadmits : s'.Admits = s.Admits := by
      funext b
      simp only [State.Admits, hactive, hworker]
    rw [hadmits, hwriters, Function.forall_update_iff s.writers fun _ v => ∀ b, v.entered = some b → s.Admits b]
    exact ⟨hent, fun u _ => h.entered u⟩
  · rw [hword, hworker]
    exact h.loaded
  · rw [hactive, hworker]
    exact h.flushing
  · rw [hwriters, Function.forall_update_iff s.writers fun u v => v = .idle ∨ (cfg u).localRank < maxLocalRanks]
    exact ⟨hrank, fun u _ => h.ranked u⟩
  · rw [hwriters, Function.forall_update_iff s.writers fun _ v => v.Fits]
    exact ⟨hfit, fun u _ => h.fits u⟩

theorem Control.move (hcount : ∀ b, (s'.buffer b).activeWriters = (s.buffer b).activeWriters)
    (hwriters : s'.writers = Function.update s.writers t w) (hreg : w.registered = (s.writers t).registered)
    (hent : ∀ b, w.entered = some b → s.Admits b) (hrank : w = .idle ∨ (cfg t).localRank < maxLocalRanks)
    (hfit : w.Fits) : Control cfg s' := by
  have hsame : ∀ b, registeredCount s'.writers b = registeredCount s.writers b := by
    intro b
    have := registeredCount_update s.writers t w b
    rw [hwriters]
    rw [hreg] at this
    omega
  refine h.update t w hword hworker hwriters ?_ ?_ hent hrank hfit
  · intro b
    rw [hcount, hsame]
    exact h.counted b
  · intro b
    rw [hsame]
    exact h.bounded b

end

/-- Registering: the one increment of `active_writers`, which must not wrap. -/
theorem Control.enter (h : Control cfg s) (t : ι) (ev : Event) (retry current : Nat)
    (hw : s.writers t = .register ev retry current)
    (hwrap : (s.buffer (bufIdx current)).activeWriters + 1 < 2 ^ 32) :
    Control cfg ((s.enter (bufIdx current)).setWriter t (.verify ev retry current)) := by
  have hcount : ∀ b, registeredCount (Function.update s.writers t (.verify ev retry current)) b =
      registeredCount s.writers b + (if bufIdx current = b then 1 else 0) := by
    intro b
    have := registeredCount_update s.writers t (.verify ev retry current) b
    simpa [hw, Writer.registered] using this
  rw [h.counted] at hwrap
  have hfit := h.fits t
  rw [hw] at hfit
  refine h.update t _ rfl rfl rfl ?_ ?_ nofun (Or.inr ((h.ranked t).resolve_left (by rw [hw]; nofun))) hfit
  · intro b
    change ((s.enter (bufIdx current)).buffer b).activeWriters = registeredCount (Function.update s.writers t _) b
    rw [hcount, State.enter, buffer_setBuffer]
    by_cases hc : b = bufIdx current
    · subst hc
      simp only [if_true, add32, h.counted]
      exact Nat.mod_eq_of_lt hwrap
    · rw [if_neg hc, if_neg (Ne.symm hc)]
      exact h.counted b
  · intro b
    change registeredCount (Function.update s.writers t (.verify ev retry current)) b < _
    rw [hcount]
    by_cases hc : bufIdx current = b
    · subst hc
      simpa using hwrap
    · simpa [hc] using h.bounded b

/-- Unregistering: the count is at least one, so it goes down by exactly one. -/
theorem Control.leave (h : Control cfg s) (t : ι) (b : Nat) (w : Writer)
    (hreg : (s.writers t).registered = some b) (hnone : w.registered = none)
    (hword : s'.shm.activeEpochBuffer = s.shm.activeEpochBuffer) (hworker : s'.worker = s.worker)
    (hbuffers : ∀ c, (s'.buffer c).activeWriters = ((s.leave b).buffer c).activeWriters)
    (hwriters : s'.writers = Function.update s.writers t w)
    (hrank : w = .idle ∨ (cfg t).localRank < maxLocalRanks) (hfit : w.Fits) : Control cfg s' := by
  have hcount : ∀ c, registeredCount s'.writers c + (if b = c then 1 else 0) = registeredCount s.writers c := by
    intro c
    have := registeredCount_update s.writers t w c
    rw [hwriters]
    simpa [hreg, hnone] using this
  refine h.update t w hword hworker hwriters ?_ ?_ ?_ hrank hfit
  · intro c
    rw [hbuffers, State.leave, buffer_setBuffer]
    have hc := hcount c
    have hb := h.bounded c
    by_cases hcb : c = b
    · subst hcb
      simp only [if_true, sub32, h.counted] at hc ⊢
      omega
    · rw [if_neg hcb, h.counted]
      rw [if_neg (Ne.symm hcb)] at hc
      omega
  · intro c
    have hc := hcount c
    have hb := h.bounded c
    omega
  · intro c hc
    rw [Writer.registered_of_entered hc] at hnone
    cases hnone

theorem writerStep_control (h : Control cfg s) (t : ι) (hok : NoWrap s (.writer t))
    (hs : writerStep cfg s t = some s') : Control cfg s' := by
  have hfit := h.fits t
  have hrank : s.writers t ≠ .idle → ∀ w : Writer, w = .idle ∨ (cfg t).localRank < maxLocalRanks :=
    fun hbusy _ => Or.inr ((h.ranked t).resolve_left hbusy)
  -- a thread that stays inside its buffer keeps what lets it be there
  have hstay : ∀ b, (s.writers t).entered = some b → ∀ c, some b = some c → s.Admits c := by
    intro b hb c hc
    rw [← Option.some.inj hc]
    exact h.entered t b hb
  cases writerStep_cases hs with
  | load ev retry hw | overtaken ev retry current hw =>
    rw [hw] at hfit hrank
    exact h.move t _ rfl rfl (fun _ => rfl) rfl (by rw [hw]; rfl) nofun (hrank nofun _) hfit
  | register ev retry current hw =>
    simp only [NoWrap, hw] at hok
    exact h.enter t ev retry current hw hok
  | verified ev retry current hw hsame =>
    rw [hw] at hfit hrank
    refine h.move t _ rfl rfl (fun _ => rfl) rfl (by rw [hw]; rfl) ?_ (hrank nofun _) hfit
    intro b hb
    rw [← Option.some.inj hb, ← hsame]
    exact Or.inl rfl
  | retry ev retry current hw =>
    rw [hw] at hfit hrank
    exact h.leave t (bufIdx current) _ (by rw [hw]; rfl) rfl rfl rfl (fun _ => rfl) rfl (hrank nofun _) hfit
  | giveUp ev retry current hw =>
    rw [hw] at hrank
    exact h.leave t (bufIdx current) _ (by rw [hw]; rfl) rfl rfl rfl (fun _ => rfl) rfl (hrank nofun _) trivial
  | grant ev b hw hroom =>
    rw [hw] at hfit hrank hstay
    exact h.move t _ rfl rfl (fun c => advance_activeWriters s b ev.recordLen c) rfl (by rw [hw]; rfl)
      (hstay b rfl) (hrank nofun _) hfit
  | refuse ev b hw hfull =>
    rw [hw] at hrank hstay
    exact h.move t _ rfl rfl (fun c => advance_activeWriters s b ev.recordLen c) rfl (by rw [hw]; rfl)
      (hstay b rfl) (hrank nofun _) trivial
  | abort b hw =>
    rw [hw] at hrank
    exact h.leave t b .drop (by rw [hw]; rfl) rfl rfl rfl (fun _ => rfl) rfl (hrank nofun _) trivial
  | drop hw | count hw =>
    exact h.move t _ rfl rfl (fun _ => rfl) rfl (by rw [hw]; rfl) nofun (Or.inl rfl) trivial
  | stamp ev b offset hw =>
    rw [hw] at hfit hrank hstay
    exact h.move t _ rfl rfl (fun _ => rfl) rfl (by rw [hw]; rfl) (hstay b rfl) (hrank nofun _) hfit
  | store rec b offset done hw hmore =>
    rw [hw] at hfit hrank hstay
    exact h.move t _ rfl rfl (fun c => store_activeWriters s b _ c _) rfl (by rw [hw]; rfl)
      (hstay b rfl) (hrank nofun _) hfit
  | ignore rec b offset done hw hbad => exact absurd hbad (h.accepts hw)
  | commit rec b offset done hw hall hgood =>
    rw [hw] at hrank
    exact h.leave t b .count (by rw [hw]; rfl) rfl rfl rfl (fun _ => rfl) rfl (hrank nofun _) trivial

omit [DecidableEq ι] in
theorem Control.work (h : Control cfg s) (hwriters : s'.writers = s.writers)
    (hcount : ∀ b, (s'.buffer b).activeWriters = (s.buffer b).activeWriters) (hactive : s'.active < 2)
    (hadmits : ∀ t b, (s.writers t).entered = some b → s.Admits b → s'.Admits b)
    (hloaded : ∀ w, s'.worker.loaded = some w → w = s'.shm.activeEpochBuffer)
    (hflushing : ∀ b, s'.worker.flushing = some b → b + s'.active = 1) : Control cfg s' := by
  constructor
  · exact hactive
  · intro b; rw [hcount, hwriters]; exact h.counted b
  · intro b; rw [hwriters]; exact h.bounded b
  · intro t b ht
    rw [hwriters] at ht
    exact hadmits t b ht (h.entered t b ht)
  · exact hloaded
  · exact hflushing
  · intro t; rw [hwriters]; exact h.ranked t
  · intro t; rw [hwriters]; exact h.fits t

omit [DecidableEq ι] in
/-- Outside a flush everybody inside a buffer is in the active one. -/
theorem Control.wait (h : Control cfg s) (hf : s.worker.flushing = none)
    (hwriters : s'.writers = s.writers) (hshm : s'.shm = s.shm)
    (hl : ∀ w, s'.worker.loaded = some w → w = s.shm.activeEpochBuffer) (hf' : s'.worker.flushing = none) :
    Control cfg s' := by
  have hactive : s'.active = s.active := by simp only [State.active, hshm]
  refine h.work hwriters (by simp [State.buffer, hshm]) (hactive ▸ h.active) ?_ (by rw [hshm]; exact hl) (by simp [hf'])
  intro t b _ hadm
  obtain hb | ⟨n, hn⟩ := hadm
  · exact Or.inl (by rw [hactive]; exact hb)
  · simp [hn, Worker.flushing] at hf

omit [DecidableEq ι] in
theorem Control.stay (h : Control cfg s) (b : Nat) (hf : s.worker.flushing = some b)
    (hd : ∀ n, s.worker ≠ .drain b n) (hwriters : s'.writers = s.writers)
    (hword : s'.shm.activeEpochBuffer = s.shm.activeEpochBuffer)
    (hcount : ∀ c, (s'.buffer c).activeWriters = (s.buffer c).activeWriters)
    (hl : s'.worker.loaded = none) (hf' : ∀ c, s'.worker.flushing = some c → c = b) : Control cfg s' := by
  have hactive : s'.active = s.active := by simp only [State.active, hword]
  refine h.work hwriters hcount (by rw [hactive]; exact h.active) ?_ (by simp [hl]) ?_
  · intro t c ht hadm
    obtain hc | ⟨n, hn⟩ := hadm
    · exact Or.inl (by rw [hactive]; exact hc)
    · rw [hn] at hf
      simp only [Worker.flushing, Option.some.injEq] at hf
      exact absurd (hf ▸ hn) (hd n)
  · intro c hc
    rw [hf' c hc, hactive]
    exact h.flushing b hf

omit [DecidableEq ι] in
theorem workerStep_control (h : Control cfg s) (hok : Drained s .worker)
    (hs : workerStep s = some s') : Control cfg s' := by
  cases workerStep_cases hs with
  | load force hw => exact h.wait (by rw [hw]; rfl) rfl rfl (fun w hl => (Option.some.inj hl).symm) rfl
  | skip force current hw => exact h.wait (by rw [hw]; rfl) rfl rfl nofun rfl
  | go force current hw =>
    have hcur := h.loaded current (by rw [hw]; rfl)
    exact h.wait (by rw [hw]; rfl) rfl rfl (fun w hl => Option.some.inj hl ▸ hcur) rfl
  | swap current hw =>
    have hcur := h.loaded current (by rw [hw]; rfl)
    have hidx : bufIdx current = s.active := by rw [hcur]; rfl
    have hnext : bufIdx (nextWord current) = 1 - s.active := by
      rw [bufIdx_nextWord current (by rw [hidx]; exact h.active), hidx]
    have hlt := h.active
    refine h.work rfl (fun _ => rfl) ?_ ?_ nofun ?_
    · simp only [State.active, hnext]
      omega
    · -- the writers of the buffer that was active now hold up its drain loop
      intro t b _ hadm
      have hb := hadm.resolve_right (by simp [hw])
      exact Or.inr ⟨0, by rw [hb, hidx]⟩
    · intro b hb
      change b + bufIdx (nextWord current) = 1
      rw [hnext, ← Option.some.inj hb, hidx]
      omega
  | spin b spins hw =>
    have hflush := h.flushing b (by rw [hw]; rfl)
    refine h.work rfl (fun _ => rfl) h.active ?_ nofun (fun c hc => Option.some.inj hc ▸ hflush)
    intro t c _ hadm
    obtain hc | ⟨n, hn⟩ := hadm
    · exact Or.inl hc
    · rw [hw] at hn
      injection hn with hb _
      exact Or.inr ⟨spins + 1, by rw [hb]⟩
  | drained b spins hw hover =>
    have hz : (s.buffer b).activeWriters = 0 := by
      simp only [Drained, hw] at hok
      omega
    have hflush := h.flushing b (by rw [hw]; rfl)
    refine h.work rfl (fun _ => rfl) h.active ?_ nofun (fun c hc => Option.some.inj hc ▸ hflush)
    intro t c ht hadm
    obtain hc | ⟨n, hn⟩ := hadm
    · exact Or.inl hc
    · rw [hw] at hn
      injection hn with hb _
      rw [← hb] at ht
      exact absurd (Writer.registered_of_entered ht) (h.drained b hz t)
  | measure b hw | empty b hw | stream b _ hw | read b _ _ _ _ hw | total b _ _ _ _ hw | write b _ _ _ hw =>
    exact h.stay b (by rw [hw]; rfl) (by simp [hw]) rfl rfl (fun _ => rfl) rfl (by simp [Worker.flushing])
  | recycle b hw =>
    exact h.stay b (by rw [hw]; rfl) (by simp [hw]) rfl rfl (fun c => reset_activeWriters s b c) rfl nofun

/-- Every step that is not led astray by the spin limit or a wrapped counter
keeps the control invariant. -/
theorem step_control (h : Control cfg s) (a : Action ι) (hd : Drained s a) (hn : NoWrap s a)
    (hs : step cfg s a = some s') : Control cfg s' := by
  cases step_cases hs with
  | unranked t ev => exact h
  | call t ev hw hr => exact h.move t _ rfl rfl (fun _ => rfl) rfl (by rw [hw]; rfl) nofun (Or.inr hr) hn
  | writer t _ hs => exact writerStep_control h t hn hs
  | flush force hw => exact h.wait (by rw [hw]; rfl) rfl rfl nofun rfl
  | worker _ hs => exact workerStep_control h hd hs
  | tick ns => exact h.work rfl (fun _ => rfl) h.active (fun _ _ _ hadm => hadm) h.loaded h.flushing

omit [DecidableEq ι] in
theorem init_control : Control cfg (init ι) := by
  constructor
  · simp [State.active, init, bufIdx]
  · intro b
    simp [init, State.buffer, registeredCount, Writer.registered]
  · intro b
    simp [init, registeredCount, Writer.registered]
  · intro t b hb
    simp [init, Writer.entered] at hb
  · intro w hw
    simp [init, Worker.loaded] at hw
  · intro b hb
    simp [init, Worker.flushing] at hb
  · intro t
    exact Or.inl rfl
  · intro t
    trivial

end ShmBuffer
