import Ubpftrace.ShmSchedules

/-!
# Nothing committed is lost, and where the protocol gives way

In every run whose drain loops end on a zero count and whose counters do not
wrap, reservations of one epoch are disjoint ranges of the buffer and every
committed record ends up, with its bytes, in the one chunk of its epoch. A run
that leaves the drain loop by its spin limit hands over a range that is still
being written; a run that drops enough records wraps `write_offset`.
-/

namespace ShmBuffer

open EventRecord Function
open Bytes (Holds)
open EpochLedger (Extent WellFormed)
open Runs (Reaches run reaches_of_run)

variable {ι : Type} {s : State ι}

def Chunk.key (k : Chunk) : Nat × Nat := (k.buf, k.gen)

/-- The record lies in the range of the chunk, and its bytes stand there. -/
def Chunk.Carries (k : Chunk) (c : Commit) : Prop :=
  k.key = c.extent.key ∧ c.extent.offset + c.record.bytes.length ≤ k.len ∧ Holds k.data c.extent.offset c.record.bytes

/-- The record is in the one chunk of its epoch. -/
def Flushed (s : State ι) (c : Commit) : Prop :=
  ∃ k, s.log.chunks.filter (fun k => k.key = c.extent.key) = [k] ∧ k.Carries c

/-- The record still stands in a buffer that is active or being flushed, in the
range the flush of that buffer takes, and no chunk of its epoch exists. -/
def Pending (s : State ι) (c : Commit) : Prop :=
  c.extent.gen = s.log.resets c.extent.buf ∧ (c.extent.buf = s.active ∨ s.worker.flushing = some c.extent.buf) ∧
    c.extent.offset + c.record.bytes.length ≤ min (s.buffer c.extent.buf).writeOffset bufferCapacity ∧
    Holds (s.buffer c.extent.buf).data c.extent.offset c.record.bytes ∧
    ∀ k ∈ s.log.chunks, k.key ≠ c.extent.key

/-- A buffer at rest is empty. -/
def Settled (s : State ι) : Prop :=
  ∀ b, b = s.active ∨ s.worker.flushing = some b ∨ (s.buffer b).writeOffset = 0

theorem init_settled : Settled (init ι) := fun _ => Or.inr (Or.inr rfl)

variable {s' : State ι}

theorem workerStep_settled (h : Settled s) (hl : ∀ w, s.worker.loaded = some w → w = s.shm.activeEpochBuffer)
    (hs : workerStep s = some s') : Settled s' := by
  intro c
  have hrest := h c
  cases workerStep_cases hs with
  | swap current hw =>
    have hcur := hl current (by rw [hw]; rfl)
    simp only [hw, Worker.flushing, reduceCtorEq, false_or] at hrest
    obtain rfl | hz := hrest
    · exact Or.inr (Or.inl (by rw [hcur]; rfl))
    · exact Or.inr (Or.inr hz)
  | recycle b hw =>
    have hoff := congrFun (reset_writeOffset s b) c
    change c = s.active ∨ none = some c ∨ ((s.reset b).buffer c).writeOffset = 0
    by_cases hc : c = b
    · subst hc
      exact Or.inr (Or.inr (by rw [hoff]; simp))
    · rw [hoff, update_of_ne hc]
      simpa [hw, Worker.flushing, Ne.symm hc] using hrest
  | load _ hw | skip _ _ hw | go _ _ hw | spin _ _ hw | drained _ _ hw | measure _ hw | empty _ hw | stream _ _ hw
  | read _ _ _ _ _ hw | total _ _ _ _ _ hw | write _ _ _ _ hw =>
    rw [hw] at hrest
    exact hrest

variable [DecidableEq ι] [Fintype ι] {cfg : ι → Thread} {c : Commit}

theorem writerStep_settled (h : Settled s) (hc : Control cfg s) (t : ι)
    (hs : writerStep cfg s t = some s') : Settled s' := by
  obtain ⟨hword, hworker, -, -, hoffset⟩ := writerStep_frame t hs
  intro b
  rw [hworker, State.active, hword]
  by_cases hb : (s.writers t).entered = some b
  · obtain ha | ⟨n, hn⟩ := hc.entered t b hb
    · exact Or.inl ha
    · exact Or.inr (Or.inl (by rw [hn]; rfl))
  · rw [hoffset b hb]
    exact h b

theorem step_settled (h : Settled s) (hc : Control cfg s) (a : Action ι)
    (hs : step cfg s a = some s') : Settled s' := by
  cases step_cases hs with
  | unranked | call | tick => exact h
  | writer t _ hs => exact writerStep_settled h hc t hs
  | flush force hw =>
    intro b
    have hrest := h b
    rw [hw] at hrest
    exact hrest
  | worker _ hs => exact workerStep_settled h hc.loaded hs

theorem reaches_settled (h : Reaches (step cfg) Regular (init ι) s) : Settled s := by
  have hboth := h.invariant (fun s => Sound cfg s ∧ Settled s) ⟨init_sound, init_settled⟩
    (fun t a u ht hok hst => ⟨step_sound ht.1 a hok hst, step_settled ht.2 ht.1.control a hst⟩)
  exact hboth.2

omit [DecidableEq ι] [Fintype ι] in
theorem mem_ledger_commits (hc : c ∈ s.log.commits) :
    (c.extent, c.record.bytes) ∈ (ledger s).commits := List.mem_map.mpr ⟨c, hc, rfl⟩

omit [DecidableEq ι] in
theorem Sound.flushed_of_chunk (h : Sound cfg s) (hc : c ∈ s.log.commits) {k : Chunk} (hk : k ∈ s.log.chunks)
    (hkey : k.key = c.extent.key) : Flushed s c := by
  have hmem := mem_ledger_commits hc
  have hlen := h.ledger.owned.commit_len _ hmem
  obtain ⟨hin, hbytes⟩ := h.ledger.stored.flush_bytes k.flush (List.mem_map.mpr ⟨k, hk, rfl⟩) _ hmem hkey.symm
  have hflushes := h.ledger.stored.flush_once
  have honce : s.log.chunks.Pairwise fun k k' => k.key ≠ k'.key := by
    rw [ShmBuffer.ledger, List.pairwise_map] at hflushes
    exact hflushes
  refine ⟨k, ?_, hkey, ?_, hbytes⟩
  · rw [← hkey]
    exact EpochLedger.filter_key Chunk.key honce hk
  · rw [show c.record.bytes.length = c.extent.len from hlen]
    exact hin

omit [DecidableEq ι] in
theorem Sound.pending_of_unflushed (h : Sound cfg s) (hs : Settled s) (hc : c ∈ s.log.commits)
    (hgen : c.extent.gen = s.log.resets c.extent.buf) (hnone : ∀ k ∈ s.log.chunks, k.key ≠ c.extent.key) :
    Pending s c := by
  have hmem := mem_ledger_commits hc
  have hgrant := h.ledger.owned.commit_mem _ hmem
  have hend := h.ledger.spaced.end_le hgrant hgen
  have hlen := h.ledger.owned.commit_len _ hmem
  rw [← hlen] at hend
  refine ⟨hgen, ?_, hend, h.ledger.stored.bytes _ hmem hgen, hnone⟩
  obtain ha | hf | hz := hs c.extent.buf
  · exact Or.inl ha
  · exact Or.inr hf
  · exact absurd hgen (h.ledger.spaced.top_zero hz hgrant rfl)

omit [DecidableEq ι] in
theorem Sound.flushed_or_pending (h : Sound cfg s) (hs : Settled s) (hc : c ∈ s.log.commits) :
    Flushed s c ∨ Pending s c := by
  by_cases hex : ∃ k ∈ s.log.chunks, k.key = c.extent.key
  · obtain ⟨k, hk, hkey⟩ := hex
    exact Or.inl (h.flushed_of_chunk hc hk hkey)
  · have hnone : ∀ k ∈ s.log.chunks, k.key ≠ c.extent.key := fun k hk hkey => hex ⟨k, hk, hkey⟩
    obtain hlt | hgen :=
      Nat.lt_or_eq_of_le (h.ledger.spaced.gen_le _ (h.ledger.owned.commit_mem _ (mem_ledger_commits hc)))
    · obtain ⟨f, hf, hkey⟩ := h.ledger.stored.flushed _ (mem_ledger_commits hc) hlt
      obtain ⟨k, hk, rfl⟩ := List.mem_map.mp hf
      exact absurd hkey (hnone k hk)
    · exact Or.inr (h.pending_of_unflushed hs hc hgen hnone)

/-- In every run whose drain loops end on a zero count and whose counters do
not wrap: reservations lie in the buffer, those of one epoch are disjoint, and
every committed record is in exactly one chunk or still stands, unchanged, in
the range that will be flushed; after the reset of its epoch it is in a chunk. -/
theorem committed_records_flushed_once (cfg : ι → Thread) (s : State ι)
    (h : Reaches (step cfg) Regular (init ι) s) :
    (∀ g ∈ s.log.grants, g.offset + g.len ≤ bufferCapacity) ∧
    (s.log.grants.Pairwise fun f g => f.key = g.key → f.Apart g) ∧
    (∀ c ∈ s.log.commits, Flushed s c ∨ Pending s c) ∧
    ∀ c ∈ s.log.commits, c.extent.gen < s.log.resets c.extent.buf → Flushed s c := by
  have hsound := reaches_sound h
  refine ⟨fun g hg => hsound.ledger.spaced.end_le_cap hg, hsound.ledger.spaced.pairwise_apart,
    fun c hc => hsound.flushed_or_pending (reaches_settled h) hc, ?_⟩
  intro c hc hlt
  obtain hf | hp := hsound.flushed_or_pending (reaches_settled h) hc
  · exact hf
  · exact absurd hp.1 (by omega)

theorem committed_records_flushed_once_solo :
    ∃ s, run (step solo) Regular (init Unit) (logSteps () probe ++ flushSteps false) = some s ∧
      ∃ c ∈ s.log.commits, Flushed s c := by
  have hrun : (run (step solo) Regular (init Unit) (logSteps () probe ++ flushSteps false)).map
      (fun s => (s.log.commits, s.log.resets 0)) = some ([⟨⟨0, 0, 0, 24⟩, probe.stamp 0 0, 0⟩], 1) := by
    decide +kernel
  obtain ⟨s, hs, hlog⟩ := Option.map_eq_some_iff.mp hrun
  obtain ⟨hcommits, hresets⟩ := Prod.mk.inj hlog
  refine ⟨s, hs, ⟨⟨0, 0, 0, 24⟩, probe.stamp 0 0, 0⟩, by simp [hcommits], ?_⟩
  exact (committed_records_flushed_once solo s (reaches_of_run _ hs)).2.2.2 _ (by simp [hcommits]) (by simp [hresets])

/-- After `n` refused reservations of two gigabytes in the first epoch. -/
def RefusedTimes (n : Nat) (s : State Unit) : Prop :=
  s.active = 0 ∧ s.writers () = .idle ∧ (s.buffer 0).activeWriters = 0 ∧ (s.buffer 0).writeOffset = n * 2 ^ 31

section

variable {ev : Event} (hfit : headerSize + ev.payload.length < 2 ^ 32) (hlen : ev.recordLen = 2 ^ 31)
include hfit hlen

theorem refused_again {n : Nat} {s : State Unit} (h : RefusedTimes n s) (hn : n + 1 < 2 ^ 33) :
    RefusedTimes (n + 1) (s.refused solo () ev.recordLen) ∧
      Reaches (step solo) Regular s (s.refused solo () ev.recordLen) := by
  obtain ⟨ha, hw, hz, hoff⟩ := h
  constructor
  · refine ⟨ha, setWriter_writers _ _ _, ?_, ?_⟩
    · change ((((s.enter s.active).advance s.active _).leave s.active).buffer 0).activeWriters = 0
      simp [ha, State.leave, State.advance, State.enter, hz, add32, sub32]
    · change ((((s.enter s.active).advance s.active _).leave s.active).buffer 0).writeOffset = _
      simp only [ha, leave_writeOffset, congrFun (advance_writeOffset _ _ _) _, update_self, enter_writeOffset,
        hoff, hlen, add64]
      omega
  · apply refuse_reaches solo () ev hw (by decide) hfit
    · rw [ha, hz]; decide
    · rw [ha, hoff, hlen]; omega
    · rw [ha, hoff, hlen, bufferCapacity]; omega

/-- A thread that logs too large records often enough moves `write_offset` up to its wrap. -/
theorem reaches_refusedTimes (n : Nat) (hn : n < 2 ^ 33) :
    ∃ s, Reaches (step solo) Regular (init Unit) s ∧ RefusedTimes n s := by
  induction n with
  | zero => exact ⟨init Unit, .refl, rfl, rfl, rfl, rfl⟩
  | succ n ih =>
    obtain ⟨s, hs, hr⟩ := ih (by omega)
    obtain ⟨hr', hstep⟩ := refused_again hfit hlen hr hn
    exact ⟨_, hs.trans hstep, hr'⟩

end

/-- With `2 ^ 33 - 1` refused reservations of two gigabytes in one epoch, and no
swap in between, the next one wraps `write_offset` and is granted beyond the
buffer. No drain loop of this run is left by its spin limit: there is none. -/
theorem reservation_granted_outside_buffer :
    ∃ s, Reaches (step solo) Drained (init Unit) s ∧ ∃ g ∈ s.log.grants, bufferCapacity < g.offset + g.len := by
  obtain ⟨bs, hbs⟩ : ∃ bs : List UInt8, bs.length = 2 ^ 31 - 24 := ⟨List.replicate _ 0, List.length_replicate⟩
  obtain ⟨ev, hev⟩ : ∃ ev : Event, ev.payload = bs := ⟨⟨1, bs, by omega⟩, rfl⟩
  have hfit : headerSize + ev.payload.length < 2 ^ 32 := by
    rw [hev, hbs]
    decide
  have hlen : ev.recordLen = 2 ^ 31 := by
    rw [ev.recordLen_eq hfit, hev, hbs]
    rfl
  obtain ⟨s, hs, ha, hw, hz, hoff⟩ := reaches_refusedTimes hfit hlen (2 ^ 33 - 1) (by decide)
  have henter := enter_reaches solo (s := s) () ev hw (by decide) hfit (by rw [ha, hz]; decide)
  have hgrant := reserve_step solo (s := s) () ev (by rw [ha, hoff, hlen]; decide)
  refine ⟨_, ((hs.trans henter).mono (fun _ _ hok => hok.1)).tail (a := Action.writer ()) trivial hgrant,
    s.extent s.active (s.buffer s.active).writeOffset ev.recordLen, ?_, ?_⟩
  · exact List.mem_append.mpr (Or.inr (List.mem_singleton.mpr rfl))
  · simp only [State.extent, ha, hoff, hlen]
    decide

/-- A range a worker has measured and is handing over is still reserved and not committed. -/
def HandsOverReserved (s : State ι) : Prop :=
  ∃ b len t e, s.worker.measured = some (b, len) ∧ (s.writers t).held s.log.resets = some e ∧ e.buf = b ∧ e.offset < len

/-- The offset of a buffer is about to be reset under a registered writer. -/
def ResetsRegistered (s : State ι) : Prop :=
  ∃ b t, s.worker = .recycle b ∧ (s.writers t).registered = some b

/-- The buffer between the end of its drain loop and its reset. -/
def Worker.drained : Worker → Option Nat
  | .drain _ _ => none
  | w => w.flushing

/-- Nobody registers in a buffer between the end of its drain loop and its reset. -/
def Unentered (s : State ι) : Action ι → Prop
  | .writer t =>
    match s.writers t with
    | .register _ _ current => s.worker.drained ≠ some (bufIdx current)
    | _ => True
  | _ => True

instance (s : State ι) (a : Action ι) : Decidable (Unentered s a) := by
  match a with
  | .writer t =>
    dsimp only [Unentered]
    refine (s.writers t).casesOn ?_ ?_ ?_ ?_ ?_ ?_ ?_ ?_ ?_ ?_ ?_ <;> intros <;> infer_instance
  | .call .. | .flush _ | .worker | .tick _ => exact instDecidableTrue

/-- Drains end on zero, counters do not wrap, and drained buffers are left alone. -/
def Quiet (s : State ι) (a : Action ι) : Prop := Regular s a ∧ Unentered s a

instance (s : State ι) (a : Action ι) : Decidable (Quiet s a) := by
  unfold Quiet
  infer_instance

def Vacated (s : State ι) : Prop := ∀ b, s.worker.drained = some b → ∀ t, (s.writers t).registered ≠ some b

omit [Fintype ι] in
/-- A writer is registered where it was before its step, or registers in it. -/
theorem writerStep_registered (t : ι) (hs : writerStep cfg s t = some s') (u : ι) (b : Nat)
    (hu : (s'.writers u).registered = some b) : (s.writers u).registered = some b ∨
      ∃ ev retry current, s.writers t = .register ev retry current ∧ bufIdx current = b := by
  have hwriters : ∃ w, s'.writers = update s.writers t w ∧ (w.registered = some b →
      (s.writers t).registered = some b ∨
        ∃ ev retry current, s.writers t = .register ev retry current ∧ bufIdx current = b) := by
    cases writerStep_cases hs with
    | register ev retry current hw => exact ⟨_, rfl, fun hr => Or.inr ⟨ev, retry, current, hw, Option.some.inj hr⟩⟩
    | verified _ _ _ hw | overtaken _ _ _ hw | grant _ _ hw | refuse _ _ hw | stamp _ _ _ hw | store _ _ _ _ hw =>
      exact ⟨_, rfl, fun hr => Or.inl (by rw [hw]; exact hr)⟩
    | load | retry | giveUp | abort | drop | ignore | commit | count => exact ⟨_, rfl, nofun⟩
  obtain ⟨w, hupd, hw⟩ := hwriters
  rw [hupd] at hu
  by_cases hut : u = t
  · subst hut
    exact hw (by simpa using hu)
  · exact Or.inl (by simpa [update_of_ne hut] using hu)

omit [DecidableEq ι] in
theorem workerStep_vacated (h : Vacated s) (hc : Control cfg s) (hd : Drained s .worker)
    (hs : workerStep s = some s') : Vacated s' := by
  intro b hb
  cases workerStep_cases hs with
  | load | skip | go | swap | spin | recycle => cases hb
  | drained b' spins hw hover =>
    simp only [Drained, hw] at hd
    obtain rfl := Option.some.inj hb
    have hz : (s.buffer b').activeWriters = 0 := by omega
    exact hc.drained b' hz
  | measure b' hw | empty b' hw | stream b' _ hw | read b' _ _ _ _ hw | total b' _ _ _ _ hw | write b' _ _ _ hw =>
    obtain rfl := Option.some.inj hb
    exact h b' (by rw [hw]; rfl)

theorem step_vacated (h : Vacated s) (hc : Control cfg s) (a : Action ι) (hd : Drained s a) (hu : Unentered s a)
    (hs : step cfg s a = some s') : Vacated s' := by
  cases step_cases hs with
  | unranked | tick => exact h
  | call t ev =>
    intro b hb
    exact (forall_update_iff s.writers fun _ w => w.registered ≠ some b).mpr ⟨nofun, fun u _ => h b hb u⟩
  | writer t _ hs =>
    intro b hb u hr
    rw [(writerStep_frame t hs).worker] at hb
    obtain hr | ⟨ev, retry, current, hw, hcur⟩ := writerStep_registered t hs u b hr
    · exact h b hb u hr
    · simp only [Unentered, hw, hcur] at hu
      exact hu hb
  | flush force =>
    intro b hb
    cases hb
  | worker _ hs => exact workerStep_vacated h hc hd hs

omit [DecidableEq ι] in
/-- Past a completed drain nobody holds or takes a reservation of the buffer,
even if a thread that has yet to fail its re-check is registered in it. -/
theorem Sound.not_handsOverReserved (h : Sound cfg s) : ¬ HandsOverReserved s := by
  rintro ⟨b, len, t, e, hm, he, rfl, -⟩
  obtain ⟨hf, hd⟩ := Worker.flushing_of_measured hm
  exact h.control.idle e.buf hf hd t e he rfl

/-- In every run that leaves its drain loops on a zero count, wraps no counter
and registers nobody in a drained buffer before its reset: no range is handed
over while it is reserved and not committed, and no offset is reset under a
registered writer. -/
theorem flush_waits_for_writers (cfg : ι → Thread) (s : State ι)
    (h : Reaches (step cfg) Quiet (init ι) s) :
    ¬ HandsOverReserved s ∧ ¬ ResetsRegistered s := by
  have hinv := h.invariant (fun s => Sound cfg s ∧ Vacated s) ⟨init_sound, nofun⟩
    (fun t a u ht hok hst => ⟨step_sound ht.1 a hok.1 hst, step_vacated ht.2 ht.1.control a hok.1.1 hok.2 hst⟩)
  refine ⟨hinv.1.not_handsOverReserved, ?_⟩
  rintro ⟨b, t, hw, hr⟩
  exact hinv.2 b (by rw [hw]; rfl) t hr

theorem flush_waits_for_writers_solo :
    ∃ s, run (step solo) Quiet (init Unit) (logSteps () probe ++ flushSteps false) = some s ∧
      ¬ HandsOverReserved s ∧ ¬ ResetsRegistered s := by
  have hrun : (run (step solo) Quiet (init Unit) (logSteps () probe ++ flushSteps false)).isSome := by
    decide +kernel
  obtain ⟨s, hs⟩ := Option.isSome_iff_exists.mp hrun
  exact ⟨s, hs, flush_waits_for_writers solo s (reaches_of_run _ hs)⟩

/-- A reservation, a swap, and 500 spins of the worker that find the thread still registered. -/
def abandon : List (Action Unit) :=
  reserveSteps () probe ++ swapSteps false ++ List.replicate (spinLimit + 2) .worker

/-- A thread that stays between its reservation and its commit for 500 spins of
the worker: its range is handed over, and the buffer is reset under it. -/
theorem flush_gives_up_on_writer :
    (∃ s, Reaches (step solo) (fun _ _ => True) (init Unit) s ∧ HandsOverReserved s) ∧
      ∃ s, Reaches (step solo) (fun _ _ => True) (init Unit) s ∧ ResetsRegistered s := by
  constructor
  · have hrun : (run (step solo) (fun _ _ => True) (init Unit) abandon).map
        (fun s => (s.worker, (s.writers ()).held s.log.resets)) = some (.stream 0 24, some ⟨0, 0, 0, 24⟩) := by
      decide +kernel
    obtain ⟨s, hs, hlog⟩ := Option.map_eq_some_iff.mp hrun
    obtain ⟨hworker, hheld⟩ := Prod.mk.inj hlog
    exact ⟨s, reaches_of_run _ hs, 0, 24, (), _, by rw [hworker]; rfl, hheld, rfl, by decide⟩
  · have hrun : (run (step solo) (fun _ _ => True) (init Unit)
        (abandon ++ List.replicate (1 + maxLocalRanks + 2) .worker)).map
        (fun s => (s.worker, (s.writers ()).registered)) = some (.recycle 0, some 0) := by
      decide +kernel
    obtain ⟨s, hs, hlog⟩ := Option.map_eq_some_iff.mp hrun
    obtain ⟨hworker, hreg⟩ := Prod.mk.inj hlog
    exact ⟨s, reaches_of_run _ hs, 0, (), hworker, hreg⟩

end ShmBuffer
