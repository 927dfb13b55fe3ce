import Ubpftrace.ShmControl

/-!
# The double buffer keeps a reservation ledger

Reading a state of the protocol as a ledger of `EpochLedger`, every step that
does not wrap a counter and does not leave the drain loop by its spin limit is
a step of the ledger or leaves it as it is. The guards of the ledger, that
nobody holds an extent of a buffer that is flushed or reset, are what the
control invariant gives.
-/

namespace ShmBuffer

open EventRecord EpochLedger Function
open Bytes (Holds)

/-- The extent between its reservation and its commit. -/
def Writer.held (resets : Nat → Nat) : Writer → Option Extent
  | .stamp ev b offset => some ⟨b, resets b, offset, ev.recordLen⟩
  | .write rec b offset _ => some ⟨b, resets b, offset, rec.bytes.length⟩
  | _ => none

def Chunk.flush (c : Chunk) : Flush := ⟨c.buf, c.gen, c.len, c.data⟩

variable {ι : Type}

def ledger (s : State ι) : Ledger ι where
  top b := (s.buffer b).writeOffset
  resets := s.log.resets
  data b := (s.buffer b).data
  held t := (s.writers t).held s.log.resets
  grants := s.log.grants
  commits := s.log.commits.map fun c => (c.extent, c.record.bytes)
  flushes := s.log.chunks.map Chunk.flush

/-- The bytes a writer has stored so far still stand in its extent. -/
def Progress (s : State ι) : Prop :=
  ∀ t rec b offset done, s.writers t = .write rec b offset done →
    done ≤ rec.bytes.length ∧ Holds (s.buffer b).data offset (rec.bytes.take done)

/-- The length the worker has measured and still uses. -/
def Worker.measured : Worker → Option (Nat × Nat)
  | .stream b len => some (b, len)
  | .stats b len _ _ _ => some (b, len)
  | .write b len _ _ => some (b, len)
  | _ => none

/-- How far the flush of the running epoch has come. -/
structure Phase (s : State ι) : Prop where
  measured : ∀ b len, s.worker.measured = some (b, len) → len = min (s.buffer b).writeOffset bufferCapacity
  unflushed : ∀ c ∈ s.log.chunks, c.gen = s.log.resets c.buf → s.worker = .recycle c.buf
  flushed : ∀ b, s.worker = .recycle b →
    (s.buffer b).writeOffset = 0 ∨ ∃ c ∈ s.log.chunks, c.buf = b ∧ c.gen = s.log.resets b

theorem Writer.held_buf {w : Writer} {resets : Nat → Nat} {e : Extent} (h : w.held resets = some e) :
    w.entered = some e.buf := by
  cases w <;> simp [Writer.held, Writer.entered] at h ⊢ <;> simp [← h]

theorem Writer.held_congr (w : Writer) (resets resets' : Nat → Nat)
    (h : ∀ b, w.entered = some b → resets' b = resets b) : w.held resets' = w.held resets := by
  cases w <;> simp [Writer.held, Writer.entered] at h ⊢ <;> exact h

theorem Event.recordLen_eq (ev : Event) (h : headerSize + ev.payload.length < 2 ^ 32) :
    ev.recordLen = headerSize + ev.payload.length := Nat.mod_eq_of_lt h

theorem Event.recordLen_stamp (ev : Event) (h : headerSize + ev.payload.length < 2 ^ 32) (rank : UInt32)
    (now : Nat) : (ev.stamp rank now).bytes.length = ev.recordLen := by
  rw [length_bytes, ev.recordLen_eq h]
  rfl

/-- States that agree on offsets, bytes, holders and history have one ledger. -/
theorem ledger_congr (s s' : State ι) (htop : ∀ b, (s'.buffer b).writeOffset = (s.buffer b).writeOffset)
    (hdata : ∀ b, (s'.buffer b).data = (s.buffer b).data) (hlog : s'.log.resets = s.log.resets)
    (hheld : ∀ t, (s'.writers t).held s.log.resets = (s.writers t).held s.log.resets)
    (hgrants : s'.log.grants = s.log.grants) (hcommits : s'.log.commits = s.log.commits)
    (hchunks : s'.log.chunks = s.log.chunks) : ledger s' = ledger s := by
  refine Ledger.ext (funext htop) hlog (funext hdata) ?_ hgrants ?_ ?_
  · funext t
    change (s'.writers t).held s'.log.resets = _
    rw [hlog]
    exact hheld t
  · simp only [ledger, hcommits]
  · simp only [ledger, hchunks]

variable {s : State ι}

theorem holders_apart (hwf : WellFormed bufferCapacity (ledger s)) {t u : ι} (htu : t ≠ u) {e f : Extent}
    (ht : (ledger s).held t = some e) (hu : (ledger s).held u = some f) (hb : e.buf = f.buf) : e.Apart f := by
  have hk : e.key = f.key := by
    simp only [Extent.key, Prod.mk.injEq]
    exact ⟨hb, by rw [hwf.owned.held_now t e ht, hwf.owned.held_now u f hu, hb]⟩
  refine hwf.spaced.apart (hwf.owned.held_mem t e ht) (hwf.owned.held_mem u f hu) hk ?_
  intro he
  exact htu (hwf.owned.held_inj t u e ht (he ▸ hu))

variable {s' : State ι}

theorem Progress.of_data (hp : Progress s) (hdata : ∀ b, (s'.buffer b).data = (s.buffer b).data)
    (hwriters : ∀ t rec b offset done, s'.writers t = .write rec b offset done →
      done = 0 ∨ s.writers t = .write rec b offset done) : Progress s' := by
  intro t rec b offset done hw
  rw [hdata b]
  obtain rfl | hw := hwriters t rec b offset done hw
  · exact ⟨Nat.zero_le _, by simp⟩
  · exact hp t rec b offset done hw

/-- A chunk of the running epoch exists only while its buffer waits for the reset. -/
theorem Phase.recycle_of_flushed (hph : Phase s) {f : Flush} (hf : f ∈ (ledger s).flushes) {b : Nat}
    (hk : f.key = (ledger s).now b) : s.worker = .recycle b := by
  obtain ⟨c, hcm, rfl⟩ := List.mem_map.mp hf
  simp only [Chunk.flush, Flush.key, Ledger.now, ledger, Prod.mk.injEq] at hk
  rw [← hk.1]
  exact hph.unflushed c hcm (by rw [hk.2, hk.1])

variable [DecidableEq ι]

/-- A thread that is not left writing, or starts to, has nothing of its own to keep. -/
theorem Progress.move (hp : Progress s) {s₁ : State ι} (t : ι) (w : Writer) (hwriters : s₁.writers = s.writers)
    (hdata : ∀ b, (s₁.buffer b).data = (s.buffer b).data)
    (hw : ∀ rec b offset done, w = .write rec b offset done → done = 0) : Progress (s₁.setWriter t w) := by
  refine hp.of_data hdata ?_
  intro u rec b offset done hu
  change update s₁.writers t w u = _ at hu
  by_cases hut : u = t
  · subst hut
    exact Or.inl (hw rec b offset done (by simpa using hu))
  · exact Or.inr (by simpa [update_of_ne hut, hwriters] using hu)

theorem held_update (writers : ι → Writer) (resets : Nat → Nat) (t : ι) (w : Writer) :
    (fun u => (update writers t w u).held resets) =
      update (fun u => (writers u).held resets) t (w.held resets) := by
  funext u
  by_cases hu : u = t
  · subst hu; simp
  · simp [update_of_ne hu]

theorem held_update_same (writers : ι → Writer) (resets : Nat → Nat) (t : ι) (w : Writer)
    (h : w.held resets = (writers t).held resets) (u : ι) :
    (update writers t w u).held resets = (writers u).held resets := by
  by_cases hu : u = t
  · subst hu; simpa using h
  · simp [update_of_ne hu]

/-- Storing the next byte leaves what every other writer has stored. -/
theorem store_progress (hp : Progress s) (hwf : WellFormed bufferCapacity (ledger s)) (t : ι) (rec : Record)
    (b offset done : Nat) (hw : s.writers t = .write rec b offset done) (hlen : done < rec.bytes.length) :
    Progress ((s.store b (offset + done) rec.bytes[done]).setWriter t (.write rec b offset (done + 1))) := by
  obtain ⟨hle, hstored⟩ := hp t rec b offset done hw
  intro u rec' b' offset' done' hu
  change update s.writers t _ u = _ at hu
  change _ ∧ Holds ((s.store b (offset + done) rec.bytes[done]).buffer b').data _ _
  have hd := congrFun (store_data s b (offset + done) rec.bytes[done]) b'
  rw [hd]
  by_cases hut : u = t
  · subst hut
    simp only [update_self, Writer.write.injEq] at hu
    obtain ⟨rfl, rfl, rfl, rfl⟩ := hu
    refine ⟨hlen, ?_⟩
    rw [update_self, List.take_add_one, List.getElem?_eq_getElem hlen, Bytes.holds_append]
    constructor
    · refine Bytes.holds_congr _ _ _ _ ?_ hstored
      intro i hi
      rw [List.length_take] at hi
      rw [update_of_ne (by omega)]
    · rw [List.length_take, Nat.min_eq_left hle]
      intro i hi
      simp only [Option.toList_some, List.length_singleton] at hi
      obtain rfl : i = 0 := by omega
      simp
  · rw [update_of_ne hut] at hu
    obtain ⟨hle', hstored'⟩ := hp u rec' b' offset' done' hu
    refine ⟨hle', ?_⟩
    by_cases hb : b' = b
    · subst hb
      have hap := holders_apart hwf hut (e := ⟨b', s.log.resets b', offset', rec'.bytes.length⟩)
        (f := ⟨b', s.log.resets b', offset, rec.bytes.length⟩)
        (by simp [ledger, hu, Writer.held]) (by simp [ledger, hw, Writer.held]) rfl
      rw [update_self]
      refine Bytes.holds_congr _ _ _ _ ?_ hstored'
      intro i hi
      rw [List.length_take] at hi
      rw [update_of_ne]
      simp only [Extent.Apart] at hap
      omega
    · rw [update_of_ne hb]
      exact hstored'

theorem writerStep_progress {cfg : ι → Thread} (hp : Progress s) (hwf : WellFormed bufferCapacity (ledger s)) (t : ι)
    (hs : writerStep cfg s t = some s') : Progress s' := by
  cases writerStep_cases hs with
  | load | verified | overtaken | drop | ignore | count => exact hp.move t _ rfl (fun _ => rfl) nofun
  | register => exact hp.move t _ rfl (fun c => enter_data s _ c) nofun
  | retry | giveUp | abort | commit => exact hp.move t _ rfl (fun c => leave_data s _ c) nofun
  | grant | refuse => exact hp.move t _ rfl (fun c => advance_data s _ _ c) nofun
  | stamp =>
    refine hp.move t _ rfl (fun _ => rfl) ?_
    intro rec b offset done he
    injection he with _ _ _ hd
    exact hd.symm
  | store rec b offset done hw hlen => exact store_progress hp hwf t rec b offset done hw hlen

theorem step_progress (cfg : ι → Thread) (hp : Progress s) (hwf : WellFormed bufferCapacity (ledger s)) (a : Action ι)
    (hs : step cfg s a = some s') : Progress s' := by
  cases step_cases hs with
  | unranked | flush | tick => exact hp
  | call t => exact hp.move t _ rfl (fun _ => rfl) nofun
  | writer t _ hs => exact writerStep_progress hp hwf t hs
  | worker _ hs =>
    cases workerStep_cases hs with
    | recycle b => exact hp.of_data (fun c => reset_data s b c) (fun _ _ _ _ _ hu => Or.inr hu)
    | _ => exact hp

variable [Fintype ι] {cfg : ι → Thread}

theorem grant_ledger (hc : Control cfg s) (hph : Phase s) (t : ι) (ev : Event) (b : Nat)
    (hw : s.writers t = .reserve ev b) (hn : (s.buffer b).writeOffset + ev.recordLen < 2 ^ 64)
    (hroom : add64 (s.buffer b).writeOffset ev.recordLen ≤ bufferCapacity) :
    Step bufferCapacity (ledger s) (ledger (((s.advance b ev.recordLen).logGrant
      (s.extent b (s.buffer b).writeOffset ev.recordLen)).setWriter t (.stamp ev b (s.buffer b).writeOffset))) := by
  have hfit := hc.fits t
  rw [hw] at hfit
  rw [add64_eq hn] at hroom
  have hopen : ∀ f ∈ (ledger s).flushes, f.key ≠ (ledger s).now b := by
    intro f hf hk
    have hrec := hph.recycle_of_flushed hf hk
    have hsum := hc.flushing b (by rw [hrec]; rfl)
    obtain hb | ⟨n, hn'⟩ := hc.entered t b (by rw [hw]; rfl)
    · omega
    · rw [hrec] at hn'
      cases hn'
  have hstep : Step bufferCapacity (ledger s) _ := .grant t b ev.recordLen
    (by simp [ledger, hw, Writer.held])
    (by rw [ev.recordLen_eq hfit]; simp only [headerSize]; omega) hroom hopen
  convert hstep using 1
  refine Ledger.ext ?_ rfl (funext fun c => advance_data s b ev.recordLen c) ?_ rfl rfl rfl
  · exact (advance_writeOffset s b ev.recordLen).trans (by rw [add64_eq hn]; rfl)
  · exact held_update s.writers s.log.resets t (.stamp ev b (s.buffer b).writeOffset)

omit [Fintype ι] in
theorem refuse_ledger (t : ι) (ev : Event) (b : Nat) (hw : s.writers t = .reserve ev b)
    (hn : (s.buffer b).writeOffset + ev.recordLen < 2 ^ 64)
    (hfull : ¬ add64 (s.buffer b).writeOffset ev.recordLen ≤ bufferCapacity) :
    Step bufferCapacity (ledger s) (ledger ((s.advance b ev.recordLen).setWriter t (.abort b))) := by
  rw [add64_eq hn] at hfull
  have hstep : Step bufferCapacity (ledger s) _ := .overflow b ev.recordLen
    (by simpa [ledger] using hfull)
  convert hstep using 1
  refine Ledger.ext ?_ rfl (funext fun c => advance_data s b ev.recordLen c) ?_ rfl rfl rfl
  · exact (advance_writeOffset s b ev.recordLen).trans (by rw [add64_eq hn]; rfl)
  · funext u
    exact held_update_same s.writers s.log.resets t _ (by simp [hw, Writer.held]) u

omit [Fintype ι] in
theorem store_ledger (t : ι) (rec : Record) (b offset done : Nat) (hw : s.writers t = .write rec b offset done)
    (hlen : done < rec.bytes.length) :
    Step bufferCapacity (ledger s)
      (ledger ((s.store b (offset + done) rec.bytes[done]).setWriter t (.write rec b offset (done + 1)))) := by
  have hstep : Step bufferCapacity (ledger s) _ :=
    .put t ⟨b, s.log.resets b, offset, rec.bytes.length⟩ done rec.bytes[done] (by simp [ledger, hw, Writer.held]) hlen
  convert hstep using 1
  refine Ledger.ext (funext fun c => store_writeOffset s b _ c _) rfl (store_data s b _ _) ?_ rfl rfl rfl
  funext u
  exact held_update_same s.writers s.log.resets t _ (by simp [hw, Writer.held]) u

omit [Fintype ι] in
theorem commit_ledger (hp : Progress s) (t : ι) (rec : Record) (b offset done rank : Nat)
    (hw : s.writers t = .write rec b offset done) (hall : ¬ done < rec.bytes.length) :
    Step bufferCapacity (ledger s)
      (ledger (((s.leave b).logCommit ⟨s.extent b offset rec.bytes.length, rec, rank⟩).setWriter t .count)) := by
  obtain ⟨hle, hstored⟩ := hp t rec b offset done hw
  rw [List.take_of_length_le (by omega)] at hstored
  have hstep : Step bufferCapacity (ledger s) _ :=
    .commit t ⟨b, s.log.resets b, offset, rec.bytes.length⟩ rec.bytes (by simp [ledger, hw, Writer.held]) rfl hstored
  convert hstep using 1
  refine Ledger.ext (funext fun c => leave_writeOffset s b c) rfl (funext fun c => leave_data s b c) ?_ rfl ?_ rfl
  · exact held_update s.writers s.log.resets t .count
  · exact List.map_append

theorem writerStep_ledger (hc : Control cfg s) (hp : Progress s) (hph : Phase s) (t : ι)
    (hok : NoWrap s (.writer t)) (hs : writerStep cfg s t = some s') :
    ledger s' = ledger s ∨ Step bufferCapacity (ledger s) (ledger s') := by
  have hsame : ∀ w, w.held s.log.resets = (s.writers t).held s.log.resets →
      ∀ u, (update s.writers t w u).held s.log.resets = (s.writers u).held s.log.resets :=
    fun w h u => held_update_same s.writers s.log.resets t w h u
  cases writerStep_cases hs with
  | load _ _ hw | verified _ _ _ hw | overtaken _ _ _ hw | drop hw | count hw =>
    exact Or.inl (ledger_congr s _ (fun _ => rfl) (fun _ => rfl) rfl (hsame _ (by rw [hw]; rfl)) rfl rfl rfl)
  | register ev retry current hw =>
    exact Or.inl (ledger_congr s _ (fun c => enter_writeOffset s _ c) (fun c => enter_data s _ c) rfl
      (hsame _ (by rw [hw]; rfl)) rfl rfl rfl)
  | retry _ _ _ hw | giveUp _ _ _ hw | abort _ hw =>
    exact Or.inl (ledger_congr s _ (fun c => leave_writeOffset s _ c) (fun c => leave_data s _ c) rfl
      (hsame _ (by rw [hw]; rfl)) rfl rfl rfl)
  | grant ev b hw hroom =>
    simp only [NoWrap, hw] at hok
    exact Or.inr (grant_ledger hc hph t ev b hw hok hroom)
  | refuse ev b hw hfull =>
    simp only [NoWrap, hw] at hok
    exact Or.inr (refuse_ledger t ev b hw hok hfull)
  | stamp ev b offset hw =>
    have hfit := hc.fits t
    rw [hw] at hfit
    refine Or.inl (ledger_congr s _ (fun _ => rfl) (fun _ => rfl) rfl (hsame _ ?_) rfl rfl rfl)
    simp only [hw, Writer.held, ev.recordLen_stamp hfit]
  | store rec b offset done hw hlen => exact Or.inr (store_ledger t rec b offset done hw hlen)
  | ignore rec b offset done hw hbad => exact absurd hbad (hc.accepts hw)
  | commit rec b offset done hw hall => exact Or.inr (commit_ledger hp t rec b offset done _ hw hall)

omit [DecidableEq ι] in
/-- Nobody holds an extent of the buffer a worker past its drain loop is in. -/
theorem Control.idle (hc : Control cfg s) (b : Nat) (hf : s.worker.flushing = some b)
    (hd : ∀ n, s.worker ≠ .drain b n) : (ledger s).Idle b := by
  intro t e he hb
  have hent := Writer.held_buf he
  rw [hb] at hent
  exact hc.alone b hf hd t hent

theorem workerStep_ledger (hc : Control cfg s) (hph : Phase s) (hs : workerStep s = some s') :
    ledger s' = ledger s ∨ Step bufferCapacity (ledger s) (ledger s') := by
  cases workerStep_cases hs with
  | write b len dropped recorded hw =>
    have hidle := hc.idle b (by rw [hw]; rfl) (by simp [hw])
    have hlen := hph.measured b len (by rw [hw]; rfl)
    have hnew : ∀ f ∈ (ledger s).flushes, f.key ≠ (ledger s).now b := by
      intro f hf hk
      have hrec := hph.recycle_of_flushed hf hk
      rw [hw] at hrec
      cases hrec
    have hstep : Step bufferCapacity (ledger s) _ := .flush b hidle hnew
    right
    convert hstep using 1
    refine Ledger.ext rfl rfl rfl rfl rfl rfl ?_
    simp only [ledger, List.map_append, List.map_cons, List.map_nil, Chunk.flush, hlen]
  | recycle b hw =>
    have hidle := hc.idle b (by rw [hw]; rfl) (by simp [hw])
    have hdone : (ledger s).top b = 0 ∨ ∃ f ∈ (ledger s).flushes, f.key = (ledger s).now b := by
      obtain hz | ⟨c, hcm, hb, hg⟩ := hph.flushed b hw
      · exact Or.inl hz
      · refine Or.inr ⟨c.flush, List.mem_map.mpr ⟨c, hcm, rfl⟩, ?_⟩
        simp [Chunk.flush, Flush.key, Ledger.now, ledger, hb, hg]
    have hstep : Step bufferCapacity (ledger s) _ := .reset b hidle hdone
    right
    convert hstep using 1
    refine Ledger.ext (reset_writeOffset s b) rfl (funext fun c => reset_data s b c) ?_ rfl rfl rfl
    funext t
    apply Writer.held_congr
    intro c hent
    have hne : c ≠ b := by
      intro hcb
      rw [hcb] at hent
      exact hc.alone b (by rw [hw]; rfl) (by simp [hw]) t hent
    exact update_of_ne hne _ _
  | _ => exact Or.inl rfl

theorem step_ledger (hc : Control cfg s) (hp : Progress s) (hph : Phase s) (a : Action ι) (hn : NoWrap s a)
    (hs : step cfg s a = some s') :
    ledger s' = ledger s ∨ Step bufferCapacity (ledger s) (ledger s') := by
  cases step_cases hs with
  | unranked | flush | tick => exact Or.inl rfl
  | call t ev hw =>
    exact Or.inl (ledger_congr s _ (fun _ => rfl) (fun _ => rfl) rfl
      (held_update_same s.writers s.log.resets t _ (by rw [hw]; rfl)) rfl rfl rfl)
  | writer t _ hs => exact writerStep_ledger hc hp hph t hn hs
  | worker _ hs => exact workerStep_ledger hc hph hs

omit [DecidableEq ι] [Fintype ι] in
/-- What a writer's step leaves alone: the active word, the worker, the chunks,
the epochs, and the offset of every buffer the writer is not in. -/
structure WriterFrame (s s' : State ι) (t : ι) : Prop where
  word : s'.shm.activeEpochBuffer = s.shm.activeEpochBuffer
  worker : s'.worker = s.worker
  chunks : s'.log.chunks = s.log.chunks
  resets : s'.log.resets = s.log.resets
  offset : ∀ c, (s.writers t).entered ≠ some c → (s'.buffer c).writeOffset = (s.buffer c).writeOffset

omit [Fintype ι] in
theorem writerStep_frame (t : ι) (hs : writerStep cfg s t = some s') : WriterFrame s s' t := by
  -- a reservation moves the offset of the buffer its thread is in
  have hother : ∀ ev b, s.writers t = .reserve ev b → ∀ c, (s.writers t).entered ≠ some c →
      ((s.advance b ev.recordLen).buffer c).writeOffset = (s.buffer c).writeOffset := by
    intro ev b hw c hc
    have hcb : c ≠ b := fun he => hc (by rw [he, hw]; rfl)
    rw [congrFun (advance_writeOffset s b ev.recordLen) c, update_of_ne hcb]
  cases writerStep_cases hs with
  | load | verified | overtaken | drop | stamp | ignore | count => exact ⟨rfl, rfl, rfl, rfl, fun _ _ => rfl⟩
  | register => exact ⟨rfl, rfl, rfl, rfl, fun c _ => enter_writeOffset s _ c⟩
  | retry | giveUp | abort | commit => exact ⟨rfl, rfl, rfl, rfl, fun c _ => leave_writeOffset s _ c⟩
  | grant ev b hw | refuse ev b hw => exact ⟨rfl, rfl, rfl, rfl, hother ev b hw⟩
  | store rec b => exact ⟨rfl, rfl, rfl, rfl, fun c _ => store_writeOffset s b _ c _⟩

theorem Worker.flushing_of_measured {w : Worker} {b len : Nat} (h : w.measured = some (b, len)) :
    w.flushing = some b ∧ ∀ n, w ≠ .drain b n := by
  cases w <;> simp [Worker.measured, Worker.flushing] at h ⊢ <;> exact h.1

theorem writerStep_phase (hc : Control cfg s) (hph : Phase s) (t : ι)
    (hs : writerStep cfg s t = some s') : Phase s' := by
  obtain ⟨-, hworker, hchunks, hresets, hoffset⟩ := writerStep_frame t hs
  constructor
  · intro b len hm
    rw [hworker] at hm
    obtain ⟨hf, hd⟩ := Worker.flushing_of_measured hm
    rw [hoffset b (hc.alone b hf hd t)]
    exact hph.measured b len hm
  · intro c hcm hg
    rw [hworker]
    exact hph.unflushed c (hchunks ▸ hcm) (by rw [← hresets]; exact hg)
  · intro b hb
    rw [hworker] at hb
    rw [hoffset b (hc.alone b (by rw [hb]; rfl) (by simp [hb]) t), hchunks, hresets]
    exact hph.flushed b hb

omit [DecidableEq ι] [Fintype ι] in
theorem workerStep_phase (hph : Phase s) (hwf : WellFormed bufferCapacity (ledger s))
    (hs : workerStep s = some s') : Phase s' := by
  -- before a chunk is written there is none of the running epochs
  have hnone : (∀ b, s.worker ≠ .recycle b) → ∀ c ∈ s.log.chunks, c.gen ≠ s.log.resets c.buf :=
    fun hr c hcm hg => hr c.buf (hph.unflushed c hcm hg)
  -- from the measurement to the chunk the length stays what was measured
  have hkeep : ∀ b len, s.worker.measured = some (b, len) → ∀ c len', some (b, len) = some (c, len') →
      len' = min (s.buffer c).writeOffset bufferCapacity := by
    intro b len hm c len' he
    rw [he] at hm
    exact hph.measured c len' hm
  cases workerStep_cases hs with
  | load _ hw | skip _ _ hw | go _ _ hw | swap _ hw | spin _ _ hw | drained _ _ hw =>
    exact ⟨nofun, fun c hcm hg => absurd hg (hnone (by simp [hw]) c hcm), nofun⟩
  | measure b hw =>
    refine ⟨?_, fun c hcm hg => absurd hg (hnone (by simp [hw]) c hcm), nofun⟩
    intro c len hm
    simp only [Worker.measured, Option.some.injEq, Prod.mk.injEq] at hm
    rw [← hm.1, ← hm.2]
    rfl
  | empty b hw hz =>
    refine ⟨nofun, fun c hcm hg => absurd hg (hnone (by simp [hw]) c hcm), ?_⟩
    intro c hr
    injection hr with hr
    left
    rw [← hr]
    simp only [bufferCapacity] at hz
    change (s.buffer b).writeOffset = 0
    omega
  | stream b len hw | read b len _ _ _ hw | total b len _ _ _ hw =>
    exact ⟨hkeep b len (by rw [hw]; rfl), fun c hcm hg => absurd hg (hnone (by simp [hw]) c hcm), nofun⟩
  | write b len dropped recorded hw =>
    refine ⟨nofun, ?_, ?_⟩
    · intro c hcm hg
      simp only [List.mem_append, List.mem_singleton] at hcm
      obtain hcm | rfl := hcm
      · exact absurd hg (hnone (by simp [hw]) c hcm)
      · rfl
    · intro c hr
      injection hr with hr
      subst hr
      exact Or.inr ⟨_, List.mem_append.mpr (Or.inr (List.mem_singleton.mpr rfl)), rfl, rfl⟩
  | recycle b hw =>
    have hgen : ∀ c ∈ s.log.chunks, c.gen = s.log.resets c.buf → c.buf = b := by
      intro c hcm hg
      have := hph.unflushed c hcm hg
      rw [hw] at this
      injection this with this
      exact this.symm
    refine ⟨nofun, ?_, nofun⟩
    intro c hcm hg
    change c.gen = update s.log.resets b (s.log.resets b + 1) c.buf at hg
    have hle : c.gen ≤ s.log.resets c.buf :=
      hwf.stored.flush_gen c.flush (List.mem_map.mpr ⟨c, hcm, rfl⟩)
    by_cases hb : c.buf = b
    · rw [hb, update_self] at hg
      rw [hb] at hle
      omega
    · rw [update_of_ne hb] at hg
      exact absurd (hgen c hcm hg) hb

theorem step_phase (hc : Control cfg s) (hph : Phase s) (hwf : WellFormed bufferCapacity (ledger s)) (a : Action ι)
    (hs : step cfg s a = some s') : Phase s' := by
  cases step_cases hs with
  | unranked | call | tick => exact { hph with }
  | writer t _ hs => exact writerStep_phase hc hph t hs
  | flush force hw =>
    refine ⟨nofun, ?_, nofun⟩
    intro c hcm hg
    have := hph.unflushed c hcm hg
    rw [hw] at this
    cases this
  | worker _ hs => exact workerStep_phase hph hwf hs

/-- What holds in every state of a run whose drains complete and whose counters do not wrap. -/
structure Sound (cfg : ι → Thread) (s : State ι) : Prop where
  control : Control cfg s
  ledger : WellFormed bufferCapacity (ledger s)
  progress : Progress s
  phase : Phase s

def Regular (s : State ι) (a : Action ι) : Prop := Drained s a ∧ NoWrap s a

theorem step_sound (h : Sound cfg s) (a : Action ι) (hok : Regular s a)
    (hs : step cfg s a = some s') : Sound cfg s' := by
  refine ⟨step_control h.control a hok.1 hok.2 hs, ?_, step_progress cfg h.progress h.ledger a hs,
    step_phase h.control h.phase h.ledger a hs⟩
  obtain heq | hstep := step_ledger h.control h.progress h.phase a hok.2 hs
  · rw [heq]
    exact h.ledger
  · exact step_wellFormed h.ledger hstep

omit [DecidableEq ι] in
theorem init_sound : Sound cfg (init ι) := by
  refine ⟨init_control, ⟨?_, ?_, ?_⟩, nofun, ⟨nofun, nofun, nofun⟩⟩
  · refine ⟨nofun, nofun, ?_, ?_⟩
    · intro k
      exact ⟨0, Nat.zero_le _, rfl⟩
    · intro b e ht
      exact Or.inl ht
  · exact ⟨nofun, nofun, nofun, nofun, nofun, nofun, List.nodup_nil, nofun⟩
  · exact ⟨nofun, nofun, nofun, List.Pairwise.nil, nofun, nofun⟩

theorem reaches_sound (h : Runs.Reaches (step cfg) Regular (init ι) s) : Sound cfg s :=
  h.invariant (Sound cfg) init_sound fun _ a _ hs hok hst => step_sound hs a hok hst

end ShmBuffer
