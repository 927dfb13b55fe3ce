import Ubpftrace.ContainerRoundTrip
import Ubpftrace.ShmSafety

/-!
# The record counts of chunks and trailer

`recorded_events` counts the commits of a rank over the whole life of the
segment, and the worker writes the sum of these counters into every chunk. A
chunk's count is the number of its records as long as no record of another
epoch has been committed when the counters are read, and every commit has been
counted.
-/

namespace ShmBuffer

open EventRecord Container EpochLedger Function
open Bytes (slice length_slice)
open Runs (Reaches run reaches_of_run)

/-- The arguments `swap_and_flush` passes to `write_chunk`. -/
def Chunk.args (k : Chunk) : ChunkArgs where
  chunkType := chunkTypeEventStream
  data := slice k.data 0 (k.len % 2 ^ 32)
  data_lt := by rw [length_slice]; exact Nat.mod_lt _ (by decide)
  recordCount := .ofNat k.recordCount
  droppedCount := .ofNat k.droppedCount
  startNs := .ofNat k.startNs
  endNs := .ofNat k.endNs

/-- Every chunk is written and flushed. -/
def containerCalls (ks : List Chunk) : List Call := ks.flatMap fun k => [.writeChunk k.args, .flush]

/-- Between its commit and the increment of `recorded_events`. -/
def Writer.counting : Writer → Bool
  | .count => true
  | _ => false

variable {ι : Type}

/-- The records committed into one epoch of a buffer. -/
def epochCommits (s : State ι) (key : Nat × Nat) : List Commit := s.log.commits.filter (·.extent.key = key)

def recordsIn (s : State ι) (key : Nat × Nat) : Nat := (epochCommits s key).length

/-- Those among them that threads of the first `r` ranks committed. -/
def recordsBelow (s : State ι) (key : Nat × Nat) (r : Nat) : Nat := (epochCommits s key).countP (·.localRank < r)

def committedBy (s : State ι) (r : Nat) : Nat := s.log.commits.countP (·.localRank = r)

/-- When the worker reads the counters of a rank, every commit so far is one of
the epoch it flushes, and no thread of that rank has yet to count its commit. -/
def Separate (cfg : ι → Thread) (s : State ι) : Action ι → Prop
  | .worker =>
    match s.worker with
    | .stats b _ r _ _ => r < maxLocalRanks →
      (∀ c ∈ s.log.commits, c.extent.key = (b, s.log.resets b)) ∧
        ∀ t, (cfg t).localRank = r → (s.writers t).counting = false
    | _ => True
  | _ => True

def Exclusive (cfg : ι → Thread) (s : State ι) (a : Action ι) : Prop := Regular s a ∧ Separate cfg s a

instance [Fintype ι] (cfg : ι → Thread) (s : State ι) (a : Action ι) : Decidable (Separate cfg s a) := by
  match a with
  | .worker =>
    dsimp only [Separate]
    refine s.worker.casesOn ?_ ?_ ?_ ?_ ?_ ?_ ?_ ?_ ?_ ?_ <;> intros <;> infer_instance
  | .call .. | .writer _ | .flush _ | .tick _ => exact instDecidableTrue

instance [Fintype ι] (cfg : ι → Thread) (s : State ι) (a : Action ι) : Decidable (Exclusive cfg s a) := by
  unfold Exclusive
  infer_instance

def countingOf [Fintype ι] (cfg : ι → Thread) (writers : ι → Writer) (r : Nat) : Nat :=
  ∑ t, if (writers t).counting = true ∧ (cfg t).localRank = r then 1 else 0

/-- Each counter is the number of its rank's commits less those yet to be counted. -/
def Tally [Fintype ι] (cfg : ι → Thread) (s : State ι) : Prop :=
  ∀ r, ∃ x, (s.shm.rankStats r).recordedEvents = x % 2 ^ 64 ∧ x + countingOf cfg s.writers r = committedBy s r

variable [DecidableEq ι] {cfg : ι → Thread} {s : State ι}

/-- What a writer's step does to commits and counters: nothing, the commit of a
record, or its count. -/
inductive CommitMove (cfg : ι → Thread) (s : State ι) (t : ι) (w : Writer) (s' : State ι) : Prop where
  | silent (commits : s'.log.commits = s.log.commits) (after : w.counting = false)
      (before : (s.writers t).counting = false)
      (stats : ∀ r, (s'.shm.rankStats r).recordedEvents = (s.shm.rankStats r).recordedEvents)
  | commit (c : Commit) (commits : s'.log.commits = s.log.commits ++ [c]) (rank : c.localRank = (cfg t).localRank)
      (ranked : c.localRank < maxLocalRanks) (entered : (s.writers t).entered = some c.extent.buf)
      (current : c.extent.gen = s.log.resets c.extent.buf) (after : w.counting = true)
      (before : (s.writers t).counting = false) (stats : s'.shm.rankStats = s.shm.rankStats)
  | count (commits : s'.log.commits = s.log.commits) (after : w.counting = false)
      (before : (s.writers t).counting = true)
      (stats : ∀ r, (s'.shm.rankStats r).recordedEvents = if r = (cfg t).localRank then
        add64 (s.shm.rankStats r).recordedEvents 1 else (s.shm.rankStats r).recordedEvents)

variable {s' : State ι}

theorem writerStep_commits (t : ι) (hs : writerStep cfg s t = some s') :
    ∃ w, s'.writers = update s.writers t w ∧ CommitMove cfg s t w s' := by
  cases writerStep_cases hs with
  | load _ _ hw | register _ _ _ hw | verified _ _ _ hw | overtaken _ _ _ hw | retry _ _ _ hw | giveUp _ _ _ hw
  | grant _ _ hw | refuse _ _ hw | abort _ hw | stamp _ _ _ hw | store _ _ _ _ hw | ignore _ _ _ _ hw =>
    exact ⟨_, rfl, .silent rfl rfl (by rw [hw]; rfl) (fun _ => rfl)⟩
  | drop hw =>
    refine ⟨_, rfl, .silent rfl rfl (by rw [hw]; rfl) ?_⟩
    intro r
    change (update s.shm.rankStats (cfg t).localRank _ r).recordedEvents = _
    by_cases hr : r = (cfg t).localRank
    · subst hr; simp
    · simp [update_of_ne hr]
  | commit rec b offset done hw _ hgood =>
    have hrank : (cfg t).localRank < maxLocalRanks := by omega
    exact ⟨_, rfl, .commit _ rfl rfl hrank (by rw [hw]; rfl) rfl rfl (by rw [hw]; rfl) rfl⟩
  | count hw =>
    refine ⟨_, rfl, .count rfl rfl (by rw [hw]; rfl) ?_⟩
    intro r
    change (update s.shm.rankStats (cfg t).localRank _ r).recordedEvents = _
    by_cases hr : r = (cfg t).localRank
    · subst hr; simp
    · simp [hr]

variable [Fintype ι] {k : Chunk}

theorem countingOf_update (cfg : ι → Thread) (writers : ι → Writer) (t : ι) (w : Writer) (r : Nat) :
    countingOf cfg (update writers t w) r +
        (if (writers t).counting = true ∧ (cfg t).localRank = r then 1 else 0) =
      countingOf cfg writers r + (if w.counting = true ∧ (cfg t).localRank = r then 1 else 0) :=
  Runs.sum_update (fun u (v : Writer) => if v.counting = true ∧ (cfg u).localRank = r then 1 else 0) writers t w

theorem writerStep_tally (h : Tally cfg s) (t : ι) (hs : writerStep cfg s t = some s') :
    Tally cfg s' := by
  intro r
  obtain ⟨x, hx, hsum⟩ := h r
  obtain ⟨w, hwriters, hmove⟩ := writerStep_commits t hs
  have hupd := countingOf_update cfg s.writers t w r
  rw [hwriters]
  cases hmove with
  | silent hcommits hw ht hstats =>
    refine ⟨x, by rw [hstats, hx], ?_⟩
    simp only [hw, ht, Bool.false_eq_true, false_and, if_false, Nat.add_zero] at hupd
    rw [hupd, hsum, committedBy, committedBy, hcommits]
  | commit c hcommits hrank _ _ _ hw ht hstats =>
    refine ⟨x, by rw [hstats, hx], ?_⟩
    simp only [hw, ht, Bool.false_eq_true, false_and, if_false, true_and, Nat.add_zero] at hupd
    rw [committedBy, hcommits, List.countP_append, List.countP_singleton, ← committedBy, hupd, hrank, ← hsum]
    simp only [decide_eq_true_eq]
    omega
  | count hcommits hw ht hstats =>
    by_cases hr : r = (cfg t).localRank
    · subst hr
      refine ⟨x + 1, ?_, ?_⟩
      · rw [hstats, if_pos rfl, add64, hx]
        omega
      · simp only [hw, ht, Bool.false_eq_true, false_and, if_false, true_and, if_true, Nat.add_zero] at hupd
        rw [committedBy, hcommits, ← committedBy]
        omega
    · refine ⟨x, by rw [hstats, if_neg hr, hx], ?_⟩
      simp only [hw, ht, Bool.false_eq_true, false_and, if_false, true_and, Ne.symm hr, Nat.add_zero] at hupd
      rw [committedBy, hcommits, ← committedBy, hupd, hsum]

omit [DecidableEq ι] [Fintype ι] in
theorem workerStep_frame (hs : workerStep s = some s') :
    s'.log.commits = s.log.commits ∧ s'.shm.rankStats = s.shm.rankStats ∧ s'.writers = s.writers := by
  cases workerStep_cases hs <;> exact ⟨rfl, rfl, rfl⟩

theorem step_tally (h : Tally cfg s) (a : Action ι) (hs : step cfg s a = some s') : Tally cfg s' := by
  cases step_cases hs with
  | unranked | flush | tick => exact h
  | call t ev hidle =>
    intro r
    obtain ⟨x, hx, hsum⟩ := h r
    have hupd := countingOf_update cfg s.writers t (.load ev 0) r
    simp only [hidle, Writer.counting, Bool.false_eq_true, false_and, if_false, Nat.add_zero] at hupd
    exact ⟨x, hx, (congrArg (x + ·) hupd).trans hsum⟩
  | writer t _ hs => exact writerStep_tally h t hs
  | worker _ hs =>
    obtain ⟨hcommits, hstats, hwriters⟩ := workerStep_frame hs
    intro r
    obtain ⟨x, hx, hsum⟩ := h r
    exact ⟨x, by rw [hstats]; exact hx, by rw [hwriters, committedBy, hcommits]; exact hsum⟩

omit [DecidableEq ι] in
theorem init_tally : Tally cfg (init ι) := by
  intro r
  exact ⟨0, rfl, by simp [countingOf, init, Writer.counting, committedBy]⟩

omit [DecidableEq ι] in
theorem Sound.headerSize_le (h : Sound cfg s) {g : Extent} (hg : g ∈ s.log.grants) : headerSize ≤ g.len := by
  obtain hc | ⟨t, ht⟩ := h.ledger.owned.accounted g hg
  · obtain ⟨c, hmem, rfl⟩ := List.mem_map.mp hc
    have hlen := h.ledger.owned.commit_len c hmem
    obtain ⟨c', -, rfl⟩ := List.mem_map.mp hmem
    rw [← hlen, length_bytes]
    omega
  · have hfit := h.control.fits t
    change (s.writers t).held s.log.resets = some g at ht
    cases hw : s.writers t with
    | stamp ev b offset =>
      rw [hw] at ht hfit
      cases ht
      change headerSize ≤ ev.recordLen
      rw [ev.recordLen_eq hfit]
      omega
    | write rec b offset done =>
      rw [hw] at ht
      cases ht
      change headerSize ≤ rec.bytes.length
      rw [length_bytes]
      omega
    | _ => rw [hw] at ht; cases ht

omit [DecidableEq ι] in
theorem Sound.recordsIn_lt (h : Sound cfg s) (key : Nat × Nat) : recordsIn s key < 2 ^ 32 := by
  obtain ⟨e, he, ht⟩ := h.ledger.spaced.tiles key
  have hlen := ht.length (m := headerSize)
    (fun g hg => h.headerSize_le ((mem_inEpoch _ _ _).mp hg).1)
  have hsub : ((epochCommits s key).map Commit.extent).Subperm (inEpoch key (ShmBuffer.ledger s).grants) := by
    apply List.Nodup.subperm
    · have hnd := h.ledger.owned.commit_nodup
      rw [ShmBuffer.ledger, List.map_map] at hnd
      exact (List.filter_sublist.map _).nodup hnd
    · intro g hg
      obtain ⟨c, hc, rfl⟩ := List.mem_map.mp hg
      obtain ⟨hmem, hk⟩ := List.mem_filter.mp hc
      exact (mem_inEpoch _ _ _).mpr
        ⟨h.ledger.owned.commit_mem _ (mem_ledger_commits hmem), by simpa using hk⟩
  have hle := hsub.length_le
  rw [List.length_map] at hle
  rw [recordsIn]
  simp only [headerSize, bufferCapacity] at *
  omega

/-- No more record can be committed into this epoch. -/
def Closed (s : State ι) (key : Nat × Nat) : Prop := key.2 < s.log.resets key.1 ∨ s.worker.drained = some key.1

omit [DecidableEq ι] in
theorem Sound.closed (h : Sound cfg s) (hk : k ∈ s.log.chunks) : Closed s k.key := by
  have hle : k.gen ≤ s.log.resets k.buf := h.ledger.stored.flush_gen k.flush (List.mem_map.mpr ⟨k, hk, rfl⟩)
  obtain hlt | heq := Nat.lt_or_eq_of_le hle
  · exact Or.inl hlt
  · exact Or.inr (by rw [h.phase.unflushed k hk heq]; rfl)

theorem Worker.flushing_of_drained {w : Worker} {b : Nat} (h : w.drained = some b) :
    w.flushing = some b ∧ ∀ n, w ≠ .drain b n := by
  cases w <;> simp [Worker.drained, Worker.flushing] at h ⊢ <;> exact h

theorem writerStep_epochCommits (hc : Control cfg s) (t : ι) (hs : writerStep cfg s t = some s')
    (key : Nat × Nat) (hk : Closed s key) : epochCommits s' key = epochCommits s key := by
  obtain ⟨w, -, hmove⟩ := writerStep_commits t hs
  cases hmove with
  | silent hcommits | count hcommits => rw [epochCommits, hcommits, epochCommits]
  | commit c hcommits _ _ hent hgen =>
    have hne : c.extent.key ≠ key := by
      intro hkey
      subst hkey
      obtain hlt | hd := hk
      · simp only [Extent.key] at hlt
        omega
      · obtain ⟨hf, hd⟩ := Worker.flushing_of_drained hd
        exact hc.alone _ hf hd t hent
    rw [epochCommits, hcommits, List.filter_append, epochCommits, List.filter_singleton]
    simp [hne]

/-- The worker has read the counters of a rank for the chunk it is about to write. -/
def Worker.HasRead : Worker → Prop
  | .stats _ _ r _ _ => 0 < r
  | .write _ _ _ _ => True
  | _ => False

/-- The sums the worker has formed, and the counts of the chunks it has written.
A chunk that another one follows has no record. -/
structure Counted (s : State ι) : Prop where
  ranked : ∀ c ∈ s.log.commits, c.localRank < maxLocalRanks
  reading : ∀ b len r dropped n, s.worker = .stats b len r dropped n → n = recordsBelow s (b, s.log.resets b) r
  read : ∀ b len dropped n, s.worker = .write b len dropped n → n = recordsIn s (b, s.log.resets b)
  empty : s.worker.HasRead → ∀ k ∈ s.log.chunks, recordsIn s k.key = 0
  chunks : ∀ k ∈ s.log.chunks, k.recordCount = recordsIn s k.key
  last : s.log.chunks.Pairwise fun k _ => recordsIn s k.key = 0

omit [DecidableEq ι] [Fintype ι] in
/-- What does not touch the worker, its epochs and their commits keeps the counts. -/
theorem Counted.frame (h : Counted s) (hworker : s'.worker = s.worker)
    (hchunks : s'.log.chunks = s.log.chunks) (hresets : s'.log.resets = s.log.resets)
    (hranked : ∀ c ∈ s'.log.commits, c.localRank < maxLocalRanks)
    (hdrained : ∀ b, s.worker.drained = some b →
      epochCommits s' (b, s.log.resets b) = epochCommits s (b, s.log.resets b))
    (hclosed : ∀ k ∈ s.log.chunks, epochCommits s' k.key = epochCommits s k.key) : Counted s' := by
  have hrec : ∀ k ∈ s.log.chunks, recordsIn s' k.key = recordsIn s k.key := by
    intro k hk
    rw [recordsIn, recordsIn, hclosed k hk]
  refine ⟨hranked, ?_, ?_, ?_, ?_, ?_⟩
  · intro b len r dropped n hw
    rw [hworker] at hw
    rw [hresets, recordsBelow, hdrained b (by rw [hw]; rfl)]
    exact h.reading b len r dropped n hw
  · intro b len dropped n hw
    rw [hworker] at hw
    rw [hresets, recordsIn, hdrained b (by rw [hw]; rfl)]
    exact h.read b len dropped n hw
  · intro hread k hk
    rw [hworker] at hread
    rw [hchunks] at hk
    rw [hrec k hk]
    exact h.empty hread k hk
  · intro k hk
    rw [hchunks] at hk
    rw [hrec k hk]
    exact h.chunks k hk
  · rw [hchunks]
    refine h.last.imp_of_mem ?_
    intro k k' hk _ hz
    rw [hrec k hk]
    exact hz

theorem writerStep_counted (h : Counted s) (hsound : Sound cfg s) (t : ι)
    (hs : writerStep cfg s t = some s') : Counted s' := by
  obtain ⟨-, hworker, hchunks, hresets, -⟩ := writerStep_frame t hs
  apply h.frame hworker hchunks hresets
  · obtain ⟨w, -, hmove⟩ := writerStep_commits t hs
    cases hmove with
    | silent hcommits | count hcommits => rw [hcommits]; exact h.ranked
    | commit c hcommits _ hlt =>
      rw [hcommits]
      intro c' hc'
      obtain hc' | hc' := List.mem_append.mp hc'
      · exact h.ranked c' hc'
      · rw [List.mem_singleton.mp hc']
        exact hlt
  · exact fun b hb => writerStep_epochCommits hsound.control t hs _ (Or.inr hb)
  · exact fun k hk => writerStep_epochCommits hsound.control t hs _ (hsound.closed hk)

theorem countP_below_succ (cs : List Commit) (r : Nat) :
    cs.countP (·.localRank < r + 1) = cs.countP (·.localRank < r) + cs.countP (·.localRank = r) := by
  induction cs with
  | nil => rfl
  | cons c cs ih =>
    simp only [List.countP_cons, ih, decide_eq_true_eq]
    by_cases h₁ : c.localRank < r
    · rw [if_pos (by omega), if_pos h₁, if_neg (by omega)]
      omega
    · by_cases h₂ : c.localRank = r
      · rw [if_pos (by omega), if_neg h₁, if_pos h₂]
        omega
      · rw [if_neg (by omega), if_neg h₁, if_neg h₂]
        omega

omit [DecidableEq ι] in
/-- Reading the counter of one more rank: it is the number of that rank's
commits, and all of them are in the epoch that is flushed. -/
theorem read_rank (hsound : Sound cfg s) (ht : Tally cfg s) (key : Nat × Nat) (r : Nat)
    (hall : ∀ c ∈ s.log.commits, c.extent.key = key)
    (hnone : ∀ t, (cfg t).localRank = r → (s.writers t).counting = false) :
    add64 (recordsBelow s key r) (s.shm.rankStats r).recordedEvents = recordsBelow s key (r + 1) := by
  have hepoch : epochCommits s key = s.log.commits := by
    rw [epochCommits, List.filter_eq_self]
    intro c hc
    simpa using hall c hc
  have hzero : countingOf cfg s.writers r = 0 := by
    rw [countingOf, Finset.sum_eq_zero_iff]
    intro t _
    rw [if_neg]
    rintro ⟨hc, hr⟩
    rw [hnone t hr] at hc
    cases hc
  obtain ⟨x, hx, hsum⟩ := ht r
  have hlt := hsound.recordsIn_lt key
  have hsucc := countP_below_succ (epochCommits s key) r
  have hle : recordsBelow s key (r + 1) ≤ recordsIn s key := List.countP_le_length
  rw [hzero, Nat.add_zero, committedBy, ← hepoch] at hsum
  rw [recordsBelow, recordsBelow] at *
  rw [hx, hsum, add64]
  omega

omit [DecidableEq ι] in
theorem Sound.fresh (h : Sound cfg s) {b : Nat} (hw : s.worker ≠ .recycle b) (hk : k ∈ s.log.chunks) :
    k.key ≠ (b, s.log.resets b) := by
  intro hkey
  obtain ⟨rfl, hgen⟩ := Prod.mk.inj hkey
  exact hw (h.phase.unflushed k hk hgen)

omit [DecidableEq ι] [Fintype ι] in
/-- The fields that speak of a worker with sums are void after most steps. -/
theorem Counted.rest (h : Counted s) (hcommits : s'.log.commits = s.log.commits)
    (hchunks : s'.log.chunks = s.log.chunks) (hns : ∀ b len r dropped n, s'.worker ≠ .stats b len r dropped n)
    (hnw : ∀ b len dropped n, s'.worker ≠ .write b len dropped n) : Counted s' := by
  have hrec : ∀ key, recordsIn s' key = recordsIn s key := by
    intro key
    rw [recordsIn, epochCommits, hcommits]
    rfl
  refine ⟨by rw [hcommits]; exact h.ranked, fun b len r d n hw => absurd hw (hns b len r d n),
    fun b len d n hw => absurd hw (hnw b len d n), ?_, ?_, ?_⟩
  · intro hread
    cases hw : s'.worker with
    | stats b len r d n => exact absurd hw (hns b len r d n)
    | write b len d n => exact absurd hw (hnw b len d n)
    | _ => rw [hw] at hread; exact hread.elim
  · intro k hk
    rw [hrec]
    exact h.chunks k (hchunks ▸ hk)
  · rw [hchunks]
    exact h.last.imp (fun hz => by rw [hrec]; exact hz)

omit [DecidableEq ι] in
theorem Sound.chunks_empty (h : Sound cfg s) {b : Nat} (hw : s.worker ≠ .recycle b)
    (hall : ∀ c ∈ s.log.commits, c.extent.key = (b, s.log.resets b)) : ∀ k ∈ s.log.chunks, recordsIn s k.key = 0 := by
  intro k hk
  rw [recordsIn, List.length_eq_zero_iff, epochCommits, List.filter_eq_nil_iff]
  intro c hc hkey
  simp only [decide_eq_true_eq] at hkey
  exact h.fresh hw hk (by rw [← hkey, hall c hc])

omit [DecidableEq ι] [Fintype ι] in
theorem Counted.recordsBelow_eq (h : Counted s) (key : Nat × Nat) {r : Nat} (hr : ¬ r < maxLocalRanks) :
    recordsBelow s key r = recordsIn s key := by
  rw [recordsBelow, recordsIn, List.countP_eq_length]
  intro c hc
  have hlt := h.ranked c (List.mem_filter.mp hc).1
  simp only [decide_eq_true_eq]
  omega

omit [DecidableEq ι] in
theorem workerStep_counted (h : Counted s) (hsound : Sound cfg s) (ht : Tally cfg s) (hsep : Separate cfg s .worker)
    (hs : workerStep s = some s') : Counted s' := by
  cases workerStep_cases hs with
  | load | skip | go | swap | spin | drained | measure | empty | recycle => exact h.rest rfl rfl nofun nofun
  | stream b len hw =>
    refine ⟨h.ranked, ?_, nofun, fun hread => absurd hread (Nat.lt_irrefl 0), h.chunks, h.last⟩
    intro b' len' r dropped n heq
    injection heq with hb hl hr hd hn
    subst hr hn
    simp [recordsBelow]
  | read b len r dropped recorded hw hlt =>
    have hsum := h.reading b len r dropped recorded hw
    unfold Separate at hsep
    rw [hw] at hsep
    obtain ⟨hall, hnone⟩ := hsep hlt
    refine ⟨h.ranked, ?_, nofun, ?_, h.chunks, h.last⟩
    · intro b' len' r' dropped' n heq
      injection heq with hb hl hr hd hn
      subst hb hr hn
      rw [hsum]
      exact read_rank hsound ht _ r hall hnone
    · exact fun _ => hsound.chunks_empty (by rw [hw]; nofun) hall
  | total b len r dropped recorded hw hge =>
    have hsum := h.reading b len r dropped recorded hw
    refine ⟨h.ranked, nofun, ?_, ?_, h.chunks, h.last⟩
    · intro b' len' dropped' n heq
      injection heq with hb hl hd hn
      subst hb hn
      rw [hsum]
      exact h.recordsBelow_eq _ hge
    · intro _
      refine h.empty ?_
      rw [hw]
      simp only [Worker.HasRead, maxLocalRanks] at *
      omega
  | write b len dropped recorded hw =>
    have hsum := h.read b len dropped recorded hw
    have hlt := hsound.recordsIn_lt (b, s.log.resets b)
    have hempty := h.empty (by rw [hw]; trivial)
    refine ⟨h.ranked, nofun, nofun, nofun, ?_, ?_⟩
    · intro k hk
      obtain hk | hk := List.mem_append.mp hk
      · exact h.chunks k hk
      · rw [List.mem_singleton.mp hk]
        change recorded % 2 ^ 32 = recordsIn s (b, s.log.resets b)
        rw [hsum, Nat.mod_eq_of_lt hlt]
    · refine List.pairwise_append.mpr ⟨h.last, List.pairwise_singleton _ _, ?_⟩
      intro k hk _ _
      exact hempty k hk

theorem step_counted (h : Counted s) (hsound : Sound cfg s) (ht : Tally cfg s) (a : Action ι) (hsep : Separate cfg s a)
    (hs : step cfg s a = some s') : Counted s' := by
  cases step_cases hs with
  | unranked | call | tick => exact h.frame rfl rfl rfl h.ranked (fun _ _ => rfl) (fun _ _ => rfl)
  | writer t _ hs => exact writerStep_counted h hsound t hs
  | flush force => exact ⟨h.ranked, nofun, nofun, nofun, h.chunks, h.last⟩
  | worker _ hs => exact workerStep_counted h hsound ht hsep hs

omit [DecidableEq ι] [Fintype ι] in
theorem init_counted : Counted (init ι) := ⟨nofun, nofun, nofun, nofun, nofun, .nil⟩

theorem reaches_counted (h : Reaches (step cfg) (Exclusive cfg) (init ι) s) :
    Sound cfg s ∧ Counted s := by
  have hinv := h.invariant (fun s => Sound cfg s ∧ Tally cfg s ∧ Counted s) ⟨init_sound, init_tally, init_counted⟩
    (fun t a u ht hok hst => ⟨step_sound ht.1 a hok.1 hst, step_tally ht.2.1 a hst,
      step_counted ht.2.2 ht.1 ht.2.1 a hok.2 hst⟩)
  exact ⟨hinv.1, hinv.2.2⟩

theorem sum_le_of_last {α : Type} (f : α → Nat) (bound : Nat) {l : List α} (hl : l.Pairwise fun x _ => f x = 0)
    (hb : ∀ x ∈ l, f x ≤ bound) : (l.map f).sum ≤ bound := by
  induction l with
  | nil => exact Nat.zero_le _
  | cons x l ih =>
    obtain ⟨hx, hl⟩ := List.pairwise_cons.mp hl
    rw [List.map_cons, List.sum_cons]
    cases l with
    | nil => simpa using hb x (by simp)
    | cons y l =>
      rw [hx y (by simp), Nat.zero_add]
      exact ih hl (fun z hz => hb z (by simp [hz]))

theorem taken_containerCalls (z : Lz4) (ks : List Chunk) :
    taken z (containerCalls ks) = (ks.filter fun k => k.args.Taken z).map Chunk.args := by
  induction ks with
  | nil => rfl
  | cons k ks ih =>
    have hcons : containerCalls (k :: ks) = .writeChunk k.args :: .flush :: containerCalls ks := by
      simp [containerCalls]
    rw [hcons, taken_cons, taken_cons z .flush, ih]
    by_cases ht : k.args.Taken z
    · simp [taken, ht]
    · simp [taken, ht]

theorem sum_toUInt64 (as : List ChunkArgs) :
    (as.map fun a => a.recordCount.toUInt64).sum = .ofNat (as.map fun a => a.recordCount.toNat).sum := by
  induction as with
  | nil => rfl
  | cons a as ih =>
    have ha : a.recordCount.toUInt64 = .ofNat a.recordCount.toNat := by simp
    rw [List.map_cons, List.sum_cons, ih, List.map_cons, List.sum_cons, UInt64.ofNat_add, ha]

omit [DecidableEq ι] in
theorem Counted.recordCount_toNat (h : Counted s) (hsound : Sound cfg s) (hk : k ∈ s.log.chunks) :
    k.args.recordCount.toNat = recordsIn s k.key := by
  have hlt := hsound.recordsIn_lt k.key
  rw [← h.chunks k hk] at hlt ⊢
  exact UInt32.toNat_ofNat_of_lt' hlt

/-- In every run without a wrapping counter or an abandoned drain in which the
counters are read while all commits belong to the flushed epoch and are
counted: each chunk's `record_count` is the number of its records, and the
trailer's `total_records` is the number of records in all chunks written. -/
theorem record_counts_exact (cfg : ι → Thread) (s : State ι) (h : Reaches (step cfg) (Exclusive cfg) (init ι) s) :
    (∀ z, ∀ k ∈ s.log.chunks, (k.args.header z).recordCount.toNat = recordsIn s k.key) ∧
      ∀ z os header w, openFile os header = some w →
        ((w.calls z os (containerCalls s.log.chunks)).closingTrailer os).totalRecords.toNat =
          ((s.log.chunks.filter fun k => k.args.Taken z).map fun k => recordsIn s k.key).sum := by
  obtain ⟨hsound, hcounted⟩ := reaches_counted h
  refine ⟨fun z k hk => hcounted.recordCount_toNat hsound hk, ?_⟩
  intro z os header w ho
  obtain ⟨hopened, hzero⟩ := openFile_start ho
  have hsub : (s.log.chunks.filter fun k => k.args.Taken z).Sublist s.log.chunks := List.filter_sublist
  have hcounts : ((s.log.chunks.filter fun k => k.args.Taken z).map fun k => k.args.recordCount.toNat) =
      (s.log.chunks.filter fun k => k.args.Taken z).map fun k => recordsIn s k.key :=
    List.map_congr_left fun k hk => hcounted.recordCount_toNat hsound (hsub.subset hk)
  have hbound := sum_le_of_last (fun k : Chunk => recordsIn s k.key) (2 ^ 32) (hcounted.last.sublist hsub)
    (fun k _ => Nat.le_of_lt (hsound.recordsIn_lt k.key))
  rw [closingTrailer_totalRecords, calls_totalRecords hopened, hzero, UInt64.zero_add,
    taken_containerCalls, sum_toUInt64, List.map_map]
  change (UInt64.ofNat
    ((s.log.chunks.filter fun k => k.args.Taken z).map fun k => k.args.recordCount.toNat).sum).toNat = _
  rw [hcounts, UInt64.toNat_ofNat_of_lt' (Nat.lt_of_le_of_lt hbound (by decide))]

theorem record_counts_exact_solo :
    ∃ s, run (step solo) (Exclusive solo) (init Unit) (logSteps () probe ++ flushSteps false) = some s ∧
      ∃ k ∈ s.log.chunks, (k.args.header literalCodec).recordCount.toNat = recordsIn s k.key := by
  have hrun : (run (step solo) (Exclusive solo) (init Unit) (logSteps () probe ++ flushSteps false)).map
      (fun s => s.log.chunks.length) = some 1 := by
    decide +kernel
  obtain ⟨s, hs, hlen⟩ := Option.map_eq_some_iff.mp hrun
  have hexact := record_counts_exact solo s (reaches_of_run _ hs)
  obtain ⟨k, hk⟩ := List.exists_mem_of_length_pos (by omega : 0 < s.log.chunks.length)
  exact ⟨s, hs, k, hk, hexact.1 _ k hk⟩

/-- Two flushes of one record each: the counters are not reset, so the second
chunk claims two records, and the trailer three. -/
theorem second_chunk_miscounted :
    ∃ s, Reaches (step solo) Regular (init Unit) s ∧ s.log.commits.length = 2 ∧
      s.log.chunks.map (fun k => recordsIn s k.key) = [1, 1] ∧
      s.log.chunks.map (fun k => (k.args.header literalCodec).recordCount) = [1, 2] ∧
      ∃ w, openFile (fun _ => 128) sampleHeader = some w ∧
        ((w.calls literalCodec (fun _ => 128) (containerCalls s.log.chunks)).closingTrailer
          fun _ => 128).totalRecords = 3 := by
  have hrun : (run (step solo) Regular (init Unit)
      (logSteps () probe ++ flushSteps false ++ logSteps () probe ++ flushSteps false)).map
      (fun s => (s.log.commits.length, s.log.chunks.map (fun k => recordsIn s k.key),
        s.log.chunks.map (fun k => (k.args.header literalCodec).recordCount),
        (openFile (fun _ => 128) sampleHeader).map fun w =>
          ((w.calls literalCodec (fun _ => 128) (containerCalls s.log.chunks)).closingTrailer
            fun _ => 128).totalRecords)) = some (2, [1, 1], [1, 2], some 3) := by
    decide +kernel
  obtain ⟨s, hs, hlog⟩ := Option.map_eq_some_iff.mp hrun
  simp only [Prod.mk.injEq] at hlog
  obtain ⟨hcommits, hrecords, hheaders, htrailer⟩ := hlog
  exact ⟨s, reaches_of_run _ hs, hcommits, hrecords, hheaders, Option.map_eq_some_iff.mp htrailer⟩

end ShmBuffer
