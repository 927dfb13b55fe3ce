import Ubpftrace.ShmBuffer

/-!
# What a step can do

The step functions of `ShmBuffer` read backwards: every way in which a thread
or the worker can move, with the place it moves from, the guards of the source
and the state it leads to. Proofs about steps go through these cases and do
not unfold the step functions.
-/

namespace ShmBuffer

variable {ι : Type} [DecidableEq ι]

/-- The moves of a thread in `log_event`. -/
inductive WriterMove (cfg : ι → Thread) (s : State ι) (t : ι) : State ι → Prop where
  | load (ev : Event) (retry : Nat) (at_load : s.writers t = .load ev retry) :
      WriterMove cfg s t (s.setWriter t (.register ev retry s.shm.activeEpochBuffer))
  | register (ev : Event) (retry current : Nat) (at_register : s.writers t = .register ev retry current) :
      WriterMove cfg s t ((s.enter (bufIdx current)).setWriter t (.verify ev retry current))
  | verified (ev : Event) (retry current : Nat) (at_verify : s.writers t = .verify ev retry current)
      (same : s.shm.activeEpochBuffer = current) :
      WriterMove cfg s t (s.setWriter t (.reserve ev (bufIdx current)))
  | overtaken (ev : Event) (retry current : Nat) (at_verify : s.writers t = .verify ev retry current) :
      WriterMove cfg s t (s.setWriter t (.release ev retry current))
  | retry (ev : Event) (retry current : Nat) (at_release : s.writers t = .release ev retry current) :
      WriterMove cfg s t ((s.leave (bufIdx current)).setWriter t (.load ev (retry + 1)))
  | giveUp (ev : Event) (retry current : Nat) (at_release : s.writers t = .release ev retry current) :
      WriterMove cfg s t ((s.leave (bufIdx current)).setWriter t .drop)
  | grant (ev : Event) (b : Nat) (at_reserve : s.writers t = .reserve ev b)
      (room : add64 (s.buffer b).writeOffset ev.recordLen ≤ bufferCapacity) :
      WriterMove cfg s t (((s.advance b ev.recordLen).logGrant
        (s.extent b (s.buffer b).writeOffset ev.recordLen)).setWriter t (.stamp ev b (s.buffer b).writeOffset))
  | refuse (ev : Event) (b : Nat) (at_reserve : s.writers t = .reserve ev b)
      (full : ¬ add64 (s.buffer b).writeOffset ev.recordLen ≤ bufferCapacity) :
      WriterMove cfg s t ((s.advance b ev.recordLen).setWriter t (.abort b))
  | abort (b : Nat) (at_abort : s.writers t = .abort b) : WriterMove cfg s t ((s.leave b).setWriter t .drop)
  | drop (at_drop : s.writers t = .drop) :
      WriterMove cfg s t ((s.setStats (cfg t).localRank { s.shm.rankStats (cfg t).localRank with
        droppedEvents := add64 (s.shm.rankStats (cfg t).localRank).droppedEvents 1 }).setWriter t .idle)
  | stamp (ev : Event) (b offset : Nat) (at_stamp : s.writers t = .stamp ev b offset) :
      WriterMove cfg s t (s.setWriter t (.write (ev.stamp (cfg t).rank s.now) b offset 0))
  | store (rec : EventRecord.Record) (b offset done : Nat) (at_write : s.writers t = .write rec b offset done)
      (more : done < rec.bytes.length) :
      WriterMove cfg s t ((s.store b (offset + done) rec.bytes[done]).setWriter t (.write rec b offset (done + 1)))
  | ignore (rec : EventRecord.Record) (b offset done : Nat) (at_write : s.writers t = .write rec b offset done)
      (bad : 1 < b ∨ maxLocalRanks ≤ (cfg t).localRank) : WriterMove cfg s t (s.setWriter t .idle)
  | commit (rec : EventRecord.Record) (b offset done : Nat) (at_write : s.writers t = .write rec b offset done)
      (all : ¬ done < rec.bytes.length) (good : ¬ (1 < b ∨ maxLocalRanks ≤ (cfg t).localRank)) :
      WriterMove cfg s t (((s.leave b).logCommit
        ⟨s.extent b offset rec.bytes.length, rec, (cfg t).localRank⟩).setWriter t .count)
  | count (at_count : s.writers t = .count) :
      WriterMove cfg s t ((s.setStats (cfg t).localRank { s.shm.rankStats (cfg t).localRank with
        recordedEvents := add64 (s.shm.rankStats (cfg t).localRank).recordedEvents 1 }).setWriter t .idle)

/-- The moves of the worker in `swap_and_flush`. -/
inductive WorkerMove (s : State ι) : State ι → Prop where
  | load (force : Bool) (at_load : s.worker = .load force) :
      WorkerMove s { s with worker := .peek force s.shm.activeEpochBuffer }
  | skip (force : Bool) (current : Nat) (at_peek : s.worker = .peek force current) :
      WorkerMove s { s with worker := .idle }
  | go (force : Bool) (current : Nat) (at_peek : s.worker = .peek force current) :
      WorkerMove s { s with worker := .swap current }
  | swap (current : Nat) (at_swap : s.worker = .swap current) :
      WorkerMove s { s with
        shm := { s.shm with activeEpochBuffer := nextWord current }
        worker := .drain (bufIdx current) 0 }
  | spin (b spins : Nat) (at_drain : s.worker = .drain b spins) :
      WorkerMove s { s with worker := .drain b (spins + 1) }
  | drained (b spins : Nat) (at_drain : s.worker = .drain b spins)
      (ends : ¬ (0 < (s.buffer b).activeWriters ∧ spins < spinLimit)) : WorkerMove s { s with worker := .measure b }
  | measure (b : Nat) (at_measure : s.worker = .measure b) :
      WorkerMove s { s with worker := .stream b (min (s.buffer b).writeOffset bufferCapacity) }
  | empty (b : Nat) (at_measure : s.worker = .measure b) (blank : ¬ 0 < min (s.buffer b).writeOffset bufferCapacity) :
      WorkerMove s { s with worker := .recycle b }
  | stream (b len : Nat) (at_stream : s.worker = .stream b len) :
      WorkerMove s { s with
        worker := .stats b len 0 0 0
        log := { s.log with streamed := s.log.streamed ++ [⟨b, s.log.resets b, len, (s.buffer b).data⟩] } }
  | read (b len r dropped recorded : Nat) (at_stats : s.worker = .stats b len r dropped recorded)
      (more : r < maxLocalRanks) :
      WorkerMove s { s with
        worker := .stats b len (r + 1) (add64 dropped (s.shm.rankStats r).droppedEvents)
          (add64 recorded (s.shm.rankStats r).recordedEvents) }
  | total (b len r dropped recorded : Nat) (at_stats : s.worker = .stats b len r dropped recorded)
      (all : ¬ r < maxLocalRanks) : WorkerMove s { s with worker := .write b len dropped recorded }
  | write (b len dropped recorded : Nat) (at_write : s.worker = .write b len dropped recorded) :
      WorkerMove s { s with
        worker := .recycle b
        lastFlushNs := s.now
        log := { s.log with chunks := s.log.chunks ++
          [⟨b, s.log.resets b, len, (s.buffer b).data, recorded % 2 ^ 32, dropped % 2 ^ 32, s.lastFlushNs, s.now⟩] } }
  | recycle (b : Nat) (at_recycle : s.worker = .recycle b) : WorkerMove s { s.reset b with worker := .idle }

/-- The moves of the whole system. -/
inductive Move (cfg : ι → Thread) (s : State ι) : Action ι → State ι → Prop where
  | unranked (t : ι) (ev : Event) : Move cfg s (.call t ev) s
  | call (t : ι) (ev : Event) (idle : s.writers t = .idle) (ranked : (cfg t).localRank < maxLocalRanks) :
      Move cfg s (.call t ev) (s.setWriter t (.load ev 0))
  | writer (t : ι) (s' : State ι) (moves : writerStep cfg s t = some s') : Move cfg s (.writer t) s'
  | flush (force : Bool) (idle : s.worker = .idle) : Move cfg s (.flush force) { s with worker := .load force }
  | worker (s' : State ι) (moves : workerStep s = some s') : Move cfg s .worker s'
  | tick (ns : Nat) : Move cfg s (.tick ns) { s with now := s.now + ns }

variable {cfg : ι → Thread} {s s' : State ι}

theorem writerStep_cases {t : ι} (hs : writerStep cfg s t = some s') : WriterMove cfg s t s' := by
  cases hw : s.writers t with
  | idle => simp [writerStep, hw] at hs
  | load ev retry =>
    simp only [writerStep, hw, Option.some.injEq] at hs
    exact hs ▸ .load ev retry hw
  | register ev retry current =>
    simp only [writerStep, hw, Option.some.injEq] at hs
    exact hs ▸ .register ev retry current hw
  | verify ev retry current =>
    simp only [writerStep, hw] at hs
    split at hs
    · next hsame => exact Option.some.inj hs ▸ .verified ev retry current hw hsame
    · exact Option.some.inj hs ▸ .overtaken ev retry current hw
  | release ev retry current =>
    simp only [writerStep, hw, Option.some.injEq] at hs
    split at hs
    · exact hs ▸ .retry ev retry current hw
    · exact hs ▸ .giveUp ev retry current hw
  | reserve ev b =>
    simp only [writerStep, hw] at hs
    split at hs
    · next hroom => exact Option.some.inj hs ▸ .grant ev b hw hroom
    · next hfull => exact Option.some.inj hs ▸ .refuse ev b hw hfull
  | abort b =>
    simp only [writerStep, hw, Option.some.injEq] at hs
    exact hs ▸ .abort b hw
  | drop =>
    simp only [writerStep, hw, Option.some.injEq] at hs
    exact hs ▸ .drop hw
  | stamp ev b offset =>
    simp only [writerStep, hw, Option.some.injEq] at hs
    exact hs ▸ .stamp ev b offset hw
  | write rec b offset done =>
    simp only [writerStep, hw] at hs
    split at hs
    · next hmore => exact Option.some.inj hs ▸ .store rec b offset done hw hmore
    · next hall =>
      split at hs
      · next hbad => exact Option.some.inj hs ▸ .ignore rec b offset done hw hbad
      · next hgood => exact Option.some.inj hs ▸ .commit rec b offset done hw hall hgood
  | count =>
    simp only [writerStep, hw, Option.some.injEq] at hs
    exact hs ▸ .count hw

omit [DecidableEq ι] in
theorem workerStep_cases (hs : workerStep s = some s') : WorkerMove s s' := by
  cases hw : s.worker with
  | idle => simp [workerStep, hw] at hs
  | load force =>
    simp only [workerStep, hw, Option.some.injEq] at hs
    exact hs ▸ .load force hw
  | peek force current =>
    simp only [workerStep, hw] at hs
    split at hs
    · exact Option.some.inj hs ▸ .skip force current hw
    · exact Option.some.inj hs ▸ .go force current hw
  | swap current =>
    simp only [workerStep, hw, Option.some.injEq] at hs
    exact hs ▸ .swap current hw
  | drain b spins =>
    simp only [workerStep, hw] at hs
    split at hs
    · exact Option.some.inj hs ▸ .spin b spins hw
    · next hover => exact Option.some.inj hs ▸ .drained b spins hw hover
  | measure b =>
    simp only [workerStep, hw] at hs
    split at hs
    · exact Option.some.inj hs ▸ .measure b hw
    · next hnone => exact Option.some.inj hs ▸ .empty b hw hnone
  | stream b len =>
    simp only [workerStep, hw, Option.some.injEq] at hs
    exact hs ▸ .stream b len hw
  | stats b len r dropped recorded =>
    simp only [workerStep, hw] at hs
    split at hs
    · next hmore => exact Option.some.inj hs ▸ .read b len r dropped recorded hw hmore
    · next hall => exact Option.some.inj hs ▸ .total b len r dropped recorded hw hall
  | write b len dropped recorded =>
    simp only [workerStep, hw, Option.some.injEq] at hs
    exact hs ▸ .write b len dropped recorded hw
  | recycle b =>
    simp only [workerStep, hw, Option.some.injEq] at hs
    exact hs ▸ .recycle b hw

theorem step_cases {a : Action ι} (hs : step cfg s a = some s') : Move cfg s a s' := by
  cases a with
  | call t ev =>
    simp only [step] at hs
    split at hs
    · next hidle =>
      split at hs
      · exact Option.some.inj hs ▸ .unranked t ev
      · next hranked => exact Option.some.inj hs ▸ .call t ev hidle (Nat.lt_of_not_le hranked)
    · cases hs
  | writer t => exact .writer t s' hs
  | flush force =>
    simp only [step] at hs
    split at hs
    · next hidle => exact Option.some.inj hs ▸ .flush force hidle
    · cases hs
  | worker => exact .worker s' hs
  | tick ns =>
    simp only [step, Option.some.injEq] at hs
    exact hs ▸ .tick ns

end ShmBuffer
