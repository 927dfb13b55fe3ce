import Ubpftrace.RecordSplitting

/-!
# One thread, one buffer

While a single thread logs into an empty buffer, its records are laid end to
end from the start of the buffer, in the order of the calls. As long as they
fit, decoding the buffer gives the calls back, each with its time stamp and
rank.
-/

namespace ShmBuffer

open EventRecord Function
open Bytes (Holds holds_append holds_nil slice slice_of_holds)
open Runs (run run_concat)

variable {ι : Type}

/-- Only the thread `t` and the clock move. -/
def Alone [DecidableEq ι] (t : ι) (_ : State ι) : Action ι → Prop
  | .call u _ | .writer u => u = t
  | .tick _ => True
  | .flush _ | .worker => False

instance [DecidableEq ι] (t : ι) (s : State ι) (a : Action ι) : Decidable (Alone t s a) := by
  match a with
  | .call .. | .writer _ | .flush _ | .worker | .tick _ => dsimp only [Alone]; infer_instance

/-- The `log_event` calls of a schedule. -/
def calls (as : List (Action ι)) : List Event :=
  as.filterMap fun
    | .call _ ev => some ev
    | _ => none

/-- The bytes a call reserves, before they are truncated to 32 bits. -/
def Event.size (ev : Event) : Nat := headerSize + ev.payload.length

/-- The records of calls with the clock readings `ts`. -/
def stampAll (rank : UInt32) (evs : List Event) (ts : List Nat) : List Record :=
  List.zipWith (fun ev now => ev.stamp rank now) evs ts

def recordBytes (rs : List Record) : List UInt8 := rs.flatMap Record.bytes

/-- An idle thread, and nothing reserved in the active buffer. -/
structure Fresh (t : ι) (s : State ι) : Prop where
  idle : s.writers t = .idle
  low : s.active ≤ 1
  empty : (s.buffer s.active).writeOffset = 0

theorem init_fresh (t : ι) : Fresh t (init ι) where
  idle := rfl
  low := Nat.zero_le 1
  empty := rfl

/-- The call a thread is in, up to its time stamp. -/
def Writer.unstamped : Writer → List Event
  | .load ev _ | .register ev _ _ | .verify ev _ _ | .reserve ev _ | .stamp ev _ _ => [ev]
  | .idle | .write .. | .release .. | .abort _ | .drop | .count => []

/-- The record it is storing. -/
def Writer.storing : Writer → List Record
  | .write rec _ _ _ => [rec]
  | _ => []

/-- The bytes it has reserved and not committed. -/
def Writer.reservedLen : Writer → Nat
  | .stamp ev _ _ => ev.size
  | .write rec _ _ _ => rec.bytes.length
  | _ => 0

/-- The clock reading that its next access takes. -/
def Writer.reading (now : Nat) : Writer → List Nat
  | .stamp _ _ _ => [now]
  | _ => []

def stampsIn [DecidableEq ι] (t : ι) (s : State ι) : Action ι → List Nat
  | .writer u => if u = t then (s.writers t).reading s.now else []
  | .call _ _ | .flush _ | .worker | .tick _ => []

/-- The clock readings that the thread `t` takes along a schedule, in order. -/
def readings [DecidableEq ι] (cfg : ι → Thread) (t : ι) (s : State ι) : List (Action ι) → List Nat
  | [] => []
  | a :: as =>
    stampsIn t s a ++
    match step cfg s a with
    | some s' => readings cfg t s' as
    | none => []

/-- Where a thread can be that never meets a swap or a full buffer: it reserves
in the buffer of `word`, behind the `total` bytes that stand there. -/
def Undisturbed (word total : Nat) (data : Nat → UInt8) : Writer → Prop
  | .idle | .load _ _ | .count => True
  | .register _ _ current | .verify _ _ current => current = word
  | .reserve _ b => b = bufIdx word
  | .stamp _ b offset => b = bufIdx word ∧ offset = total
  | .write rec b offset done =>
    b = bufIdx word ∧ offset = total ∧ done ≤ rec.bytes.length ∧ Holds data offset (rec.bytes.take done)
  | .release .. | .abort _ | .drop => False

/-- After the calls of `as` and the clock readings `ts`: the calls `evs` have their time stamps, the
records `rs` are committed, and the thread is at `w`. -/
structure Logging (cfg : ι → Thread) (t : ι) (s₀ : State ι) (as : List (Action ι)) (ts : List Nat) (s : State ι)
    (w : Writer) (evs : List Event) (rs : List Record) : Prop where
  writer : s.writers t = w
  word : s.shm.activeEpochBuffer = s₀.shm.activeEpochBuffer
  called : calls as = evs ++ w.unstamped
  clock : evs.length = ts.length
  stamped : rs ++ w.storing = stampAll (cfg t).rank evs ts
  stands : Holds (s.buffer s₀.active).data 0 (recordBytes rs)
  offset : (s.buffer s₀.active).writeOffset = (recordBytes rs).length + w.reservedLen
  place : Undisturbed s₀.shm.activeEpochBuffer (recordBytes rs).length (s.buffer s₀.active).data w

theorem recordBytes_append (rs rs' : List Record) : recordBytes (rs ++ rs') = recordBytes rs ++ recordBytes rs' :=
  List.flatMap_append

theorem length_recordBytes (rank : UInt32) {evs : List Event} {ts : List Nat} (h : evs.length = ts.length) :
    (recordBytes (stampAll rank evs ts)).length = (evs.map Event.size).sum := by
  induction evs generalizing ts with
  | nil => rfl
  | cons ev evs ih =>
    cases ts with
    | nil => cases h
    | cons now ts =>
      rw [stampAll, List.zipWith_cons_cons, recordBytes, List.flatMap_cons, List.length_append, length_bytes,
        ← stampAll, ← recordBytes, ih (Nat.succ.inj h)]
      rfl

theorem calls_concat (as : List (Action ι)) (a : Action ι) :
    calls (as ++ [a]) = calls as ++ calls [a] := by
  simp [calls]

variable {cfg : ι → Thread} {t : ι} {s₀ s s' : State ι} {as : List (Action ι)} {ts : List Nat} {w w' : Writer}
  {evs : List Event} {rs : List Record}

theorem Logging.size (h : Logging cfg t s₀ as ts s w evs rs) :
    (recordBytes (rs ++ w.storing)).length + (w.unstamped.map Event.size).sum = ((calls as).map Event.size).sum := by
  rw [h.stamped, length_recordBytes _ h.clock, h.called, List.map_append, List.sum_append]

theorem holds_store {mem : Nat → UInt8} {a done : Nat} {bs : List UInt8} (hlt : done < bs.length)
    (h : Holds mem a (bs.take done)) : Holds (update mem (a + done) bs[done]) a (bs.take (done + 1)) := by
  intro i hi
  have hi' : i < done + 1 ∧ i < bs.length := by simpa using hi
  rcases Nat.lt_succ_iff_lt_or_eq.mp hi'.1 with hold | rfl
  · rw [update_of_ne (by omega), h i (by simp; omega)]
    simp
  · simp

theorem holds_store_behind {mem : Nat → UInt8} {x : UInt8} {a : Nat} {bs : List UInt8} (h : Holds mem 0 bs)
    (ha : bs.length ≤ a) : Holds (update mem a x) 0 bs := by
  intro i hi
  rw [update_of_ne (by omega)]
  exact h i hi

theorem Logging.room {ev : Event} {b : Nat} (hfit : ((calls as).map Event.size).sum ≤ bufferCapacity)
    (h : Logging cfg t s₀ as ts s (.reserve ev b) evs rs) :
    add64 (s.buffer s₀.active).writeOffset ev.recordLen = (recordBytes rs).length + ev.size ∧
      (recordBytes rs).length + ev.size ≤ bufferCapacity := by
  have hsize := h.size
  have hoff := h.offset
  simp only [Writer.unstamped, Writer.storing, Writer.reservedLen, List.append_nil, List.map_cons, List.map_nil,
    List.sum_cons, List.sum_nil, Nat.add_zero] at hsize hoff
  have hle : (recordBytes rs).length + ev.size ≤ bufferCapacity := Nat.le_trans (Nat.le_of_eq hsize) hfit
  have hcap : bufferCapacity < 2 ^ 64 := by decide
  have hev : ev.size < 2 ^ 32 := Nat.lt_of_le_of_lt (Nat.le_trans (Nat.le_add_left _ _) hle) (by decide)
  rw [ev.recordLen_eq hev, hoff]
  exact ⟨add64_eq (Nat.lt_of_le_of_lt hle hcap), hle⟩

/-- An access that leaves the buffer and the word alone, and stays within the call. -/
theorem Logging.quiet (h : Logging cfg t s₀ as ts s w evs rs) (hwriter : s'.writers t = w')
    (hword : s'.shm.activeEpochBuffer = s.shm.activeEpochBuffer)
    (hdata : (s'.buffer s₀.active).data = (s.buffer s₀.active).data)
    (hoff : (s'.buffer s₀.active).writeOffset = (s.buffer s₀.active).writeOffset)
    (hsame : w'.unstamped = w.unstamped ∧ w'.storing = w.storing ∧ w'.reservedLen = w.reservedLen)
    (hnone : w.reading s.now = [])
    (hplace : Undisturbed s₀.shm.activeEpochBuffer (recordBytes rs).length (s.buffer s₀.active).data w') :
    Logging cfg t s₀ as (ts ++ w.reading s.now) s' w' evs rs where
  writer := hwriter
  word := hword.trans h.word
  called := hsame.1 ▸ h.called
  clock := by rw [hnone, List.append_nil, h.clock]
  stamped := by rw [hnone, List.append_nil, hsame.2.1, h.stamped]
  stands := hdata ▸ h.stands
  offset := by rw [hoff, hsame.2.2, h.offset]
  place := hdata ▸ hplace

variable [DecidableEq ι]

/-- Of the accesses of the thread, only the one to the clock adds a reading. -/
theorem writer_logging (hr : (cfg t).localRank < maxLocalRanks) (hfresh : Fresh t s₀)
    (hfit : ((calls as).map Event.size).sum ≤ bufferCapacity) (h : Logging cfg t s₀ as ts s w evs rs)
    (hs : writerStep cfg s t = some s') :
    ∃ w' evs' rs', Logging cfg t s₀ as (ts ++ w.reading s.now) s' w' evs' rs' := by
  have hplace := h.place
  cases writerStep_cases hs with
  | load ev retry hw =>
    obtain rfl := h.writer.symm.trans hw
    exact ⟨_, evs, rs, h.quiet (setWriter_writers ..) rfl rfl rfl ⟨rfl, rfl, rfl⟩ rfl h.word⟩
  | register ev retry current hw =>
    obtain rfl := h.writer.symm.trans hw
    exact ⟨_, evs, rs,
      h.quiet (setWriter_writers ..) rfl (enter_data s _ _) (enter_writeOffset s _ _) ⟨rfl, rfl, rfl⟩ rfl hplace⟩
  | verified ev retry current hw hsame =>
    obtain rfl := h.writer.symm.trans hw
    exact ⟨_, evs, rs, h.quiet (setWriter_writers ..) rfl rfl rfl ⟨rfl, rfl, rfl⟩ rfl (congrArg bufIdx hplace)⟩
  | overtaken ev retry current hw =>
    -- no swap has happened since the load, so the re-check cannot fail
    obtain rfl := h.writer.symm.trans hw
    simp only [writerStep, hw] at hs
    rw [if_pos (h.word.trans (Eq.symm hplace))] at hs
    have hwriter := congrArg (fun x : State ι => x.writers t) (Option.some.inj hs)
    simp only [setWriter_writers] at hwriter
    cases hwriter
  | retry ev retry current hw | giveUp ev retry current hw | abort b hw | drop hw =>
    obtain rfl := h.writer.symm.trans hw
    exact hplace.elim
  | grant ev b hw hroom =>
    obtain rfl := h.writer.symm.trans hw
    obtain rfl : b = s₀.active := hplace
    simp only [Writer.reading, List.append_nil]
    refine ⟨_, evs, rs, setWriter_writers .., h.word, h.called, h.clock, h.stamped, ?_, ?_, rfl, h.offset⟩
    · exact (advance_data s s₀.active ev.recordLen s₀.active).symm ▸ h.stands
    · have hadvance := congrFun (advance_writeOffset s s₀.active ev.recordLen) s₀.active
      rw [update_self, (h.room hfit).1] at hadvance
      exact hadvance
  | refuse ev b hw hfull =>
    obtain rfl := h.writer.symm.trans hw
    obtain rfl : b = s₀.active := hplace
    obtain ⟨hsum, hle⟩ := h.room hfit
    exact absurd (hsum ▸ hle) hfull
  | stamp ev b offset hw =>
    obtain rfl := h.writer.symm.trans hw
    have hread : (Writer.stamp ev b offset).reading s.now = [s.now] := rfl
    refine ⟨_, evs ++ [ev], rs, setWriter_writers .., h.word, ?_, ?_, ?_, h.stands, ?_, ?_⟩
    · exact h.called.trans (List.append_nil _).symm
    · rw [List.length_append, List.length_append, h.clock]
      rfl
    · have hstamped := h.stamped
      simp only [Writer.storing, List.append_nil] at hstamped
      rw [hread, stampAll, List.zipWith_append h.clock, ← stampAll, ← hstamped]
      rfl
    · exact h.offset.trans (congrArg (_ + ·) (length_bytes (ev.stamp (cfg t).rank s.now)).symm)
    · exact ⟨hplace.1, hplace.2, Nat.zero_le _, holds_nil _ _⟩
  | store rec b offset done hw hmore =>
    obtain rfl := h.writer.symm.trans hw
    obtain ⟨rfl, rfl, -, hstored⟩ := hplace
    have hdata : ((s.store s₀.active ((recordBytes rs).length + done) rec.bytes[done]).buffer s₀.active).data =
        update (s.buffer s₀.active).data ((recordBytes rs).length + done) rec.bytes[done] := by
      rw [congrFun (store_data s s₀.active _ _) s₀.active, update_self]
    simp only [Writer.reading, List.append_nil]
    refine ⟨_, evs, rs, setWriter_writers .., h.word, h.called, h.clock, h.stamped, ?_, ?_, rfl, rfl, hmore, ?_⟩
    · exact hdata.symm ▸ holds_store_behind h.stands (Nat.le_add_right _ _)
    · exact (store_writeOffset s _ _ _ _).trans h.offset
    · exact hdata.symm ▸ holds_store hmore hstored
  | ignore rec b offset done hw hbad =>
    obtain rfl := h.writer.symm.trans hw
    obtain ⟨rfl, -⟩ := hplace
    have hlow : bufIdx s₀.shm.activeEpochBuffer ≤ 1 := hfresh.low
    omega
  | commit rec b offset done hw hall hgood =>
    obtain rfl := h.writer.symm.trans hw
    obtain ⟨rfl, rfl, hdone, hstored⟩ := hplace
    rw [List.take_of_length_le (by omega)] at hstored
    simp only [Writer.reading, List.append_nil]
    have hbytes : recordBytes (rs ++ [rec]) = recordBytes rs ++ rec.bytes := by
      rw [recordBytes_append, recordBytes, recordBytes, List.flatMap_singleton]
    refine ⟨_, evs, rs ++ [rec], setWriter_writers .., h.word, h.called, h.clock, ?_, ?_, ?_, trivial⟩
    · exact (List.append_nil _).trans h.stamped
    · rw [hbytes]
      refine (leave_data s s₀.active s₀.active).symm ▸ (holds_append _ _ _ _).mpr ⟨h.stands, ?_⟩
      rw [Nat.zero_add]
      exact hstored
    · rw [hbytes, List.length_append]
      exact (leave_writeOffset s _ _).trans h.offset
  | count hw =>
    obtain rfl := h.writer.symm.trans hw
    exact ⟨_, evs, rs, h.quiet (setWriter_writers ..) rfl rfl rfl ⟨rfl, rfl, rfl⟩ rfl trivial⟩

theorem readings_single {a : Action ι} (hs : step cfg s a = some s') : readings cfg t s [a] = stampsIn t s a := by
  simp [readings, hs]

theorem step_logging (hr : (cfg t).localRank < maxLocalRanks) (hfresh : Fresh t s₀) (a : Action ι)
    (hfit : ((calls (as ++ [a])).map Event.size).sum ≤ bufferCapacity) (h : Logging cfg t s₀ as ts s w evs rs)
    (halone : Alone t s a) (hs : step cfg s a = some s') :
    ∃ w' evs' rs', Logging cfg t s₀ (as ++ [a]) (ts ++ readings cfg t s [a]) s' w' evs' rs' := by
  rw [readings_single hs]
  cases step_cases hs with
  | unranked u ev =>
    -- a thread with a rank of its own does not return at once
    obtain rfl : u = t := halone
    simp only [step] at hs
    split at hs
    · next hidle =>
      rw [if_neg (by omega)] at hs
      have hwriter := congrArg (fun x : State ι => x.writers u) (Option.some.inj hs)
      simp only [setWriter_writers, hidle] at hwriter
      cases hwriter
    · cases hs
  | call u ev hidle hranked =>
    obtain rfl : u = t := halone
    obtain rfl := h.writer.symm.trans hidle
    rw [stampsIn, List.append_nil]
    refine ⟨_, evs, rs, setWriter_writers .., h.word, ?_, h.clock, h.stamped, h.stands, h.offset, trivial⟩
    rw [calls_concat, h.called, List.append_assoc]
    rfl
  | writer u s' hmoves =>
    obtain rfl : u = t := halone
    have hsame : calls (as ++ [Action.writer u]) = calls as := by simp [calls]
    rw [hsame] at hfit
    obtain ⟨w', evs', rs', h'⟩ := writer_logging hr hfresh hfit h hmoves
    rw [stampsIn, if_pos rfl, h.writer]
    exact ⟨w', evs', rs', { h' with called := hsame.trans h'.called }⟩
  | flush force hidle | worker s' hmoves => exact halone.elim
  | tick ns =>
    have hsame : calls (as ++ [Action.tick ns]) = calls as := by simp [calls]
    rw [stampsIn, List.append_nil]
    exact ⟨w, evs, rs, { h with called := hsame.trans h.called }⟩

theorem readings_concat (a : Action ι) (h : run (step cfg) (Alone t) s as = some s') :
    readings cfg t s (as ++ [a]) = readings cfg t s as ++ readings cfg t s' [a] := by
  induction as generalizing s with
  | nil =>
    cases h
    rfl
  | cons b as ih =>
    rw [run] at h
    split at h
    · obtain ⟨u, hu, hrest⟩ := Option.bind_eq_some_iff.mp h
      rw [List.cons_append, readings, readings, hu]
      dsimp only
      rw [ih hrest, List.append_assoc]
    · cases h

theorem run_logging (hr : (cfg t).localRank < maxLocalRanks) (hfresh : Fresh t s₀)
    (hfit : ((calls as).map Event.size).sum ≤ bufferCapacity) (h : run (step cfg) (Alone t) s₀ as = some s) :
    ∃ w evs rs, Logging cfg t s₀ as (readings cfg t s₀ as) s w evs rs := by
  induction as using List.reverseRecOn generalizing s with
  | nil =>
    cases h
    exact ⟨.idle, [], [], hfresh.idle, rfl, rfl, rfl, rfl, holds_nil _ _, hfresh.empty, trivial⟩
  | append_singleton as a ih =>
    have hbefore : ((calls as).map Event.size).sum ≤ bufferCapacity := by
      rw [calls_concat, List.map_append, List.sum_append] at hfit
      exact Nat.le_trans (Nat.le_add_right _ _) hfit
    rw [run_concat] at h
    obtain ⟨u, hu, hlast⟩ := Option.bind_eq_some_iff.mp h
    rw [Option.ite_none_right_eq_some] at hlast
    obtain ⟨w, evs, rs, hlogging⟩ := ih hbefore hu
    rw [readings_concat a hu]
    exact step_logging hr hfresh a hfit hlogging hlast.1 hlast.2

/-- A thread with a rank below `MAX_LOCAL_RANKS` logs into an empty buffer, and
the records of all its calls together fit. Decoding what the worker would take
of the buffer gives the calls back, each with its own clock reading. -/
theorem logged_events_decoded (cfg : ι → Thread) (t : ι) (hr : (cfg t).localRank < maxLocalRanks) (s₀ s : State ι)
    (hfresh : Fresh t s₀) (as : List (Action ι)) (hfit : ((calls as).map Event.size).sum ≤ bufferCapacity)
    (hrun : run (step cfg) (Alone t) s₀ as = some s) (hidle : s.writers t = .idle) :
    let data := (s.buffer s₀.active).data
    let len := min (s.buffer s₀.active).writeOffset bufferCapacity
    let records := stampAll (cfg t).rank (calls as) (readings cfg t s₀ as)
    (readings cfg t s₀ as).length = (calls as).length ∧
      ∀ nodeId, decodeFrom nodeId data len 0 = records.map (Record.event nodeId) := by
  obtain ⟨w, evs, rs, h⟩ := run_logging hr hfresh hfit hrun
  obtain rfl := h.writer.symm.trans hidle
  have hcalls : calls as = evs := h.called.trans (List.append_nil _)
  have hrecords : rs = stampAll (cfg t).rank evs (readings cfg t s₀ as) := (List.append_nil _).symm.trans h.stamped
  have hsize : (recordBytes rs).length ≤ bufferCapacity := by
    rw [hrecords, length_recordBytes _ h.clock, ← hcalls]
    exact hfit
  intro data len records
  obtain rfl : rs = records := by rw [hrecords, ← hcalls]
  have hlen : 0 + (recordBytes records).length = len := by
    have hoff : (s.buffer s₀.active).writeOffset = (recordBytes records).length := h.offset
    simp only [len, hoff]
    omega
  have hfits : ∀ r ∈ records, r.Fits := by
    intro r hr
    have hle : r.bytes.length ≤ (recordBytes records).length :=
      (List.sublist_flatten_of_mem (List.mem_map_of_mem hr)).length_le
    rw [length_bytes] at hle
    rw [Record.Fits]
    have hcap : bufferCapacity < 2 ^ 32 := by decide
    omega
  refine ⟨by rw [hcalls, h.clock], fun nodeId => ?_⟩
  rw [decodeFrom_records nodeId data len 0 records hfits h.stands (Nat.le_of_eq hlen), ← recordBytes, hlen,
    (decodeFrom_eq_nil_iff nodeId data len len).mpr (Or.inl (by simp [headerSize])), List.append_nil]

/-- Two calls, the second one a while later and with a payload. -/
def twoCalls : List (Action Unit) :=
  logSteps () probe ++ [.tick 5] ++ logSteps () ⟨2, [7, 8, 9], by decide⟩

theorem logged_events_decoded_twoCalls :
    ∃ s, run (step solo) (Alone ()) (init Unit) twoCalls = some s ∧
      decodeFrom 3 (s.buffer 0).data (min (s.buffer 0).writeOffset bufferCapacity) 0 =
        [⟨0, 0, 1, 3, ""⟩, ⟨5, 0, 2, 3, renderPayload [7, 8, 9]⟩] := by
  have hrun : (run (step solo) (Alone ()) (init Unit) twoCalls).map (fun s => s.writers ()) = some .idle := by
    decide +kernel
  obtain ⟨s, hs, hidle⟩ := Option.map_eq_some_iff.mp hrun
  have hread : readings solo () (init Unit) twoCalls = [0, 5] := by decide +kernel
  have hcalls : calls twoCalls = [probe, ⟨2, [7, 8, 9], by decide⟩] := by decide +kernel
  have h := logged_events_decoded solo () (by decide) (init Unit) s (init_fresh ()) twoCalls
    (by rw [hcalls]; decide) hs hidle
  rw [hread, hcalls] at h
  exact ⟨s, hs, h.2 3⟩

/-- A thread whose local rank has no slot in the statistics. -/
def unranked : Unit → Thread := fun _ => ⟨256, 256⟩

/-- Its calls return without a reservation, so nothing is decoded. And of a payload only the
rendering is: that of `"a\n"` is that of `"a"`. -/
theorem unranked_call_not_logged :
    (∃ s, run (step unranked) (Alone ()) (init Unit) [.call () probe] = some s ∧ s.writers () = .idle ∧
      ((calls [Action.call () probe]).map Event.size).sum ≤ bufferCapacity ∧
      decodeFrom 0 (s.buffer 0).data (min (s.buffer 0).writeOffset bufferCapacity) 0 = []) ∧
      ∀ nodeId rank now, Record.event nodeId ⟨rank, 1, now, [97, 10]⟩ = Record.event nodeId ⟨rank, 1, now, [97]⟩ := by
  refine ⟨⟨init Unit, rfl, rfl, by decide, ?_⟩, fun _ _ _ => ?_⟩
  · exact (decodeFrom_eq_nil_iff 0 _ _ 0).mpr (.inl (by decide))
  · have hrender : renderPayload [97, 10] = renderPayload [97] := by decide +kernel
    rw [Record.event, Record.event, hrender]

end ShmBuffer
