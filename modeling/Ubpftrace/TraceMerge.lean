import Ubpftrace.ChunkDecode
import Ubpftrace.ChunkOrder
import Ubpftrace.KWayMerge

/-!
# The merged output of `ubt-cat`

`merge_and_dump_events` keeps one cursor for each decoded file in a priority
queue that compares time stamps only. It looks at the current event of every
file and never behind it, so the output is in the order of time exactly if the
events of every file are. These stand in the order of the epochs of the run and,
in one epoch, of the reservations; `log_event` takes its time stamp after its
reservation, so that the stamps need not be in that order.
-/

namespace TraceMerge

open EventRecord (DecodedEvent Record)
open EpochLedger
open KWayMerge ShmBuffer Container
open Runs (Reaches run reaches_of_run)

structure Cursor where
  fileIdx : Nat
  eventIdx : Nat
  timestampNs : UInt64
  deriving DecidableEq

/-- What `Cursor::operator>` compares. -/
def Cursor.time (c : Cursor) : Nat := c.timestampNs.toNat

/-- `std::priority_queue` under that operator, which leaves the order among equal time stamps open. -/
abbrev Queue : Type := MinQueue Cursor.time

instance : Inhabited Queue := ⟨scanQueue Cursor.time⟩

def eventAt (files : List DecodedFile) (fileIdx eventIdx : Nat) : Option DecodedEvent :=
  files[fileIdx]?.bind fun df => df.events[eventIdx]?

/-- The cursor at an event, if the file has one there. -/
def cursorAt (files : List DecodedFile) (fileIdx eventIdx : Nat) : Option Cursor :=
  (eventAt files fileIdx eventIdx).map fun ev => ⟨fileIdx, eventIdx, ev.timestampNs⟩

/-- The loop `while (!pq.empty())`. Every turn prints an event. -/
def mergeLoop (q : Queue) (files : List DecodedFile) : Nat → List Cursor → List DecodedEvent
  | 0, _ => []
  | fuel + 1, pq =>
    match q.pop pq with
    | none => []
    | some (cur, rest) =>
      (eventAt files cur.fileIdx cur.eventIdx).toList ++
        mergeLoop q files fuel ((cursorAt files cur.fileIdx (cur.eventIdx + 1)).toList ++ rest)

/-- The cursors before the loop, one for each file with events. -/
def firstCursors (files : List DecodedFile) : List Cursor :=
  files.zipIdx.filterMap fun p => cursorAt files p.2 0

/-- The events in the order in which they are printed; as fuel their number. -/
def mergeAndDumpEvents (q : Queue) (files : List DecodedFile) : List DecodedEvent :=
  mergeLoop q files (files.map fun df => df.events.length).sum (firstCursors files)

def dumpEvents (files : List DecodedFile) : List DecodedEvent := files.flatMap DecodedFile.events

/-- What `main` prints without `--info` and `--chrome`. -/
def printedEvents (q : Queue) (optMerge : Bool) (files : List DecodedFile) : List DecodedEvent :=
  if optMerge = true ∨ 1 < files.length then mergeAndDumpEvents q files else dumpEvents files

def time (ev : DecodedEvent) : Nat := ev.timestampNs.toNat

/-- In non-decreasing order of time stamps. -/
abbrev Chronological (evs : List DecodedEvent) : Prop := SortedBy time evs

/-- The events of a file from a cursor on. -/
def eventsFrom (files : List DecodedFile) (c : Cursor) : List DecodedEvent :=
  match files[c.fileIdx]? with
  | none => []
  | some df => df.events.drop c.eventIdx

variable {q : Queue} {files : List DecodedFile}

theorem eventsFrom_of_cursorAt {f i : Nat} {c : Cursor} (h : cursorAt files f i = some c) :
    c.fileIdx = f ∧ c.eventIdx = i ∧
      ∃ ev rest, eventAt files f i = some ev ∧ eventsFrom files c = ev :: rest ∧ ev.timestampNs = c.timestampNs := by
  obtain ⟨ev, hev, rfl⟩ := Option.map_eq_some_iff.mp h
  obtain ⟨df, hdf, hget⟩ := Option.bind_eq_some_iff.mp hev
  obtain ⟨hlt, rfl⟩ := List.getElem?_eq_some_iff.mp hget
  refine ⟨rfl, rfl, _, df.events.drop (i + 1), hev, ?_, rfl⟩
  simp only [eventsFrom, hdf]
  exact List.drop_eq_getElem_cons hlt

theorem map_eventsFrom_next {c : Cursor} {ev : DecodedEvent} {rest : List DecodedEvent} (cs : List Cursor)
    (h : eventsFrom files c = ev :: rest) :
    ((cursorAt files c.fileIdx (c.eventIdx + 1)).toList ++ cs).map (eventsFrom files) =
      refill rest (cs.map (eventsFrom files)) := by
  cases hdf : files[c.fileIdx]? with
  | none => simp [eventsFrom, hdf] at h
  | some df =>
    simp only [eventsFrom, hdf] at h
    have hrest : rest = df.events.drop (c.eventIdx + 1) := by
      rw [← List.drop_drop, h]
      rfl
    cases hnext : df.events[c.eventIdx + 1]? with
    | none =>
      have hnil : rest = [] := by rw [hrest, List.drop_eq_nil_iff]; exact List.getElem?_eq_none_iff.mp hnext
      simp [cursorAt, eventAt, hdf, hnext, refill, hnil]
    | some next =>
      have hne : rest ≠ [] := by
        rw [hrest, Ne, List.drop_eq_nil_iff, ← List.getElem?_eq_none_iff, hnext]
        simp
      rw [refill, if_neg hne, hrest]
      simp [cursorAt, eventAt, hdf, hnext, eventsFrom]

theorem mergeLoop_merged (fuel : Nat) (pq : List Cursor) (hpq : ∀ c ∈ pq, cursorAt files c.fileIdx c.eventIdx = some c)
    (hfuel : (pq.map (eventsFrom files)).flatten.length ≤ fuel) :
    Merged time (pq.map (eventsFrom files)) (mergeLoop q files fuel pq) := by
  induction fuel generalizing pq with
  | zero =>
    cases pq with
    | nil => exact .nil
    | cons c cs =>
      obtain ⟨-, -, ev, rest, -, hev, -⟩ := eventsFrom_of_cursorAt (hpq c List.mem_cons_self)
      simp [hev] at hfuel
  | succ fuel ih =>
    rw [mergeLoop]
    split
    · next hpop =>
      rw [q.pop_eq_none pq hpop]
      exact .nil
    · next cur cs hpop =>
      have hperm := q.pop_perm pq cur cs hpop
      have hcur := hpq cur (hperm.mem_iff.mpr List.mem_cons_self)
      have hcs : ∀ c ∈ cs, cursorAt files c.fileIdx c.eventIdx = some c :=
        fun c hc => hpq c (hperm.mem_iff.mpr (List.mem_cons_of_mem _ hc))
      obtain ⟨-, -, ev, rest, hat, hev, hts⟩ := eventsFrom_of_cursorAt hcur
      have hmap := hperm.map (eventsFrom files)
      rw [List.map_cons, hev] at hmap
      have hlen := hmap.flatten.length_eq
      rw [List.flatten_cons, List.length_append, List.length_cons] at hlen
      have htail := ih ((cursorAt files cur.fileIdx (cur.eventIdx + 1)).toList ++ cs)
        (by
          intro c hc
          obtain hc | hc := List.mem_append.mp hc
          · have hnext := Option.mem_toList.mp hc
            obtain ⟨hf, hi, -⟩ := eventsFrom_of_cursorAt hnext
            rw [hf, hi]
            exact hnext
          · exact hcs c hc)
        (by
          rw [map_eventsFrom_next cs hev, flatten_refill, List.length_append]
          omega)
      rw [map_eventsFrom_next cs hev] at htail
      rw [hat]
      refine .pop hmap ?_ htail
      intro l hl y hy
      obtain ⟨c, hc, rfl⟩ := List.mem_map.mp hl
      obtain ⟨-, -, ev', rest', -, hev', hts'⟩ := eventsFrom_of_cursorAt (hcs c hc)
      rw [hev'] at hy
      cases hy
      rw [time, time, hts, hts']
      exact q.pop_le pq cur cs hpop c hc

theorem map_firstCursors (files : List DecodedFile) :
    (firstCursors files).map (eventsFrom files) = (files.map DecodedFile.events).filter (· ≠ []) := by
  have hfile : ∀ p ∈ files.zipIdx, (cursorAt files p.2 0).map (eventsFrom files) =
      if p.1.events ≠ [] then some p.1.events else none := by
    rintro ⟨df, f⟩ hp
    have hget : files[f]? = some df := List.mk_mem_zipIdx_iff_getElem?.mp hp
    cases hev : df.events with
    | nil => simp [cursorAt, eventAt, hget, hev]
    | cons ev rest => simp [cursorAt, eventAt, eventsFrom, hget, hev]
  calc (firstCursors files).map (eventsFrom files)
      = files.zipIdx.filterMap fun p => if p.1.events ≠ [] then some p.1.events else none := by
        rw [firstCursors, List.map_filterMap]
        exact List.filterMap_congr hfile
    _ = (files.zipIdx.map fun p => p.1.events).filter (· ≠ []) := by
        rw [← List.filterMap_eq_filter, List.filterMap_map]
        simp [Option.guard]
    _ = (files.map DecodedFile.events).filter (· ≠ []) := by
        rw [← List.zipIdx_map_fst 0 files, List.map_map, List.zipIdx_map_fst]
        rfl

theorem mergeAndDumpEvents_merged (q : Queue) (files : List DecodedFile) :
    Merged time ((files.map DecodedFile.events).filter (· ≠ [])) (mergeAndDumpEvents q files) := by
  rw [← map_firstCursors]
  apply mergeLoop_merged
  · intro c hc
    obtain ⟨p, -, hp⟩ := List.mem_filterMap.mp hc
    obtain ⟨hf, hi, -⟩ := eventsFrom_of_cursorAt hp
    rw [hf, hi]
    exact hp
  · rw [map_firstCursors, List.flatten_filter_ne_nil, List.length_flatten, List.map_map]
    exact Nat.le_refl _

theorem printedEvents_sorted_iff (q : Queue) (optMerge : Bool) (files : List DecodedFile) :
    Chronological (printedEvents q optMerge files) ↔ ∀ df ∈ files, Chronological df.events := by
  rw [printedEvents]
  split
  · apply (mergeAndDumpEvents_merged q files).sorted_iff.trans
    constructor
    · intro h df hdf
      by_cases hev : df.events = []
      · rw [hev]
        exact List.Pairwise.nil
      · exact h _ (List.mem_filter.mpr ⟨List.mem_map_of_mem hdf, by simpa using hev⟩)
    · intro h l hl
      obtain ⟨df, hdf, rfl⟩ := List.mem_map.mp (List.mem_filter.mp hl).1
      exact h df hdf
  · next hone =>
    -- one file at most, printed as it is
    cases files with
    | nil => simp [dumpEvents, SortedBy]
    | cons df rest =>
      have hnil : rest = [] := by
        simp only [List.length_cons, not_or] at hone
        exact List.length_eq_zero_iff.mp (by omega)
      simp [dumpEvents, hnil]

/-- The events of every file, each with its place. -/
def placed (files : List DecodedFile) : List (List ((Nat × Nat) × DecodedEvent)) :=
  files.zipIdx.map fun p => p.1.events.zipIdx.map fun e => ((p.2, e.2), e.1)

theorem map_placed (files : List DecodedFile) :
    (placed files).map (List.map Prod.snd) = files.map DecodedFile.events := by
  have hevents (p : DecodedFile × Nat) :
      (p.1.events.zipIdx.map fun e => ((p.2, e.2), e.1)).map Prod.snd = p.1.events := by
    rw [List.map_map]
    exact List.zipIdx_map_fst 0 p.1.events
  rw [placed, List.map_map]
  simp only [Function.comp_def, hevents]
  exact (List.map_map).symm.trans (by rw [List.zipIdx_map_fst])

theorem mem_placed {files : List DecodedFile} {f i : Nat} {ev : DecodedEvent} :
    ((f, i), ev) ∈ (placed files).flatten ↔ eventAt files f i = some ev := by
  simp [placed, eventAt, List.mem_zipIdx_iff_getElem?, Option.bind_eq_some_iff, and_comm]

theorem zipIdx_ordered {α : Type} (l : List α) : l.zipIdx.Pairwise fun a b => a.2 < b.2 := by
  rw [← List.pairwise_map (f := Prod.snd), List.zipIdx_map_snd]
  exact List.pairwise_lt_range'

/-- The first place is earlier in the file, if both are in one file. -/
abbrev Earlier (a b : Nat × Nat) : Prop := a.1 = b.1 → a.2 < b.2

theorem placed_earlier {l : List ((Nat × Nat) × DecodedEvent)} (hl : l ∈ placed files) :
    l.Pairwise fun a b => Earlier a.1 b.1 := by
  obtain ⟨p, -, rfl⟩ := List.mem_map.mp hl
  rw [List.pairwise_map]
  refine (zipIdx_ordered p.1.events).imp ?_
  intro a b hlt _
  exact hlt

theorem placed_apart (files : List DecodedFile) :
    (placed files).Pairwise fun l l' => ∀ a ∈ l, ∀ b ∈ l', Earlier a.1 b.1 ∧ Earlier b.1 a.1 := by
  rw [placed, List.pairwise_map]
  refine (zipIdx_ordered files).imp fun {p p'} hlt a ha b hb => ?_
  obtain ⟨e, -, rfl⟩ := List.mem_map.mp ha
  obtain ⟨e', -, rfl⟩ := List.mem_map.mp hb
  exact ⟨fun h => absurd h (Nat.ne_of_lt hlt), fun h => absurd h (Nat.ne_of_gt hlt)⟩

theorem mergeAndDumpEvents_placed (q : Queue) (files : List DecodedFile) :
    ∃ os, mergeAndDumpEvents q files = os.map Prod.snd ∧
      Merged (time ∘ Prod.snd) ((placed files).filter (· ≠ [])) os := by
  apply Merged.lift
  have hfilter : ((placed files).filter (· ≠ [])).map (List.map Prod.snd) =
      (files.map DecodedFile.events).filter (· ≠ []) := by
    rw [← map_placed, List.filter_map]
    congr 1
    apply List.filter_congr
    simp
  rw [hfilter]
  exact mergeAndDumpEvents_merged q files

/-- For any files and any order among equal time stamps: the merge prints the event of every
place of every file exactly once, those of one file in their order, and in the order of
time if every file is. -/
theorem merge_prints_every_event_once (q : Queue) (files : List DecodedFile) :
    (∃ places : List (Nat × Nat),
      places.map (fun p => eventAt files p.1 p.2) = (mergeAndDumpEvents q files).map some ∧
        places.Nodup ∧ (∀ f i, (f, i) ∈ places ↔ (eventAt files f i).isSome) ∧ places.Pairwise Earlier) ∧
      ((∀ df ∈ files, Chronological df.events) → Chronological (mergeAndDumpEvents q files)) := by
  obtain ⟨os, hout, hmerged⟩ := mergeAndDumpEvents_placed q files
  have hmem (p : Nat × Nat) (ev : DecodedEvent) : (p, ev) ∈ os ↔ eventAt files p.1 p.2 = some ev := by
    rw [hmerged.perm.mem_iff, List.flatten_filter_ne_nil]
    exact mem_placed
  have hearlier : (os.map Prod.fst).Pairwise Earlier := by
    rw [List.pairwise_map]
    apply hmerged.pairwise
    · exact fun l hl => placed_earlier (List.mem_filter.mp hl).1
    · exact (placed_apart files).filter _
  constructor
  · refine ⟨os.map Prod.fst, ?_, ?_, fun f i => ?_, hearlier⟩
    · rw [hout, List.map_map, List.map_map]
      exact List.map_congr_left fun o ho => (hmem o.1 o.2).mp ho
    · refine hearlier.imp fun {a b} h hab => ?_
      exact absurd (h (congrArg Prod.fst hab)) (by simp [hab])
    · simp [Option.isSome_iff_exists, hmem]
  · intro hfiles
    apply (mergeAndDumpEvents_merged q files).sorted
    intro l hl
    obtain ⟨df, hdf, rfl⟩ := List.mem_map.mp (List.mem_filter.mp hl).1
    exact hfiles df hdf

/-! ## Files of runs -/

section Files

variable {ι : Type} [DecidableEq ι] [Fintype ι] {z : Lz4}

/-- A container file that the worker of a node has written and closed: the run, in which no counter
wraps and no drain loop gives up, the chunks, behind whose records the decoder finds nothing more, and
the writes, which are complete. -/
structure TraceFile (ι : Type) [DecidableEq ι] (z : Lz4) where
  cfg : ι → Thread
  state : State ι
  reached : Reaches (step cfg) Regular (init ι) state
  stops : ∀ k ∈ state.log.chunks, StopsAtEnd state k
  header : FileHeader
  magic : header.magic = fileMagic
  os : Nat → Int
  writer : Container.Writer
  opened : openFile os header = some writer
  intact : ((writer.calls z os (containerCalls state.log.chunks)).close os).file.failed = false
  index : (writer.calls z os (containerCalls state.log.chunks)).IndexComplete os
  trailer : (writer.calls z os (containerCalls state.log.chunks)).TrailerComplete os

/-- The epoch of the first reservation is flushed earlier, or they share it and the first one was made
earlier. -/
def Before (g h : Extent) : Prop := 2 * g.gen + g.buf < 2 * h.gen + h.buf ∨ g.key = h.key ∧ g.offset < h.offset

theorem Before.asymm {g h : Extent} (hgh : Before g h) : ¬ Before h g := by
  have hplace : g.key = h.key → 2 * g.gen + g.buf = 2 * h.gen + h.buf := by
    intro hkey
    obtain ⟨hbuf, hgen⟩ := Prod.mk.inj hkey
    rw [hbuf, hgen]
  rintro (hhg | ⟨hkey, hhg⟩) <;> rcases hgh with hgh | ⟨hkey', hgh⟩
  · omega
  · have := hplace hkey'
    omega
  · have := hplace hkey.symm
    omega
  · omega

namespace TraceFile

variable (f : TraceFile ι z)

def bytes : List UInt8 := ((f.writer.calls z f.os (containerCalls f.state.log.chunks)).close f.os).file.bytes

/-- The chunks that the container takes. -/
def written : List Chunk := f.state.log.chunks.filter fun k => k.args.Taken z

/-- The reservations of the records in the file, in their order there. -/
def extents : List Extent := f.written.flatMap fun k => inEpoch k.key f.state.log.grants

/-- The records in the file are stamped in the order of their epochs and of their reservations. -/
def StampsInOrder : Prop :=
  ∀ c ∈ f.state.log.commits, ∀ d ∈ f.state.log.commits, c.extent ∈ f.extents → d.extent ∈ f.extents →
    Before c.extent d.extent → c.record.timestampNs.toNat ≤ d.record.timestampNs.toNat

omit [Fintype ι] in
theorem events_decodedFrom (nodeId : UInt32) (pos : Nat) (as : List ChunkArgs) :
    (decodedFrom z pos as).flatMap (DecodedChunk.events nodeId) =
      as.flatMap fun a => EventRecord.decodeFrom nodeId (Bytes.ofList a.data) a.data.length 0 := by
  induction as generalizing pos with
  | nil => rfl
  | cons a as ih =>
    rw [decodedFrom, List.flatMap_cons, List.flatMap_cons, ih]
    rfl

/-- Parsing the file gives the records in the order of their reservations. -/
theorem parse_bytes : ∃ df, parseUbpfFile z f.bytes = .ok df ∧
    df.events = (f.extents.filterMap (recordAt f.state)).map (Record.event f.header.nodeId) := by
  have hwrote := calls_wrote (openFile_wrote f.opened) (containerCalls f.state.log.chunks) (close_failed f.intact)
  rw [List.nil_append] at hwrote
  obtain ⟨t, hbytes, hmagic, hoff, -⟩ := close_layout hwrote f.intact f.index f.trailer
  refine ⟨_, by rw [bytes, hbytes]; exact parse_layout f.magic (taken_mem z _) t hmagic hoff, ?_⟩
  change (decodedFrom z fileHeaderSize _).flatMap (DecodedChunk.events f.header.nodeId) = _
  rw [events_decodedFrom, taken_containerCalls, List.flatMap_map, extents, List.filterMap_flatMap, List.map_flatMap]
  refine List.flatMap_congr fun k hk => ?_
  have hmem := (List.mem_filter.mp hk).1
  have hdecode := (reaches_sound f.reached).decodeChunk_eq (reaches_bounded f.reached) f.header.nodeId hmem
  rw [(EventRecord.decodeFrom_eq_nil_iff ..).mpr (f.stops k hmem), List.append_nil] at hdecode
  exact hdecode

theorem extents_before : f.extents.Pairwise Before := by
  have hsound := reaches_sound f.reached
  have hkey {k : Chunk} {g : Extent} (hg : g ∈ inEpoch k.key f.state.log.grants) : g.key = k.key :=
    ((mem_inEpoch _ _ _).mp hg).2
  refine List.pairwise_flatMap.mpr ⟨fun k hk => ?_, ?_⟩
  · obtain ⟨e, -, htiles⟩ := hsound.ledger.spaced.tiles k.key
    refine htiles.pairwise.imp_of_mem fun {g h} hg hh hle => .inr ⟨(hkey hg).trans (hkey hh).symm, ?_⟩
    have hpos := hsound.ledger.spaced.len_pos g ((mem_inEpoch _ _ _).mp hg).1
    omega
  · refine ((reaches_ordered f.reached).sorted.filter _).imp fun {k k'} hlt g hg h hh => .inl ?_
    obtain ⟨hbuf, hgen⟩ := Prod.mk.inj (hkey hg)
    obtain ⟨hbuf', hgen'⟩ := Prod.mk.inj (hkey hh)
    rw [hbuf, hgen, hbuf', hgen']
    exact hlt

theorem chronological_iff :
    Chronological ((f.extents.filterMap (recordAt f.state)).map (Record.event f.header.nodeId)) ↔ f.StampsInOrder := by
  have hsound := reaches_sound f.reached
  unfold Chronological SortedBy
  rw [List.pairwise_map, List.pairwise_filterMap, pairwise_iff_forall (fun _ _ => Before.asymm) f.extents_before]
  constructor
  · intro h c hc d hd hcin hdin hbefore
    exact h _ hcin _ hdin hbefore _ (hsound.recordAt_extent hc) _ (hsound.recordAt_extent hd)
  · intro h g hg g' hg' hbefore r hr r' hr'
    have hcommit {g : Extent} (hg : g ∈ f.extents) : ∃ c ∈ f.state.log.commits, c.extent = g := by
      obtain ⟨k, hk, hg⟩ := List.mem_flatMap.mp hg
      exact hsound.committed_of_chunk (List.mem_filter.mp hk).1 hg
    obtain ⟨c, hc, rfl⟩ := hcommit hg
    obtain ⟨d, hd, rfl⟩ := hcommit hg'
    rw [hsound.recordAt_extent hc] at hr
    rw [hsound.recordAt_extent hd] at hr'
    cases hr
    cases hr'
    exact h c hc d hd hg hg' hbefore

end TraceFile

end Files

/-- Two threads of one rank: the first one reserves, then the second one, and
the second one takes its time stamp first. -/
def crossedSteps : List (Action Bool) :=
  reserveSteps true probe ++ reserveSteps false probe ++
    [.tick 5] ++ recordSteps false probe ++
    [.tick 2] ++ recordSteps true probe ++ flushSteps false

/-- Every write is complete. -/
def generous (_ : Nat) : Int := 2 ^ 20

end TraceMerge
