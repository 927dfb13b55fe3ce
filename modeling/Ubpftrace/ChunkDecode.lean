import Ubpftrace.RecordCounts

/-!
# Decoding a flushed chunk

The event loop of `parse_ubpf_file` over the bytes of a chunk gives the
records of its epoch in the order of their reservations, and then whatever it
makes of the bytes behind them. There are such bytes once a reservation has
overflowed: the offset has passed the end of the buffer, and the chunk is the
whole buffer, with what earlier epochs left in it.
-/

namespace ShmBuffer

open EventRecord EpochLedger
open Bytes (Holds ofList slice length_slice holds_append holds_nil holds_ofList_slice)
open Runs (Reaches run reaches_of_run)

/-- The event loop over the decompressed bytes of a chunk. -/
def decodeChunk (nodeId : UInt32) (k : Chunk) : List DecodedEvent :=
  decodeFrom nodeId (ofList k.args.data) k.args.data.length 0

variable {ι : Type}

def recordAt (s : State ι) (g : Extent) : Option Record := (s.log.commits.find? (·.extent = g)).map Commit.record

/-- The records of an epoch in the order in which their space was reserved. -/
def recordsInOrder (s : State ι) (key : Nat × Nat) : List Record :=
  (inEpoch key s.log.grants).filterMap (recordAt s)

/-- How many bytes were reserved in an epoch. -/
def grantedBytes (s : State ι) (key : Nat × Nat) : Nat := ((inEpoch key s.log.grants).map Extent.len).sum

/-- The decoder goes no further than what was reserved in the epoch of the chunk. -/
def StopsAtEnd (s : State ι) (k : Chunk) : Prop :=
  Stops (ofList k.args.data) k.args.data.length (grantedBytes s k.key)

instance (s : State ι) (k : Chunk) : Decidable (StopsAtEnd s k) := inferInstanceAs (Decidable (_ ∨ _))

/-- No chunk is longer than a buffer. -/
def Bounded (s : State ι) : Prop := ∀ k ∈ s.log.chunks, k.len ≤ bufferCapacity

theorem workerStep_bounded {s : State ι} (h : Bounded s) (hph : Phase s) {s' : State ι} (hs : workerStep s = some s') :
    Bounded s' := by
  cases workerStep_cases hs with
  | write b len dropped recorded hw =>
    have hlen := hph.measured b len (by rw [hw]; rfl)
    intro k hk
    obtain hk | hk := List.mem_append.mp hk
    · exact h k hk
    · rw [List.mem_singleton.mp hk]
      change len ≤ _
      omega
  | _ => exact h

variable [DecidableEq ι] {cfg : ι → Thread} {s : State ι}

theorem step_bounded (h : Bounded s) (hph : Phase s) (a : Action ι) {s' : State ι} (hs : step cfg s a = some s') :
    Bounded s' := by
  cases step_cases hs with
  | writer t _ hs =>
    intro k hk
    rw [(writerStep_frame t hs).chunks] at hk
    exact h k hk
  | worker _ hs => exact workerStep_bounded h hph hs
  | _ => exact h

variable [Fintype ι] {k : Chunk}

theorem reaches_bounded (h : Reaches (step cfg) Regular (init ι) s) : Bounded s := by
  have hboth := h.invariant (fun s => Sound cfg s ∧ Bounded s) ⟨init_sound, nofun⟩
    (fun t a u ht hok hst => ⟨step_sound ht.1 a hok hst, step_bounded ht.2 ht.1.phase a hst⟩)
  exact hboth.2

omit [DecidableEq ι] in
theorem Sound.recordAt_extent (h : Sound cfg s) {c : Commit} (hc : c ∈ s.log.commits) :
    recordAt s c.extent = some c.record := by
  have hnd := h.ledger.owned.commit_nodup
  rw [ShmBuffer.ledger, List.map_map, List.Nodup, List.pairwise_map] at hnd
  have hfilter := filter_key Commit.extent hnd hc
  rw [recordAt, ← List.head?_filter, hfilter]
  rfl

omit [DecidableEq ι] in
theorem Sound.committed_of_chunk (h : Sound cfg s) (hk : k ∈ s.log.chunks) {g : Extent}
    (hg : g ∈ inEpoch k.key s.log.grants) : ∃ c ∈ s.log.commits, c.extent = g := by
  obtain ⟨hmem, hkey⟩ := (mem_inEpoch _ _ _).mp hg
  obtain ⟨hbuf, hgen⟩ := Prod.mk.inj hkey
  obtain hc | ⟨t, ht⟩ := h.ledger.owned.accounted g hmem
  · obtain ⟨p, hp, rfl⟩ := List.mem_map.mp hc
    obtain ⟨c, hcommit, rfl⟩ := List.mem_map.mp hp
    exact ⟨c, hcommit, rfl⟩
  · have hnow := h.ledger.owned.held_now t g ht
    have hidle := h.ledger.stored.flush_idle k.flush (List.mem_map.mpr ⟨k, hk, rfl⟩)
      (by rw [hgen, hbuf] at hnow; exact hnow)
    exact absurd hbuf (hidle t g ht)

omit [DecidableEq ι] in
theorem Sound.recordsInOrder_perm (h : Sound cfg s) (hk : k ∈ s.log.chunks) :
    (recordsInOrder s k.key).Perm ((epochCommits s k.key).map Commit.record) := by
  obtain ⟨e, -, ht⟩ := h.ledger.spaced.tiles k.key
  have hgrants : (inEpoch k.key s.log.grants).Nodup := by
    refine ht.pairwise.imp_of_mem ?_
    rintro f g hf - hle rfl
    have := h.ledger.spaced.len_pos f ((mem_inEpoch _ _ _).mp hf).1
    omega
  have hcommits : ((epochCommits s k.key).map Commit.extent).Nodup := by
    have hnd := h.ledger.owned.commit_nodup
    rw [ShmBuffer.ledger, List.map_map] at hnd
    exact (List.filter_sublist.map _).nodup hnd
  have hperm : (inEpoch k.key s.log.grants).Perm ((epochCommits s k.key).map Commit.extent) := by
    rw [List.perm_ext_iff_of_nodup hgrants hcommits]
    intro g
    constructor
    · intro hg
      obtain ⟨c, hc, rfl⟩ := h.committed_of_chunk hk hg
      have hkey := ((mem_inEpoch _ _ _).mp hg).2
      exact List.mem_map.mpr ⟨c, List.mem_filter.mpr ⟨hc, by simpa using hkey⟩, rfl⟩
    · intro hg
      obtain ⟨c, hc, rfl⟩ := List.mem_map.mp hg
      obtain ⟨hc, hkey⟩ := List.mem_filter.mp hc
      exact (mem_inEpoch _ _ _).mpr
        ⟨h.ledger.owned.commit_mem _ (mem_ledger_commits hc), by simpa using hkey⟩
  have hlookup : ((epochCommits s k.key).map Commit.extent).filterMap (recordAt s) =
      (epochCommits s k.key).map Commit.record := by
    rw [List.filterMap_map, ← List.filterMap_eq_map]
    apply List.filterMap_congr
    intro c hc
    exact h.recordAt_extent (List.mem_filter.mp hc).1
  rw [← hlookup]
  exact hperm.filterMap _

/-- Tiles whose bytes stand in memory make up one range of bytes. -/
theorem holds_of_tiles (mem : Nat → UInt8) (f : Extent → Option Record) {o e : Nat} {gs : List Extent}
    (ht : Tiles o gs e) (hf : ∀ g ∈ gs, ∃ r, f g = some r ∧ r.bytes.length = g.len ∧ Holds mem g.offset r.bytes) :
    Holds mem o ((gs.filterMap f).flatMap Record.bytes) ∧ o + ((gs.filterMap f).flatMap Record.bytes).length = e := by
  induction gs generalizing o with
  | nil => exact ⟨by simp, ht⟩
  | cons g gs ih =>
    obtain ⟨rfl, ht⟩ := ht
    obtain ⟨r, hr, hlen, hm⟩ := hf g (by simp)
    obtain ⟨hrest, hsum⟩ := ih ht (fun g' hg' => hf g' (by simp [hg']))
    rw [List.filterMap_cons_some hr, List.flatMap_cons, holds_append, List.length_append, hlen]
    exact ⟨⟨hm, hrest⟩, by omega⟩

omit [DecidableEq ι] in
theorem Sound.commit_in_chunk (h : Sound cfg s) (hb : Bounded s) (hk : k ∈ s.log.chunks) {g : Extent}
    (hg : g ∈ inEpoch k.key s.log.grants) :
    g.offset + g.len ≤ k.args.data.length ∧
      ∃ r, recordAt s g = some r ∧ r.bytes.length = g.len ∧ Holds (ofList k.args.data) g.offset r.bytes := by
  have hmod : k.len % 2 ^ 32 = k.len := Nat.mod_eq_of_lt (Nat.lt_of_le_of_lt (hb k hk) (by decide))
  obtain ⟨c, hc, rfl⟩ := h.committed_of_chunk hk hg
  have hkey := ((mem_inEpoch _ _ _).mp hg).2
  have hbytes := h.ledger.owned.commit_len _ (mem_ledger_commits hc)
  obtain ⟨hin, hholds⟩ := h.ledger.stored.flush_bytes k.flush (List.mem_map.mpr ⟨k, hk, rfl⟩) _ (mem_ledger_commits hc)
    hkey
  simp only [Chunk.args, length_slice, hmod]
  refine ⟨hin, c.record, h.recordAt_extent hc, hbytes, holds_ofList_slice _ _ _ _ hholds ?_⟩
  rw [hbytes]
  exact hin

omit [DecidableEq ι] in
theorem Sound.chunk_holds (h : Sound cfg s) (hb : Bounded s) (hk : k ∈ s.log.chunks) :
    Holds (ofList k.args.data) 0 ((recordsInOrder s k.key).flatMap Record.bytes) ∧
      ((recordsInOrder s k.key).flatMap Record.bytes).length = grantedBytes s k.key ∧
      grantedBytes s k.key ≤ k.args.data.length := by
  obtain ⟨e, -, ht⟩ := h.ledger.spaced.tiles k.key
  have hsum := ht.sum
  obtain ⟨hholds, hlen⟩ := holds_of_tiles (ofList k.args.data) (recordAt s) ht
    (fun g hg => (h.commit_in_chunk hb hk hg).2)
  have hend := ht.end_le (Nat.zero_le k.args.data.length)
    (fun g hg => (h.commit_in_chunk hb hk hg).1)
  rw [Nat.zero_add] at hlen hsum
  exact ⟨hholds, hlen.trans hsum, (Nat.le_of_eq hsum.symm).trans hend⟩

omit [DecidableEq ι] in
theorem Sound.record_fits (h : Sound cfg s) {c : Commit} (hc : c ∈ s.log.commits) : c.record.Fits := by
  have hlen := h.ledger.owned.commit_len _ (mem_ledger_commits hc)
  have hend := h.ledger.spaced.end_le_cap (h.ledger.owned.commit_mem _ (mem_ledger_commits hc))
  rw [← hlen, length_bytes] at hend
  rw [Record.Fits]
  simp only [bufferCapacity] at hend
  omega

omit [DecidableEq ι] in
/-- Decoding a chunk: its records, and what the loop reads behind them. -/
theorem Sound.decodeChunk_eq (h : Sound cfg s) (hb : Bounded s) (nodeId : UInt32) (hk : k ∈ s.log.chunks) :
    decodeChunk nodeId k = (recordsInOrder s k.key).map (Record.event nodeId) ++
      decodeFrom nodeId (ofList k.args.data) k.args.data.length (grantedBytes s k.key) := by
  obtain ⟨hholds, hlen, hle⟩ := h.chunk_holds hb hk
  have hfits : ∀ r ∈ recordsInOrder s k.key, r.Fits := by
    intro r hr
    obtain ⟨c, hc, rfl⟩ := List.mem_map.mp ((h.recordsInOrder_perm hk).subset hr)
    exact h.record_fits (List.mem_filter.mp hc).1
  rw [decodeChunk, decodeFrom_records nodeId _ _ 0 _ hfits hholds (by omega), hlen, Nat.zero_add]

/-- Concatenations of lists that extend each other piece by piece agree only if all pieces do. -/
theorem flatMap_eq_iff {α β : Type} (f g tail : α → List β) (l : List α) (h : ∀ x ∈ l, f x = g x ++ tail x) :
    l.flatMap f = l.flatMap g ↔ ∀ x ∈ l, tail x = [] := by
  constructor
  · intro heq x hx
    have hlength : ∀ y ∈ l, (f y).length = (g y).length + (tail y).length := fun y hy => by
      rw [h y hy, List.length_append]
    have hsum := congrArg List.length heq
    rw [List.length_flatMap, List.length_flatMap, List.map_congr_left hlength, List.sum_map_add] at hsum
    have hzero := List.sum_eq_zero_iff.mp (Nat.add_eq_left.mp hsum) _ (List.mem_map_of_mem hx)
    exact List.length_eq_zero_iff.mp hzero
  · exact fun hnil => List.flatMap_congr fun x hx => by rw [h x hx, hnil x hx, List.append_nil]

omit [DecidableEq ι] in
theorem Sound.decode_eq_iff (h : Sound cfg s) (hb : Bounded s) (nodeId : UInt32) :
    s.log.chunks.flatMap (decodeChunk nodeId) =
        s.log.chunks.flatMap (fun k => (recordsInOrder s k.key).map (Record.event nodeId)) ↔
      ∀ k ∈ s.log.chunks, StopsAtEnd s k := by
  rw [flatMap_eq_iff _ _ _ _ (fun k hk => h.decodeChunk_eq hb nodeId hk)]
  simp only [decodeFrom_eq_nil_iff, StopsAtEnd]

omit [DecidableEq ι] in
theorem Sound.keys_nodup (h : Sound cfg s) : (s.log.chunks.map Chunk.key).Nodup := by
  have honce := h.ledger.stored.flush_once
  rw [ShmBuffer.ledger, List.pairwise_map] at honce
  exact List.pairwise_map.mpr honce

omit [DecidableEq ι] in
/-- A committed record is decoded once its buffer has been reset. -/
theorem Sound.commit_decoded (h : Sound cfg s) (hb : Bounded s) (nodeId : UInt32) {c : Commit} (hc : c ∈ s.log.commits)
    (hreset : c.extent.gen < s.log.resets c.extent.buf) :
    ∃ k ∈ s.log.chunks, k.key = c.extent.key ∧ Record.event nodeId c.record ∈ decodeChunk nodeId k := by
  obtain ⟨f, hf, hkey⟩ := h.ledger.stored.flushed _ (mem_ledger_commits hc) hreset
  obtain ⟨k, hk, rfl⟩ := List.mem_map.mp hf
  have hrecord : c.record ∈ recordsInOrder s k.key := by
    refine (h.recordsInOrder_perm hk).mem_iff.mpr (List.mem_map_of_mem (List.mem_filter.mpr ⟨hc, ?_⟩))
    exact decide_eq_true hkey.symm
  refine ⟨k, hk, hkey, ?_⟩
  rw [h.decodeChunk_eq hb nodeId hk]
  exact List.mem_append_left _ (List.mem_map_of_mem hrecord)

/-- In every run without a wrapping counter or an abandoned drain: no epoch has two chunks, every
record committed in an epoch that has ended is decoded, and decoding the chunks in order gives exactly
the committed records of their epochs, each once and in the order of their reservations, if and only if
in every chunk the decoder stops where the reserved bytes end. -/
theorem decoded_events_exact_iff (cfg : ι → Thread) (nodeId : UInt32) (s : State ι)
    (h : Reaches (step cfg) Regular (init ι) s) :
    (s.log.chunks.map Chunk.key).Nodup ∧
      (∀ c ∈ s.log.commits, c.extent.gen < s.log.resets c.extent.buf →
        ∃ k ∈ s.log.chunks, k.key = c.extent.key ∧ Record.event nodeId c.record ∈ decodeChunk nodeId k) ∧
      (∀ k ∈ s.log.chunks, (recordsInOrder s k.key).Perm ((epochCommits s k.key).map Commit.record)) ∧
      (s.log.chunks.flatMap (decodeChunk nodeId) =
          s.log.chunks.flatMap (fun k => (recordsInOrder s k.key).map (Record.event nodeId)) ↔
        ∀ k ∈ s.log.chunks, StopsAtEnd s k) := by
  have hsound := reaches_sound h
  have hbounded := reaches_bounded h
  refine ⟨hsound.keys_nodup, fun c hc hreset => hsound.commit_decoded hbounded nodeId hc hreset, ?_,
    hsound.decode_eq_iff hbounded nodeId⟩
  intro k hk
  exact hsound.recordsInOrder_perm hk

theorem decoded_events_exact_iff_solo :
    ∃ s, run (step solo) Regular (init Unit) (logSteps () probe ++ flushSteps false) = some s ∧
      s.log.chunks.length = 1 ∧ (s.log.chunks.map Chunk.key).Nodup ∧
      (s.log.chunks.flatMap (decodeChunk 0) =
          s.log.chunks.flatMap (fun k => (recordsInOrder s k.key).map (Record.event 0)) ↔
        ∀ k ∈ s.log.chunks, StopsAtEnd s k) := by
  have hrun : (run (step solo) Regular (init Unit) (logSteps () probe ++ flushSteps false)).map
      (fun s => s.log.chunks.length) = some 1 := by
    decide +kernel
  obtain ⟨s, hs, hlen⟩ := Option.map_eq_some_iff.mp hrun
  obtain ⟨hkeys, -, -, hiff⟩ := decoded_events_exact_iff solo 0 s (reaches_of_run _ hs)
  exact ⟨s, hs, hlen, hkeys, hiff⟩

/-- Two records flushed from the first buffer, a forced flush of the empty
second one, and one record in the first buffer again. -/
def reuse : List (Action Unit) :=
  logSteps () probe ++ logSteps () probe ++ flushSteps false ++ emptyFlushSteps ++ logSteps () probe

def reused : State Unit := (run (step solo) Regular (init Unit) reuse).getD (init Unit)

theorem reaches_reused : Reaches (step solo) Regular (init Unit) reused := by
  have hsome : (run (step solo) Regular (init Unit) reuse).isSome := by decide +kernel
  obtain ⟨s, hs⟩ := Option.isSome_iff_exists.mp hsome
  apply reaches_of_run reuse
  rw [reused, hs]
  rfl

/-- The same after one more record that is larger than the buffer. -/
def overflowed : State Unit := reused.refused solo () (bufferCapacity + headerSize)

theorem reaches_overflowed : Reaches (step solo) Regular (init Unit) overflowed := by
  obtain ⟨bs, hbs⟩ : ∃ bs : List UInt8, bs.length = bufferCapacity := ⟨List.replicate _ 0, List.length_replicate⟩
  obtain ⟨ev, hev⟩ : ∃ ev : Event, ev.payload = bs := ⟨⟨1, bs, by rw [hbs]; decide⟩, rfl⟩
  have hfit : headerSize + ev.payload.length < 2 ^ 32 := by
    rw [hev, hbs]
    decide
  have hlen : ev.recordLen = bufferCapacity + headerSize := by
    rw [ev.recordLen_eq hfit, hev, hbs, Nat.add_comm]
  have hrefuse : Reaches (step solo) Regular reused (reused.refused solo () ev.recordLen) := by
    apply refuse_reaches solo () ev
    · decide +kernel
    · decide
    · exact hfit
    · decide +kernel
    · rw [hlen]; decide +kernel
    · rw [hlen]; decide +kernel
  rw [hlen] at hrefuse
  exact reaches_reused.trans hrefuse

/-- A record in a reused buffer and a dropped one behind it: the chunk is the
whole buffer, and its decoding gives the second record of the earlier epoch
once more. -/
theorem stale_record_decoded_again :
    ∃ s, Reaches (step solo) Regular (init Unit) s ∧
      s.log.chunks.flatMap (decodeChunk 0) ≠
        s.log.chunks.flatMap (fun k => (recordsInOrder s k.key).map (Record.event 0)) := by
  have hrun : (run (step solo) Regular overflowed (flushSteps false)).map (fun s => (grantedBytes s (0, 1),
      s.log.chunks.map fun k => (k.key, k.len, slice k.data 24 24))) =
      some (24, [((0, 0), 48, (probe.stamp 0 0).bytes), ((0, 1), bufferCapacity, (probe.stamp 0 0).bytes)]) := by
    decide +kernel
  obtain ⟨s, hs, hlog⟩ := Option.map_eq_some_iff.mp hrun
  obtain ⟨hgranted, hchunks⟩ := Prod.mk.inj hlog
  have hreach := reaches_overflowed.trans (reaches_of_run _ hs)
  refine ⟨s, hreach, ?_⟩
  rw [Ne, (reaches_sound hreach).decode_eq_iff (reaches_bounded hreach)]
  intro hstops
  have hsecond : ((0, 1), bufferCapacity, (probe.stamp 0 0).bytes) ∈
      s.log.chunks.map fun k => (k.key, k.len, slice k.data 24 24) := by
    rw [hchunks]
    simp
  obtain ⟨k, hk, hfields⟩ := List.mem_map.mp hsecond
  simp only [Prod.mk.injEq] at hfields
  obtain ⟨hkey, hlen, hbytes⟩ := hfields
  -- the stale header at offset 24 has an acceptable length
  have hholds : Holds (ofList k.args.data) 24 (probe.stamp 0 0).header.encode := by
    have hslice := Bytes.holds_slice k.data 24 24
    rw [hbytes, Record.bytes, holds_append] at hslice
    exact holds_ofList_slice _ _ _ _ hslice.1 (by rw [hlen]; decide)
  have hstop := hstops k hk
  rw [StopsAtEnd, Stops, hkey, hgranted, read_of_holds _ _ _ hholds] at hstop
  simp only [Chunk.args, length_slice, hlen] at hstop
  revert hstop
  decide

end ShmBuffer
