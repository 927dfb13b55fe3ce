import Ubpftrace.ContainerRoundTrip

/-!
# Index entries after failed writes

`flush_staging_buffer_locked` clears the staging buffer also when a `write` in
its loop fails, and the index entries of the chunks that were lost stay. The
entries of a closed file are right if no write of that loop has failed, and
the first failure makes an entry wrong at once.
-/

namespace Container

open Bytes
open ShortWrites

/-- The file holds the whole header and payload of this chunk at the entry's `file_offset`. -/
structure Stands (z : Lz4) (bytes : List UInt8) (e : IndexEntry) (a : ChunkArgs) : Prop where
  entry : e = a.entry z e.fileOffset
  inside : e.fileOffset.toNat + (a.image z).length ≤ bytes.length
  holds : Holds (ofList bytes) e.fileOffset.toNat (a.image z)

/-- One entry for each chunk taken, and each chunk stands in `bytes` where its entry says. -/
def IndexStands (z : Lz4) (bytes : List UInt8) (index : List IndexEntry) (as : List ChunkArgs) : Prop :=
  List.Forall₂ (Stands z bytes) index as

/-- The bytes of the file once the staging buffer has been written. -/
def Writer.image (w : Writer) : List UInt8 := w.file.bytes ++ w.stagingBuffer

/-- An open writer as long as no write failed, with fewer than `limit` bytes staged. -/
structure Ready (z : Lz4) (h : FileHeader) (as : List ChunkArgs) (limit : Nat) (w : Writer) : Prop
    extends Wrote z h as w where
  headed : fileHeaderSize ≤ w.file.bytes.length
  staged : w.stagingBuffer.length < limit

/-- What may be staged before `write_chunk` looks at the size. -/
def stagingLimit : Nat := lustreStripeBlockSize + 2 ^ 32

variable {z : Lz4} {os : Nat → Int} {h : FileHeader} {as : List ChunkArgs} {w : Writer}

/-! ## Entries and the bytes they name -/

theorem Stands.mono {bytes more : List UInt8} {e : IndexEntry} {a : ChunkArgs} (hs : Stands z bytes e a) :
    Stands z (bytes ++ more) e a := by
  refine ⟨hs.entry, ?_, ?_⟩
  · have := hs.inside
    rw [List.length_append]
    omega
  · refine holds_congr _ _ _ _ (fun i hi => ?_) hs.holds
    have hlt : e.fileOffset.toNat + i < bytes.length := by
      have := hs.inside
      omega
    simp [ofList, List.getD_eq_getElem?_getD, List.getElem?_append_left hlt]

theorem entriesFrom_stand (pre post : List UInt8) (as : List ChunkArgs)
    (hsize : (pre ++ chunkBytes z as).length < 2 ^ 64) :
    IndexStands z (pre ++ chunkBytes z as ++ post) (entriesFrom z pre.length as) as := by
  induction as generalizing pre with
  | nil => exact .nil
  | cons a as ih =>
    have hcons : pre ++ chunkBytes z (a :: as) = pre ++ a.image z ++ chunkBytes z as := by simp [chunkBytes]
    rw [hcons] at hsize ⊢
    have hrest := ih (pre ++ a.image z) hsize
    rw [List.length_append] at hrest
    have hoffset : (UInt64.ofNat pre.length).toNat = pre.length := by
      apply UInt64.toNat_ofNat_of_lt'
      simp only [List.length_append] at hsize
      exact Nat.lt_of_le_of_lt (by omega) hsize
    refine .cons ⟨rfl, ?_, ?_⟩ hrest
    · change (UInt64.ofNat pre.length).toNat + _ ≤ _
      simp only [hoffset, List.length_append]
      omega
    · change Holds _ (UInt64.ofNat pre.length).toNat _
      rw [hoffset, List.append_assoc]
      exact holds_ofList pre (a.image z) _

theorem IndexStands.reaches {bytes : List UInt8} {pos : Nat} (hs : IndexStands z bytes (entriesFrom z pos as) as)
    (hne : as ≠ []) (hsize : pos + (chunkBytes z as).length < 2 ^ 64) :
    pos + (chunkBytes z as).length ≤ bytes.length := by
  induction as generalizing pos with
  | nil => exact absurd rfl hne
  | cons a as ih =>
    have hcons : (chunkBytes z (a :: as)).length = (a.image z).length + (chunkBytes z as).length := by simp [chunkBytes]
    rw [hcons] at hsize ⊢
    cases hs with
    | cons hfirst hrest =>
      cases as with
      | nil =>
        have hinside := hfirst.inside
        change (UInt64.ofNat pos).toNat + _ ≤ _ at hinside
        have hlt : pos < UInt64.size := Nat.lt_of_le_of_lt (Nat.le_add_right _ _) hsize
        rw [UInt64.toNat_ofNat_of_lt' hlt] at hinside
        simpa [chunkBytes] using hinside
      | cons b as =>
        rw [← Nat.add_assoc]
        exact ih hrest (by simp) (by omega)

variable {limit : Nat}

theorem Ready.size_lt (hr : Ready z h as limit w) (hlimit : limit ≤ stagingLimit) :
    fileHeaderSize + (chunkBytes z as).length < 2 ^ 64 := by
  have hlen := congrArg List.length hr.bytes
  have hsize := hr.size
  have hstaged := hr.staged
  rw [List.length_append, List.length_append, length_fileHeader] at hlen
  unfold maxSize at hsize
  unfold stagingLimit lustreStripeBlockSize at hlimit
  omega

theorem Ready.stands (hr : Ready z h as limit w) (hlimit : limit ≤ stagingLimit) :
    IndexStands z w.image w.indexTable as := by
  have hsize := hr.size_lt hlimit
  rw [← length_fileHeader h, ← List.length_append] at hsize
  have hstand := entriesFrom_stand (z := z) h.encode [] as hsize
  rw [List.append_nil, length_fileHeader, ← hr.index, ← hr.bytes] at hstand
  exact hstand

/-! ## What a flush leaves behind -/

theorem writeLoop_bytes (os : Nat → Int) (fuel : Nat) (f : File) (bs : List UInt8) (hfuel : bs.length ≤ fuel)
    (hf : f.failed = false) :
    (f.writeLoop os fuel bs).2.bytes.length ≤ f.bytes.length + bs.length ∧
      ((f.writeLoop os fuel bs).2.failed = true →
        (f.writeLoop os fuel bs).2.bytes.length < f.bytes.length + bs.length) := by
  induction fuel generalizing f bs with
  | zero =>
    rw [File.writeLoop]
    exact ⟨Nat.le_add_right _ _, fun hfail => absurd hfail (by simp [hf])⟩
  | succ fuel ih =>
    rw [File.writeLoop]
    split
    · exact ⟨Nat.le_add_right _ _, fun hfail => absurd hfail (by simp [hf])⟩
    · next hne =>
      have hpos : 0 < bs.length := List.length_pos_iff.mpr hne
      dsimp only
      split
      · next hle =>
        have hnone : (f.write os bs).bytes = f.bytes := by simp [File.write, Int.toNat_eq_zero.mpr hle]
        rw [hnone]
        omega
      · next hgt =>
        have hle := accepts_le os f bs.length
        have hwrite : (f.write os bs).failed = false := by
          simp only [File.write, hf, Bool.false_or, decide_eq_false_iff_not]
          exact hgt
        have hlen : ((f.write os bs).bytes.length : Int) = _ := length_write bs (by omega)
        have hdrop : (bs.drop (f.accepts os bs.length).toNat).length = bs.length - (f.accepts os bs.length).toNat :=
          List.length_drop
        obtain ⟨hall, hshort⟩ := ih (f.write os bs) (bs.drop (f.accepts os bs.length).toNat) (by omega) hwrite
        refine ⟨?_, fun hfail => ?_⟩
        · dsimp only
          omega
        · have := hshort hfail
          dsimp only
          omega

theorem flush_short (hopen : w.file.failed = false) (hfail : (w.flushStagingBufferLocked os).file.failed = true) :
    w.stagingBuffer ≠ [] ∧ (w.flushStagingBufferLocked os).image.length < w.image.length ∧
      (w.flushStagingBufferLocked os).indexTable = w.indexTable := by
  rw [Writer.flushStagingBufferLocked] at hfail ⊢
  split at hfail
  · rw [hopen] at hfail
    cases hfail
  · next hne =>
    rw [if_neg hne]
    refine ⟨fun hnil => hne (.inr hnil), ?_, rfl⟩
    have := (writeLoop_bytes os _ w.file w.stagingBuffer (Nat.le_refl _) hopen).2 hfail
    simpa [Writer.image, File.writeAll] using this

/-- The failure shows: the entry of the last chunk names bytes that the file does not have. -/
theorem Ready.lost (hr : Ready z h as limit w) (hlimit : limit ≤ stagingLimit) (hopen : w.file.failed = false)
    (hfail : (w.flushStagingBufferLocked os).file.failed = true) :
    ¬ IndexStands z (w.flushStagingBufferLocked os).image (w.flushStagingBufferLocked os).indexTable as := by
  intro hs
  obtain ⟨hstaged, hshort, hindex⟩ := flush_short hopen hfail
  have hlen := congrArg List.length hr.bytes
  have hheaded := hr.headed
  rw [hindex, hr.index] at hs
  simp only [Writer.image, List.length_append, length_fileHeader] at hshort hlen
  have hne : as ≠ [] := by
    rintro rfl
    have := List.length_pos_iff.mpr hstaged
    simp only [chunkBytes, List.flatMap_nil, List.length_nil] at hlen
    omega
  have hreach := hs.reaches hne (hr.size_lt hlimit)
  simp only [Writer.image, List.length_append] at hreach
  omega

theorem flush_ready (hr : Ready z h as limit w) (hf : (w.flushStagingBufferLocked os).file.failed = false) :
    Ready z h as lustreStripeBlockSize (w.flushStagingBufferLocked os) := by
  obtain ⟨hwrote, hempty⟩ := flush_wrote hr.toWrote hf
  refine ⟨hwrote, ?_, by simp [hempty, lustreStripeBlockSize]⟩
  rw [Writer.flushStagingBufferLocked] at hf ⊢
  split at hf
  · next hno =>
    rw [if_pos hno]
    exact hr.headed
  · next hno =>
    rw [if_neg hno]
    rw [(writeAll_spec hf).2.2, List.length_append]
    exact Nat.le_add_right_of_le hr.headed

theorem stage_ready (hr : Ready z h as lustreStripeBlockSize w) (a : ChunkArgs) :
    Ready z h (as ++ [a]) stagingLimit (w.stage z a) := by
  refine ⟨stage_wrote hr.toWrote a, hr.headed, ?_⟩
  have hstaged := hr.staged
  have hlt := compressed_lt z a
  have himage := length_image z a
  unfold chunkHeaderSize at himage
  simp only [compressedSize_toNat] at himage
  change (w.stagingBuffer ++ a.image z).length < _
  unfold stagingLimit
  simp only [List.length_append]
  omega

/-- A call on a writer that has not failed: either it does not fail and all is
well, or it fails and an entry is wrong at once. -/
theorem call_ready (os : Nat → Int) (hr : Ready z h as lustreStripeBlockSize w) (hopen : w.file.failed = false)
    (c : Call) :
    if (w.call z os c).file.failed = false then
      Ready z h (as ++ taken z [c]) lustreStripeBlockSize (w.call z os c)
    else ¬ IndexStands z (w.call z os c).image (w.call z os c).indexTable (as ++ taken z [c]) := by
  have hflush : ∀ {as limit w}, Ready z h as limit w → limit ≤ stagingLimit → w.file.failed = false →
      if (w.flushStagingBufferLocked os).file.failed = false then
        Ready z h as lustreStripeBlockSize (w.flushStagingBufferLocked os)
      else ¬ IndexStands z (w.flushStagingBufferLocked os).image (w.flushStagingBufferLocked os).indexTable as := by
    intro as limit w hr hlimit hopen
    split
    · next hf => exact flush_ready hr hf
    · next hf => exact hr.lost hlimit hopen (by simpa using hf)
  cases c with
  | flush =>
    have htaken : taken z [.flush] = [] := rfl
    rw [htaken, List.append_nil]
    exact hflush hr (by decide) hopen
  | writeChunk a =>
    by_cases ht : a.Taken z
    · have htaken : taken z [.writeChunk a] = [a] := by simp [taken, ht]
      have hcall : w.call z os (.writeChunk a) =
          if lustreStripeBlockSize ≤ (w.stage z a).stagingBuffer.length then (w.stage z a).flushStagingBufferLocked os
          else w.stage z a := by
        simp [Writer.call, Writer.writeChunk, hr.opened, ht.1, ht.2]
      rw [hcall, htaken]
      by_cases hfull : lustreStripeBlockSize ≤ (w.stage z a).stagingBuffer.length
      · simp only [if_pos hfull]
        exact hflush (stage_ready hr a) (Nat.le_refl _) hopen
      · simp only [if_neg hfull]
        have hstage := stage_ready hr a
        rw [if_pos (show (w.stage z a).file.failed = false from hopen)]
        exact ⟨hstage.toWrote, hstage.headed, Nat.lt_of_not_le hfull⟩
    · have htaken : taken z [.writeChunk a] = [] := by simp [taken, ht]
      have hcall : w.call z os (.writeChunk a) = w := by
        simp only [ChunkArgs.Taken, not_and, ne_eq] at ht
        by_cases hd : a.data = []
        · simp [Writer.call, Writer.writeChunk, hd]
        · simp [Writer.call, Writer.writeChunk, hr.opened, hd, Classical.not_not.mp (ht hd)]
      rw [hcall, htaken, List.append_nil, if_pos hopen]
      exact hr

theorem openFile_ready (ho : openFile os h = some w) :
    w.file.failed = false ∧ Ready z h [] lustreStripeBlockSize w := by
  have hwrote := openFile_wrote (z := z) ho
  simp only [openFile] at ho
  split at ho
  · next hall =>
    obtain rfl := Option.some.inj ho
    have hlen := length_fileHeader h
    unfold fileHeaderSize at hlen
    refine ⟨?_, hwrote, ?_, by simp [lustreStripeBlockSize]⟩
    · simp only [File.write, hall, Bool.false_or, decide_eq_false_iff_not]
      omega
    · simp only [write_complete hall, List.nil_append, length_fileHeader, Nat.le_refl]
  · cases ho

/-- Along a run: the entries are right about file and staging buffer after
every call exactly if no write has failed. -/
theorem calls_ready (ho : openFile os h = some w) (cs : List Call) :
    if (w.calls z os cs).file.failed = false then
      Ready z h (taken z cs) lustreStripeBlockSize (w.calls z os cs)
    else ∃ n ≤ cs.length, ¬ IndexStands z (w.calls z os (cs.take n)).image (w.calls z os (cs.take n)).indexTable
      (taken z (cs.take n)) := by
  induction cs using List.reverseRecOn with
  | nil =>
    obtain ⟨hok, hready⟩ := openFile_ready (z := z) ho
    exact Eq.mpr (if_pos hok) hready
  | append_singleton cs c ih =>
    have hcalls : w.calls z os (cs ++ [c]) = (w.calls z os cs).call z os c := by simp [Writer.calls]
    have htaken : taken z (cs ++ [c]) = taken z cs ++ taken z [c] := by simp [taken]
    by_cases hf : (w.calls z os cs).file.failed = false
    · rw [if_pos hf] at ih
      have hcall := call_ready os ih hf c
      rw [← hcalls, ← htaken] at hcall
      split at hcall
      · next hok =>
        rw [if_pos hok]
        exact hcall
      · next hbad =>
        rw [if_neg hbad]
        exact ⟨(cs ++ [c]).length, Nat.le_refl _, by rwa [List.take_length]⟩
    · rw [if_neg hf] at ih
      obtain ⟨n, hn, hwrong⟩ := ih
      rw [if_neg fun hok => hf (call_failed c (hcalls ▸ hok))]
      refine ⟨n, by rw [List.length_append]; omega, ?_⟩
      rwa [List.take_append_of_le_length hn]

theorem calls_take_failed (cs : List Call) (n : Nat) (hf : (w.calls z os cs).file.failed = false) :
    (w.calls z os (cs.take n)).file.failed = false := by
  have happ : (w.calls z os (cs.take n)).calls z os (cs.drop n) = w.calls z os cs := by
    simp only [Writer.calls, ← List.foldl_append, List.take_append_drop]
  rw [← happ] at hf
  exact calls_failed (cs.drop n) hf

theorem close_extends (os : Nat → Int) (ho : w.opened = true) :
    ∃ more, (w.close os).file.bytes = (w.flushStagingBufferLocked os).file.bytes ++ more := by
  rw [close_file ho]
  generalize w.flushStagingBufferLocked os = flushed
  have hindex : ∃ more, (flushed.writeIndex os).file.bytes = flushed.file.bytes ++ more := by
    rw [Writer.writeIndex]
    split
    · exact ⟨[], (List.append_nil _).symm⟩
    · exact ⟨_, rfl⟩
  obtain ⟨more, hmore⟩ := hindex
  simp only [File.write, hmore, List.append_assoc]
  exact ⟨_, rfl⟩

/-- The index table that `close` writes. -/
def Writer.closingIndex (os : Nat → Int) (w : Writer) : List IndexEntry := (w.flushStagingBufferLocked os).indexTable

/-- For every pattern of results of the `write` calls and every sequence of calls
between a successful `open` and `close`: if no `write` of the flush loop fails,
every index entry written at `close` names the place where the closed file
holds its chunk, whatever becomes of the writes of index table and trailer. If
one fails, some entry is wrong about file and staging buffer right after that flush. -/
theorem index_entries_stand (z : Lz4) (os : Nat → Int) (h : FileHeader) (w : Writer) (cs : List Call)
    (ho : openFile os h = some w) :
    (((w.calls z os cs).flushStagingBufferLocked os).file.failed = false →
        IndexStands z ((w.calls z os cs).close os).file.bytes ((w.calls z os cs).closingIndex os) (taken z cs)) ∧
      (((w.calls z os cs).flushStagingBufferLocked os).file.failed = false ↔
        ∀ n ≤ cs.length + 1,
          let v := w.calls z os ((cs ++ [Call.flush]).take n)
          IndexStands z v.image v.indexTable (taken z ((cs ++ [Call.flush]).take n))) := by
  have hflush : w.calls z os (cs ++ [Call.flush]) = (w.calls z os cs).flushStagingBufferLocked os := by
    simp [Writer.calls, Writer.call]
  have htaken : taken z (cs ++ [Call.flush]) = taken z cs := by simp [taken]
  have hlength : (cs ++ [Call.flush]).length = cs.length + 1 := by simp
  have hend := calls_ready (z := z) ho (cs ++ [Call.flush])
  rw [hflush, htaken, hlength] at hend
  refine ⟨fun hok => ?_, fun hok n _ => ?_, fun hall => ?_⟩
  · rw [if_pos hok] at hend
    have hcalls := calls_wrote (openFile_wrote (z := z) ho) cs (flush_failed hok)
    have hstand := hend.stands (Nat.le_add_right _ _)
    obtain ⟨more, hmore⟩ := close_extends os hcalls.opened
    rw [Writer.image, (flush_wrote hcalls hok).2, List.append_nil] at hstand
    rw [hmore]
    exact hstand.imp fun _ _ hs => hs.mono
  · have hprefix := calls_ready (z := z) ho ((cs ++ [Call.flush]).take n)
    rw [if_pos (calls_take_failed _ n (by rw [hflush]; exact hok))] at hprefix
    exact hprefix.stands (Nat.le_add_right _ _)
  · by_contra hbad
    rw [if_neg hbad] at hend
    obtain ⟨n, hn, hwrong⟩ := hend
    exact hwrong (hall n hn)

theorem index_entries_stand_patient :
    ∃ w, openFile patient sampleHeader = some w ∧
      IndexStands literalCodec ((w.calls literalCodec patient [.writeChunk sample]).close patient).file.bytes
        ((w.calls literalCodec patient [.writeChunk sample]).closingIndex patient)
        (taken literalCodec [.writeChunk sample]) := by
  have hrun : (openFile patient sampleHeader).map
      (fun w => ((w.calls literalCodec patient [.writeChunk sample]).flushStagingBufferLocked patient).file.failed) =
        some false := by decide +kernel
  obtain ⟨w, hw, hf⟩ := Option.map_eq_some_iff.mp hrun
  exact ⟨w, hw, (index_entries_stand literalCodec patient sampleHeader w _ hw).1 hf⟩

/-- A system that is interrupted in the second write, which is the one of the staged chunk. -/
def interrupted (call : Nat) : Int := if call = 1 then -1 else 128

/-- One chunk whose write is interrupted: `close` writes an index entry for it,
and at its offset the file has the index table itself. -/
theorem interrupted_chunk_still_indexed :
    ∃ w, openFile interrupted sampleHeader = some w ∧
      ¬ IndexStands literalCodec ((w.calls literalCodec interrupted [.writeChunk sample]).close interrupted).file.bytes
        ((w.calls literalCodec interrupted [.writeChunk sample]).closingIndex interrupted)
        (taken literalCodec [.writeChunk sample]) := by
  have hrun : (openFile interrupted sampleHeader).map (fun w =>
      (((w.calls literalCodec interrupted [.writeChunk sample]).closingIndex interrupted).map (·.fileOffset),
        ofList ((w.calls literalCodec interrupted [.writeChunk sample]).close interrupted).file.bytes 128)) =
      some ([128], 128) := by decide +kernel
  obtain ⟨w, hw, hres⟩ := Option.map_eq_some_iff.mp hrun
  obtain ⟨hindex, hbyte⟩ := Prod.mk.inj hres
  refine ⟨w, hw, fun hs => ?_⟩
  have htaken : taken literalCodec [.writeChunk sample] = [sample] := by decide +kernel
  rw [htaken] at hs
  cases hs' : (w.calls literalCodec interrupted [.writeChunk sample]).closingIndex interrupted with
  | nil =>
    rw [hs'] at hindex
    cases hindex
  | cons e es =>
    rw [hs'] at hs hindex
    have hoff : e.fileOffset = 128 := (List.cons.inj hindex).1
    cases hs with
    | cons hfirst _ =>
      have hhead := hfirst.holds 0 (by decide +kernel)
      rw [hoff] at hhead
      have himage : (sample.image literalCodec).head? = some 0x4B := by decide +kernel
      rw [List.head?_eq_getElem?, List.getElem?_eq_getElem (by decide +kernel), ← hhead] at himage
      have hfound : ofList _ 128 = (0x4B : UInt8) := Option.some.inj himage
      rw [hbyte] at hfound
      revert hfound
      decide

end Container
