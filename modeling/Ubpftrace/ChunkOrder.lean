import Ubpftrace.ReserveAccounting

/-!
# The order of chunks

The worker flushes the two buffers in turns. Whatever the writers do inside their buffers, and also
when it gives up waiting for them, it hands over each epoch of a buffer once at most.
-/

namespace ShmBuffer

open Function
open Runs (Reaches run reaches_of_run)

variable {ι : Type} {cfg : ι → Thread} {s s' : State ι}

/-- The buffer that is flushed, or that the next swap will flush. -/
def State.turn (s : State ι) : Nat := s.worker.flushing.getD s.active

/-- Where the epoch of a chunk comes if the buffers take turns. -/
def Chunk.place (c : Chunk) : Nat := 2 * c.gen + c.buf

/-- The place of the next chunk. -/
def State.place (s : State ι) : Nat :=
  2 * s.log.resets s.turn + s.turn + if s.worker = .recycle s.turn then 1 else 0

structure Ordered (s : State ι) : Prop where
  flushing : ∀ b, s.worker.flushing = some b → b + s.active = 1
  -- the epoch of the other buffer comes right behind
  turns : 2 * s.log.resets s.turn + s.turn + 1 = 2 * s.log.resets (1 - s.turn) + (1 - s.turn)
  below : ∀ c ∈ s.log.chunks, c.buf < 2 ∧ c.place < s.place
  sorted : s.log.chunks.Pairwise fun c d => c.place < d.place
  windows : s.log.chunks.map Chunk.startNs ++ [s.lastFlushNs] = 0 :: s.log.chunks.map Chunk.endNs

theorem Ordered.keep (h : Ordered s) (hturn : s'.turn = s.turn)
    (hflush : ∀ b, s'.worker.flushing = some b → b + s'.active = 1)
    (hworker : s'.worker = s.worker ∨ s.worker ≠ .recycle s.turn) (hresets : s'.log.resets = s.log.resets)
    (hchunks : s'.log.chunks = s.log.chunks) (hlast : s'.lastFlushNs = s.lastFlushNs) : Ordered s' := by
  have hplace : s.place ≤ s'.place := by
    rw [State.place, State.place, hturn, hresets]
    obtain heq | hne := hworker
    · rw [heq]
    · rw [if_neg hne]
      omega
  refine ⟨hflush, ?_, ?_, hchunks ▸ h.sorted, ?_⟩
  · rw [hturn, hresets]
    exact h.turns
  · rw [hchunks]
    exact fun c hc => ⟨(h.below c hc).1, (h.below c hc).2.trans_le hplace⟩
  · rw [hchunks, hlast]
    exact h.windows

theorem workerStep_ordered (hi : Indexed cfg s) (h : Ordered s) (hs : workerStep s = some s') : Ordered s' := by
  have hlt := hi.active
  have hflush := h.flushing
  have hturns := h.turns
  have hbelow := h.below
  cases workerStep_cases hs with
  | load _ hw | skip _ _ hw | go _ _ hw | spin _ _ hw | drained _ _ hw | measure _ hw | empty _ hw | stream _ _ hw
  | read _ _ _ _ _ hw | total _ _ _ _ _ hw =>
    rw [hw] at hflush
    exact h.keep (by rw [State.turn, State.turn, hw]; rfl) hflush (.inr (by rw [hw]; nofun)) rfl rfl rfl
  | swap current hw =>
    have hcur : bufIdx current = s.active := by rw [hi.loaded current (by rw [hw]; rfl)]; rfl
    have hnext : bufIdx (nextWord current) = 1 - bufIdx current := bufIdx_nextWord current (hcur ▸ hlt)
    refine h.keep (by rw [State.turn, State.turn, hw]; exact hcur) ?_ (.inr (by rw [hw]; nofun)) rfl rfl rfl
    intro b hb
    obtain rfl := Option.some.inj hb
    change bufIdx current + bufIdx (nextWord current) = 1
    omega
  | write b len dropped recorded hw =>
    have hturn : s.turn = b := by rw [State.turn, hw]; rfl
    rw [hw] at hflush
    have hb := hflush b rfl
    rw [State.place, hw, if_neg nofun, hturn] at hbelow
    rw [hturn] at hturns
    refine ⟨hflush, hturns, ?_, ?_, ?_⟩
    · intro c hc
      change _ ∧ c.place < 2 * s.log.resets b + b + if Worker.recycle b = .recycle b then 1 else 0
      rw [if_pos rfl]
      obtain hc | hc := List.mem_append.mp hc
      · exact ⟨(hbelow c hc).1, by have := (hbelow c hc).2; omega⟩
      · obtain rfl := List.mem_singleton.mp hc
        exact ⟨by change b < 2; omega, by simp [Chunk.place]⟩
    · refine List.pairwise_append.mpr ⟨h.sorted, List.pairwise_singleton _ _, ?_⟩
      intro c hc d hd
      obtain rfl := List.mem_singleton.mp hd
      exact (hbelow c hc).2
    · simp only [List.map_append]
      exact congrArg (· ++ [s.now]) h.windows
  | recycle b hw =>
    have hturn : s.turn = b := by rw [State.turn, hw]; rfl
    have hb : b + s.active = 1 := hflush b (by rw [hw]; rfl)
    have hother : s.active = 1 - b := by omega
    rw [State.place, hturn, hw, if_pos rfl] at hbelow
    rw [hturn] at hturns
    have hself : update s.log.resets b (s.log.resets b + 1) b = s.log.resets b + 1 := update_self ..
    have hne : update s.log.resets b (s.log.resets b + 1) (1 - b) = s.log.resets (1 - b) := update_of_ne (by omega) ..
    have hback : 1 - (1 - b) = b := by omega
    refine ⟨nofun, ?_, ?_, h.sorted, h.windows⟩
    · change 2 * update s.log.resets b (s.log.resets b + 1) s.active + s.active + 1 =
        2 * update s.log.resets b (s.log.resets b + 1) (1 - s.active) + (1 - s.active)
      rw [hother, hback, hself, hne]
      omega
    · intro c hc
      change _ ∧ c.place < 2 * update s.log.resets b (s.log.resets b + 1) s.active + s.active + 0
      rw [hother, hne]
      exact ⟨(hbelow c hc).1, by have := (hbelow c hc).2; omega⟩

variable [DecidableEq ι]

theorem step_ordered (hi : Indexed cfg s) (h : Ordered s) (a : Action ι) (hs : step cfg s a = some s') :
    Ordered s' := by
  cases step_cases hs with
  | unranked | call | tick => exact h.keep rfl h.flushing (.inl rfl) rfl rfl rfl
  | flush force hw =>
    exact h.keep (by rw [State.turn, State.turn, hw]; rfl) nofun (.inr (by rw [hw]; nofun)) rfl rfl rfl
  | worker _ hs => exact workerStep_ordered hi h hs
  | writer t _ hs => cases writerStep_cases hs <;> exact h.keep rfl h.flushing (.inl rfl) rfl rfl rfl

theorem reaches_ordered {ok : State ι → Action ι → Prop} (h : Reaches (step cfg) ok (init ι) s) : Ordered s := by
  have hinit : Ordered (init ι) := ⟨nofun, rfl, nofun, .nil, rfl⟩
  exact (h.invariant (fun s => Indexed cfg s ∧ Ordered s) ⟨init_indexed, hinit⟩
    fun t a u ht _ hst => ⟨step_indexed ht.1 a hst, step_ordered ht.1 ht.2 a hst⟩).2

/-- In every interleaving in which no length or offset wraps, also where a drain loop gives up, the
chunks come in the order of their epochs, which alternate between the buffers, no epoch twice, and the
times of each chunk begin where those of the one before it end. -/
theorem chunks_in_order (cfg : ι → Thread) (s : State ι) (h : Reaches (step cfg) Inside (init ι) s) :
    (∀ c ∈ s.log.chunks, c.buf < 2) ∧ s.log.chunks.Pairwise (fun c d => c.place < d.place) ∧
      s.log.chunks.map Chunk.startNs ++ [s.lastFlushNs] = 0 :: s.log.chunks.map Chunk.endNs := by
  have ho := reaches_ordered h
  exact ⟨fun c hc => (ho.below c hc).1, ho.sorted, ho.windows⟩

/-- Two records, each flushed on its own. -/
theorem chunks_in_order_twice : ∃ s, Reaches (step solo) Inside (init Unit) s ∧
    s.log.chunks.map Chunk.place = [0, 1] ∧ s.log.chunks.Pairwise fun c d => c.place < d.place := by
  have hrun : (run (step solo) Inside (init Unit)
      (logSteps () probe ++ flushSteps false ++ logSteps () probe ++ flushSteps false)).map
        (fun s => s.log.chunks.map Chunk.place) = some [0, 1] := by decide +kernel
  obtain ⟨s, hs, hplaces⟩ := Option.map_eq_some_iff.mp hrun
  have h := reaches_of_run _ hs
  exact ⟨s, h, hplaces, (chunks_in_order solo s h).2.1⟩

end ShmBuffer
