import Mathlib.Data.List.Pairwise
import Ubpftrace.Bytes

/-!
# Reservations in recycled buffers

The abstract life of a set of buffers that are filled by reservation, flushed
and recycled. An extent is reserved at the top of a buffer, filled by its
holder alone, committed, handed over by the one flush of its epoch, and gone
after the reset that ends the epoch. Nothing here says how holders and the
flusher keep out of each other's way: the guards of `Step` are what a
concurrent implementation has to establish.
-/

namespace EpochLedger

open Function
open Bytes (Holds tiles_snoc)

/-- A byte range of one buffer in one epoch, the epochs of a buffer being
counted by its resets. -/
structure Extent where
  buf : Nat
  gen : Nat
  offset : Nat
  len : Nat
  deriving DecidableEq

def Extent.key (e : Extent) : Nat × Nat := (e.buf, e.gen)

/-- One of the two ranges ends before the other begins. -/
def Extent.Apart (e f : Extent) : Prop := e.offset + e.len ≤ f.offset ∨ f.offset + f.len ≤ e.offset

/-- The extents of one epoch, in the order in which they were granted. -/
def inEpoch (k : Nat × Nat) (gs : List Extent) : List Extent := gs.filter (·.key = k)

/-- The extents fill the range from the first offset to the second without gap or overlap. -/
abbrev Tiles : Nat → List Extent → Nat → Prop := Bytes.Tiles Extent.offset Extent.len

variable {gs : List Extent} {g : Extent}

theorem filter_key {α β : Type} [DecidableEq β] (key : α → β) {l : List α}
    (h : l.Pairwise fun x y => key x ≠ key y) {k : α} (hk : k ∈ l) : l.filter (fun x => key x = key k) = [k] := by
  obtain ⟨as, bs, rfl⟩ := List.append_of_mem hk
  obtain ⟨-, hbs, has⟩ := List.pairwise_append.mp h
  refine List.filter_eq_cons_iff.mpr ⟨as, bs, rfl, ?_, by simp, List.filter_eq_nil_iff.mpr ?_⟩
  · simpa using fun x hx => has x hx k List.mem_cons_self
  · simpa using fun y hy => ((List.pairwise_cons.mp hbs).1 y hy).symm

structure Flush where
  buf : Nat
  gen : Nat
  len : Nat
  data : Nat → UInt8

def Flush.key (f : Flush) : Nat × Nat := (f.buf, f.gen)

@[ext] structure Ledger (ι : Type) where
  top : Nat → Nat
  resets : Nat → Nat
  data : Nat → Nat → UInt8
  held : ι → Option Extent
  grants : List Extent
  commits : List (Extent × List UInt8)
  flushes : List Flush

variable {ι : Type}

/-- The epoch a buffer is in now. -/
def Ledger.now (L : Ledger ι) (b : Nat) : Nat × Nat := (b, L.resets b)

def Ledger.Idle (L : Ledger ι) (b : Nat) : Prop := ∀ t e, L.held t = some e → e.buf ≠ b

/-- The extent the next reservation of `len` bytes in buffer `b` gets. -/
def Ledger.next (L : Ledger ι) (b len : Nat) : Extent := ⟨b, L.resets b, L.top b, len⟩

/-- Every epoch's extents tile the buffer from its start, and the top is where
they end unless a reservation has overflowed. -/
structure Spaced (cap : Nat) (L : Ledger ι) : Prop where
  gen_le : ∀ g ∈ L.grants, g.gen ≤ L.resets g.buf
  len_pos : ∀ g ∈ L.grants, 0 < g.len
  tiles : ∀ k, ∃ e ≤ cap, Tiles 0 (inEpoch k L.grants) e
  top : ∀ b e, Tiles 0 (inEpoch (L.now b) L.grants) e → L.top b = e ∨ cap < L.top b

/-- Every extent is held by one holder of the running epoch or committed once. -/
structure Owned (L : Ledger ι) : Prop where
  held_mem : ∀ t e, L.held t = some e → e ∈ L.grants
  held_now : ∀ t e, L.held t = some e → e.gen = L.resets e.buf
  held_inj : ∀ t u e, L.held t = some e → L.held u = some e → t = u
  held_fresh : ∀ t e, L.held t = some e → e ∉ L.commits.map Prod.fst
  commit_mem : ∀ c ∈ L.commits, c.1 ∈ L.grants
  commit_len : ∀ c ∈ L.commits, c.2.length = c.1.len
  commit_nodup : (L.commits.map Prod.fst).Nodup
  accounted : ∀ g ∈ L.grants, g ∈ L.commits.map Prod.fst ∨ ∃ t, L.held t = some g

/-- Committed bytes stand in the buffer until the epoch ends, and in its flush. -/
structure Stored (L : Ledger ι) : Prop where
  bytes : ∀ c ∈ L.commits, c.1.gen = L.resets c.1.buf → Holds (L.data c.1.buf) c.1.offset c.2
  flush_gen : ∀ f ∈ L.flushes, f.gen ≤ L.resets f.buf
  flush_idle : ∀ f ∈ L.flushes, f.gen = L.resets f.buf → L.Idle f.buf
  flush_once : L.flushes.Pairwise (fun f g => f.key ≠ g.key)
  flush_bytes : ∀ f ∈ L.flushes, ∀ c ∈ L.commits, c.1.key = f.key →
    c.1.offset + c.1.len ≤ f.len ∧ Holds f.data c.1.offset c.2
  flushed : ∀ c ∈ L.commits, c.1.gen < L.resets c.1.buf → ∃ f ∈ L.flushes, f.key = c.1.key

structure WellFormed (cap : Nat) (L : Ledger ι) : Prop where
  spaced : Spaced cap L
  owned : Owned L
  stored : Stored L

@[simp] theorem mem_inEpoch (k : Nat × Nat) (gs : List Extent) (g : Extent) :
    g ∈ inEpoch k gs ↔ g ∈ gs ∧ g.key = k := by
  simp [inEpoch]

theorem inEpoch_snoc_same (gs : List Extent) (g : Extent) :
    inEpoch g.key (gs ++ [g]) = inEpoch g.key gs ++ [g] := by
  simp [inEpoch, List.filter_append]

theorem inEpoch_snoc_other (k : Nat × Nat) (gs : List Extent) (g : Extent) (h : g.key ≠ k) :
    inEpoch k (gs ++ [g]) = inEpoch k gs := by
  simp [inEpoch, List.filter_append, h]

variable {cap : Nat} {L : Ledger ι}

section

variable (h : Spaced cap L)
include h

theorem Spaced.apart {f : Extent} (hf : f ∈ L.grants) (hg : g ∈ L.grants)
    (hk : f.key = g.key) (hne : f ≠ g) : f.Apart g := by
  obtain ⟨e, -, ht⟩ := h.tiles g.key
  have hp : (inEpoch g.key L.grants).Pairwise Extent.Apart :=
    ht.pairwise.imp fun hle => Or.inl hle
  have : Std.Symm Extent.Apart := ⟨fun _ _ ha => Or.symm ha⟩
  exact hp.forall (by simp [hf, hk]) (by simp [hg]) hne

theorem Spaced.pairwise_apart : L.grants.Pairwise fun f g => f.key = g.key → f.Apart g := by
  rw [List.pairwise_iff_getElem]
  intro i j hi hj hij hk
  obtain ⟨e, -, ht⟩ := h.tiles L.grants[j].key
  have hp := ht.pairwise
  rw [inEpoch, List.pairwise_filter, List.pairwise_iff_getElem] at hp
  exact Or.inl (hp i j hi hj hij (by simpa using hk) (by simp))

theorem Spaced.end_le (hg : g ∈ L.grants) (hn : g.gen = L.resets g.buf) :
    g.offset + g.len ≤ min (L.top g.buf) cap := by
  obtain ⟨e, he, ht⟩ := h.tiles g.key
  have hm := (ht.within (x := g) (by simp [hg])).2
  have hk : L.now g.buf = g.key := by simp [Ledger.now, Extent.key, hn]
  rcases h.top g.buf e (by rw [hk]; exact ht) with htop | htop <;> omega

theorem Spaced.end_le_cap (hg : g ∈ L.grants) : g.offset + g.len ≤ cap := by
  obtain ⟨e, he, ht⟩ := h.tiles g.key
  have := (ht.within (x := g) (by simp [hg])).2
  omega

theorem Spaced.next_fresh (b len : Nat) (hl : 0 < len) (hfit : L.top b + len ≤ cap) :
    L.next b len ∉ L.grants := by
  intro hm
  have := h.end_le hm rfl
  simp only [Ledger.next] at this
  omega

theorem spaced_grant (b len : Nat) (hl : 0 < len) (hfit : L.top b + len ≤ cap)
    (held : ι → Option Extent) :
    Spaced cap { L with
      top := update L.top b (L.top b + len)
      held := held
      grants := L.grants ++ [L.next b len] } := by
  obtain ⟨e, -, ht⟩ := h.tiles (L.now b)
  obtain rfl : L.top b = e := by rcases h.top b e ht with h' | h' <;> omega
  have hs : inEpoch (L.now b) (L.grants ++ [L.next b len]) = inEpoch (L.now b) L.grants ++ [L.next b len] :=
    inEpoch_snoc_same L.grants (L.next b len)
  refine ⟨?_, ?_, ?_, ?_⟩
  · intro g hg
    rcases List.mem_append.mp hg with hg | hg
    · exact h.gen_le g hg
    · rw [List.mem_singleton] at hg
      subst hg
      exact Nat.le_refl _
  · intro g hg
    rcases List.mem_append.mp hg with hg | hg
    · exact h.len_pos g hg
    · rw [List.mem_singleton] at hg
      subst hg
      exact hl
  · intro k
    by_cases hk : L.now b = k
    · subst hk
      refine ⟨_, hfit, ?_⟩
      rw [hs]
      exact tiles_snoc.mpr ⟨ht, rfl⟩
    · obtain ⟨e', he', ht'⟩ := h.tiles k
      exact ⟨e', he', by simpa only [inEpoch_snoc_other k L.grants (L.next b len) hk] using ht'⟩
  · intro b' e' ht'
    by_cases hb : b' = b
    · subst hb
      change Tiles 0 (inEpoch (L.now b') (L.grants ++ [L.next b' len])) e' at ht'
      rw [hs] at ht'
      left
      simp only [update_self]
      exact (tiles_snoc.mp ht').2.symm
    · have hk : (L.next b len).key ≠ L.now b' := by
        simp [Ledger.next, Extent.key, Ledger.now, Ne.symm hb]
      have := h.top b' e' (by
        change Tiles 0 (inEpoch (L.now b') (L.grants ++ [L.next b len])) e' at ht'
        rwa [inEpoch_snoc_other _ _ _ hk] at ht')
      simpa [update_of_ne hb] using this

theorem spaced_overflow (b len : Nat) (hover : cap < L.top b + len) :
    Spaced cap { L with top := update L.top b (L.top b + len) } := by
  refine { h with top := ?_ }
  intro b' e ht
  by_cases hb : b' = b
  · subst hb
    right
    simpa using hover
  · simpa [update_of_ne hb] using h.top b' e ht

theorem Spaced.inEpoch_later (b n : Nat) (hn : L.resets b < n) :
    inEpoch (b, n) L.grants = [] := by
  rw [List.eq_nil_iff_forall_not_mem]
  intro g hg
  obtain ⟨hm, hk⟩ := (mem_inEpoch _ _ _).mp hg
  simp only [Extent.key, Prod.mk.injEq] at hk
  have := h.gen_le g hm
  rw [hk.1, hk.2] at this
  omega

theorem spaced_reset (b : Nat) :
    Spaced cap { L with
      top := update L.top b 0
      resets := update L.resets b (L.resets b + 1) } := by
  refine ⟨?_, h.len_pos, h.tiles, ?_⟩
  · intro g hg
    have := h.gen_le g hg
    by_cases hb : g.buf = b
    · subst hb
      simp only [update_self]
      omega
    · simpa [update_of_ne hb] using this
  · intro b' e ht
    by_cases hb : b' = b
    · subst hb
      simp only [Ledger.now, update_self, h.inEpoch_later b' _ (Nat.lt_succ_self _), Bytes.Tiles] at ht ⊢
      omega
    · simp only [Ledger.now, update_of_ne hb] at ht ⊢
      exact h.top b' e ht

end

theorem stored_put (h : Stored L) (hsp : Spaced cap L) (ho : Owned L) (t : ι) (e : Extent) (i : Nat) (x : UInt8)
    (ht : L.held t = some e) (hi : i < e.len) :
    Stored { L with
      data := update L.data e.buf (update (L.data e.buf) (e.offset + i) x) } := by
  refine { h with bytes := ?_ }
  intro c hc hn
  by_cases hb : c.1.buf = e.buf
  · have hne : c.1 ≠ e := by
      intro he
      exact ho.held_fresh t e ht (List.mem_map.mpr ⟨c, hc, he⟩)
    have hk : c.1.key = e.key := by
      simp only [Extent.key, Prod.mk.injEq]
      exact ⟨hb, by rw [hn, ho.held_now t e ht, hb]⟩
    have hap := hsp.apart (ho.commit_mem c hc) (ho.held_mem t e ht) hk hne
    have hlen := ho.commit_len c hc
    have hold := h.bytes c hc hn
    simp only [hb, update_self]
    refine Bytes.holds_congr _ _ _ _ ?_ (hb ▸ hold)
    intro j hj
    rw [update_of_ne]
    rcases hap with hap | hap <;> omega
  · simpa [update_of_ne hb] using h.bytes c hc hn

theorem stored_flush (h : Stored L) (hsp : Spaced cap L) (ho : Owned L) (b : Nat) (hidle : L.Idle b)
    (hnew : ∀ f ∈ L.flushes, f.key ≠ L.now b) :
    Stored { L with flushes := L.flushes ++ [⟨b, L.resets b, min (L.top b) cap, L.data b⟩] } := by
  refine ⟨h.bytes, ?_, ?_, ?_, ?_, ?_⟩
  · intro f hf
    rcases List.mem_append.mp hf with hf | hf
    · exact h.flush_gen f hf
    · rw [List.mem_singleton.mp hf]
  · intro f hf hn
    rcases List.mem_append.mp hf with hf | hf
    · exact h.flush_idle f hf hn
    · rw [List.mem_singleton.mp hf]
      exact hidle
  · rw [List.pairwise_append]
    refine ⟨h.flush_once, List.pairwise_singleton _ _, ?_⟩
    intro f hf g hg
    rw [List.mem_singleton.mp hg]
    exact hnew f hf
  · intro f hf c hc hk
    rcases List.mem_append.mp hf with hf | hf
    · exact h.flush_bytes f hf c hc hk
    · rw [List.mem_singleton.mp hf] at hk ⊢
      simp only [Extent.key, Flush.key, Prod.mk.injEq] at hk
      have hn : c.1.gen = L.resets c.1.buf := by rw [hk.2, hk.1]
      have hend := hsp.end_le (ho.commit_mem c hc) hn
      have hbytes := h.bytes c hc hn
      rw [hk.1] at hend hbytes
      exact ⟨hend, hbytes⟩
  · intro c hc hlt
    obtain ⟨f, hf, hk⟩ := h.flushed c hc hlt
    exact ⟨f, List.mem_append.mpr (Or.inl hf), hk⟩

/-- A top of zero means that nothing was granted in the running epoch. -/
theorem Spaced.top_zero (h : Spaced cap L) {b : Nat} (hz : L.top b = 0) (hg : g ∈ L.grants)
    (hb : g.buf = b) : g.gen ≠ L.resets b := by
  intro hn
  have := h.end_le hg (by rw [hb, hn])
  have := h.len_pos g hg
  rw [hb, hz] at *
  omega

theorem stored_reset (h : Stored L) (hsp : Spaced cap L) (ho : Owned L) (b : Nat)
    (hdone : L.top b = 0 ∨ ∃ f ∈ L.flushes, f.key = L.now b) :
    Stored { L with
      top := update L.top b 0
      resets := update L.resets b (L.resets b + 1) } := by
  refine ⟨?_, ?_, ?_, h.flush_once, h.flush_bytes, ?_⟩
  · intro c hc hn
    by_cases hb : c.1.buf = b
    · simp only [hb, update_self] at hn
      have := hsp.gen_le c.1 (ho.commit_mem c hc)
      rw [hb] at this
      omega
    · exact h.bytes c hc (by simpa [update_of_ne hb] using hn)
  · intro f hf
    have := h.flush_gen f hf
    by_cases hb : f.buf = b
    · simp only [hb, update_self]
      rw [hb] at this
      omega
    · simpa [update_of_ne hb] using this
  · intro f hf hn
    by_cases hb : f.buf = b
    · simp only [hb, update_self] at hn
      have := h.flush_gen f hf
      rw [hb] at this
      omega
    · exact h.flush_idle f hf (by simpa [update_of_ne hb] using hn)
  · intro c hc hlt
    by_cases hb : c.1.buf = b
    · by_cases hold : c.1.gen < L.resets c.1.buf
      · exact h.flushed c hc hold
      · have hn : c.1.gen = L.resets b := by
          simp only [hb, update_self] at hlt hold
          omega
        rcases hdone with hz | ⟨f, hf, hk⟩
        · exact absurd hn (hsp.top_zero hz (ho.commit_mem c hc) hb)
        · exact ⟨f, hf, by rw [hk]; simp [Ledger.now, Extent.key, hb, hn]⟩
    · exact h.flushed c hc (by simpa [update_of_ne hb] using hlt)

variable [DecidableEq ι] {L' : Ledger ι}

inductive Step (cap : Nat) (L : Ledger ι) : Ledger ι → Prop where
  | grant (t : ι) (b len : Nat) : L.held t = none → 0 < len → L.top b + len ≤ cap →
      (∀ f ∈ L.flushes, f.key ≠ L.now b) →
      Step cap L { L with
        top := update L.top b (L.top b + len)
        held := update L.held t (some (L.next b len))
        grants := L.grants ++ [L.next b len] }
  | overflow (b len : Nat) : cap < L.top b + len →
      Step cap L { L with top := update L.top b (L.top b + len) }
  | put (t : ι) (e : Extent) (i : Nat) (x : UInt8) : L.held t = some e → i < e.len →
      Step cap L { L with
        data := update L.data e.buf (update (L.data e.buf) (e.offset + i) x) }
  | commit (t : ι) (e : Extent) (bs : List UInt8) : L.held t = some e → bs.length = e.len →
      Holds (L.data e.buf) e.offset bs →
      Step cap L { L with
        held := update L.held t none
        commits := L.commits ++ [(e, bs)] }
  | flush (b : Nat) : L.Idle b → (∀ f ∈ L.flushes, f.key ≠ L.now b) →
      Step cap L { L with flushes := L.flushes ++ [⟨b, L.resets b, min (L.top b) cap, L.data b⟩] }
  | reset (b : Nat) : L.Idle b → (L.top b = 0 ∨ ∃ f ∈ L.flushes, f.key = L.now b) →
      Step cap L { L with
        top := update L.top b 0
        resets := update L.resets b (L.resets b + 1) }

theorem step_spaced (h : Spaced cap L) (hs : Step cap L L') : Spaced cap L' := by
  cases hs with
  | grant t b len _ hl hfit _ => exact spaced_grant h b len hl hfit _
  | overflow b len hover => exact spaced_overflow h b len hover
  | put t e i x _ _ | commit t e bs _ _ _ | flush b _ _ => exact { h with }
  | reset b _ _ => exact spaced_reset h b

/-- What an updated holder map holds, at the updated thread and elsewhere. -/
theorem update_held {held : ι → Option Extent} {t u : ι} {o : Option Extent} {e : Extent}
    (h : update held t o u = some e) : (u = t ∧ o = some e) ∨ (u ≠ t ∧ held u = some e) := by
  by_cases hu : u = t
  · subst hu
    exact Or.inl ⟨rfl, by simpa using h⟩
  · exact Or.inr ⟨hu, by simpa [update_of_ne hu] using h⟩

theorem owned_grant (h : Owned L) (hsp : Spaced cap L) (t : ι) (b len : Nat) (ht : L.held t = none)
    (hl : 0 < len) (hfit : L.top b + len ≤ cap) :
    Owned { L with
      top := update L.top b (L.top b + len)
      held := update L.held t (some (L.next b len))
      grants := L.grants ++ [L.next b len] } := by
  have hfresh := hsp.next_fresh b len hl hfit
  refine ⟨?_, ?_, ?_, ?_, ?_, h.commit_len, h.commit_nodup, ?_⟩
  · intro u e hu
    rcases update_held hu with ⟨-, he⟩ | ⟨-, he⟩
    · simp [← Option.some.inj he]
    · exact List.mem_append.mpr (Or.inl (h.held_mem u e he))
  · intro u e hu
    rcases update_held hu with ⟨-, he⟩ | ⟨-, he⟩
    · rw [← Option.some.inj he]
      rfl
    · exact h.held_now u e he
  · intro u v e hu hv
    rcases update_held hu with ⟨hu, he⟩ | ⟨hu, he⟩ <;> rcases update_held hv with ⟨hv, hf⟩ | ⟨hv, hf⟩
    · rw [hu, hv]
    · rw [← Option.some.inj he] at hf
      exact absurd (h.held_mem v _ hf) hfresh
    · rw [← Option.some.inj hf] at he
      exact absurd (h.held_mem u _ he) hfresh
    · exact h.held_inj u v e he hf
  · intro u e hu
    rcases update_held hu with ⟨-, he⟩ | ⟨-, he⟩
    · rw [← Option.some.inj he]
      intro hm
      obtain ⟨c, hc, hce⟩ := List.mem_map.mp hm
      exact hfresh (hce ▸ h.commit_mem c hc)
    · exact h.held_fresh u e he
  · intro c hc
    exact List.mem_append.mpr (Or.inl (h.commit_mem c hc))
  · intro g hg
    rcases List.mem_append.mp hg with hg | hg
    · rcases h.accounted g hg with hc | ⟨u, hu⟩
      · exact Or.inl hc
      · refine Or.inr ⟨u, ?_⟩
        have hne : u ≠ t := by intro he; rw [he, ht] at hu; cases hu
        simpa [update_of_ne hne] using hu
    · rw [List.mem_singleton] at hg
      exact Or.inr ⟨t, by simp [hg]⟩

theorem owned_commit (h : Owned L) (t : ι) (e : Extent) (bs : List UInt8) (ht : L.held t = some e)
    (hlen : bs.length = e.len) :
    Owned { L with
      held := update L.held t none
      commits := L.commits ++ [(e, bs)] } := by
  have hkeep : ∀ u f, update L.held t none u = some f → u ≠ t ∧ L.held u = some f := by
    intro u f hu
    rcases update_held hu with ⟨-, he⟩ | he
    · cases he
    · exact he
  refine ⟨fun u f hu => h.held_mem u f (hkeep u f hu).2, fun u f hu => h.held_now u f (hkeep u f hu).2,
    fun u v f hu hv => h.held_inj u v f (hkeep u f hu).2 (hkeep v f hv).2, ?_, ?_, ?_, ?_, ?_⟩
  · intro u f hu
    obtain ⟨hne, hf⟩ := hkeep u f hu
    rw [List.map_append, List.mem_append]
    rintro (hm | hm)
    · exact h.held_fresh u f hf hm
    · simp only [List.map_cons, List.map_nil, List.mem_singleton] at hm
      exact hne (h.held_inj u t e (hm ▸ hf) ht)
  · intro c hc
    rcases List.mem_append.mp hc with hc | hc
    · exact h.commit_mem c hc
    · rw [List.mem_singleton.mp hc]
      exact h.held_mem t e ht
  · intro c hc
    rcases List.mem_append.mp hc with hc | hc
    · exact h.commit_len c hc
    · rw [List.mem_singleton.mp hc]
      exact hlen
  · rw [List.map_append, List.nodup_append]
    refine ⟨h.commit_nodup, by simp, ?_⟩
    intro f hf g hg he
    simp only [List.map_cons, List.map_nil, List.mem_singleton] at hg
    exact h.held_fresh t e ht (by rw [← hg, ← he]; exact hf)
  · intro g hg
    rw [List.map_append, List.mem_append]
    rcases h.accounted g hg with hc | ⟨u, hu⟩
    · exact Or.inl (Or.inl hc)
    · by_cases hut : u = t
      · subst hut
        exact Or.inl (Or.inr (by simp [Option.some.inj (hu.symm.trans ht)]))
      · exact Or.inr ⟨u, by simpa [update_of_ne hut] using hu⟩

theorem step_owned (h : Owned L) (hsp : Spaced cap L) (hs : Step cap L L') : Owned L' := by
  cases hs with
  | grant t b len ht hl hfit _ => exact owned_grant h hsp t b len ht hl hfit
  | overflow b len _ | put t e i x _ _ | flush b _ _ => exact { h with }
  | commit t e bs ht hlen _ => exact owned_commit h t e bs ht hlen
  | reset b hidle _ =>
    refine { h with held_now := ?_ }
    intro t e ht
    have hb := hidle t e ht
    simpa [update_of_ne hb] using h.held_now t e ht

theorem stored_commit (h : Stored L) (ho : Owned L) (t : ι) (e : Extent) (bs : List UInt8)
    (ht : L.held t = some e) (hbs : Holds (L.data e.buf) e.offset bs) :
    Stored { L with
      held := update L.held t none
      commits := L.commits ++ [(e, bs)] } := by
  have hnow := ho.held_now t e ht
  refine ⟨?_, h.flush_gen, ?_, h.flush_once, ?_, ?_⟩
  · intro c hc hn
    rcases List.mem_append.mp hc with hc | hc
    · exact h.bytes c hc hn
    · rw [List.mem_singleton.mp hc]
      exact hbs
  · intro f hf hn u d hu
    rcases update_held hu with ⟨-, hd⟩ | ⟨-, hd⟩
    · cases hd
    · exact h.flush_idle f hf hn u d hd
  · intro f hf c hc hk
    rcases List.mem_append.mp hc with hc | hc
    · exact h.flush_bytes f hf c hc hk
    · -- the epoch of a held extent has not been flushed
      rw [List.mem_singleton.mp hc] at hk
      simp only [Extent.key, Flush.key, Prod.mk.injEq] at hk
      exact absurd hk.1 (h.flush_idle f hf (by rw [← hk.1, ← hk.2, hnow]) t e ht)
  · intro c hc hlt
    rcases List.mem_append.mp hc with hc | hc
    · exact h.flushed c hc hlt
    · rw [List.mem_singleton.mp hc] at hlt
      exact absurd hlt (by simp [hnow])

theorem step_stored (h : Stored L) (hsp : Spaced cap L) (ho : Owned L) (hs : Step cap L L') : Stored L' := by
  cases hs with
  | grant t b len _ _ _ hopen =>
    refine { h with flush_idle := ?_ }
    intro f hf hn u e hu
    rcases update_held hu with ⟨-, he⟩ | ⟨-, he⟩
    · rw [← Option.some.inj he]
      intro hb
      exact hopen f hf (by simp [Flush.key, Ledger.now, ← hb, Ledger.next, hn])
    · exact h.flush_idle f hf hn u e he
  | overflow b len _ => exact { h with }
  | put t e i x ht hi => exact stored_put h hsp ho t e i x ht hi
  | commit t e bs ht _ hbs => exact stored_commit h ho t e bs ht hbs
  | flush b hidle hnew => exact stored_flush h hsp ho b hidle hnew
  | reset b _ hdone => exact stored_reset h hsp ho b hdone

theorem step_wellFormed (h : WellFormed cap L) (hs : Step cap L L') : WellFormed cap L' :=
  ⟨step_spaced h.spaced hs, step_owned h.owned h.spaced hs, step_stored h.stored h.spaced h.owned hs⟩

end EpochLedger
