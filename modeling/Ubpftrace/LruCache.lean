import Mathlib.Data.List.Nodup
import Mathlib.Data.List.Perm.Subperm

/-!
# A cache that forgets what was not used for longest

The keys stand in the order of their last use. A successful lookup or update is a use.
A new key takes the place of the last one when all places are taken.
-/

namespace LruCache

section Uses

variable {K : Type} {us : List (Option K)} {a b k : K}

/-- After a use of `a` there was none of `b`, in a history of calls that use a key or none. -/
def UsedSince (us : List (Option K)) (a b : K) : Prop :=
  ∃ before later, us = before ++ some a :: later ∧ a ≠ b ∧ some b ∉ later

theorem UsedSince.concat (h : UsedSince us a b) {u : Option K} (hu : u ≠ some b) : UsedSince (us ++ [u]) a b := by
  obtain ⟨before, later, rfl, hne, hlater⟩ := h
  refine ⟨before, later ++ [u], by simp, hne, ?_⟩
  simp [hlater, hu.symm]

theorem usedSince_last (hne : k ≠ b) : UsedSince (us ++ [some k]) k b := ⟨us, [], by simp, hne, by simp⟩

abbrev Recent (us : List (Option K)) (ks : List K) : Prop := ks.Pairwise (UsedSince us)

theorem Recent.idle {ks : List K} (h : Recent us ks) : Recent (us ++ [none]) ks :=
  h.imp fun hab => hab.concat (by simp)

theorem Recent.use {ks : List K} (h : Recent us ks) (hk : k ∉ ks) : Recent (us ++ [some k]) (k :: ks) := by
  refine List.pairwise_cons.mpr ⟨?_, ?_⟩
  · rintro b hb
    exact usedSince_last fun heq => hk (heq ▸ hb)
  · refine h.imp_of_mem fun _ hb hab => hab.concat ?_
    rintro ⟨⟩
    exact hk hb

theorem UsedSince.of_concat {u : Option K} (h : UsedSince (us ++ [u]) a b) :
    UsedSince us a b ∧ u ≠ some b ∨ u = some a := by
  obtain ⟨before, later, heq, hne, hlater⟩ := h
  obtain rfl | ⟨later, u', rfl⟩ := List.eq_nil_or_concat' later
  · exact .inr (List.singleton_inj.mp (List.append_inj_right' heq rfl))
  · rw [← List.cons_append, ← List.append_assoc] at heq
    obtain rfl : u = u' := List.singleton_inj.mp (List.append_inj_right' heq rfl)
    rw [List.mem_append, List.mem_singleton, not_or] at hlater
    exact .inl ⟨⟨before, later, List.append_inj_left' heq rfl, hne, hlater.1⟩, Ne.symm hlater.2⟩

end Uses

inductive Request (K V : Type) where
  | lookup (key : K)
  | update (key : K) (value : V) (create replace : Bool)
  | delete (key : K)

/-- The key that a call uses, given whether it succeeds. -/
def Request.use {K V : Type} : Request K V → Bool → Option K
  | .lookup k, true | .update k _ _ _, true => some k
  | _, _ => none

def Request.key {K V : Type} : Request K V → K
  | .lookup k | .update k _ _ _ | .delete k => k

theorem Request.key_of_use {K V : Type} {r : Request K V} {ok : Bool} {k : K} (h : r.use ok = some k) : r.key = k := by
  cases r <;> cases ok <;> cases h <;> rfl

/-- The keys, most recent first, with their values. -/
structure Cache (K V : Type) (n : Nat) where
  order : List K
  value : K → Option V
  nodup : order.Nodup
  mem_order : ∀ k, k ∈ order ↔ (value k).isSome
  length_le : order.length ≤ n

namespace Cache

variable {K V : Type} [DecidableEq K] {n : Nat}

omit [DecidableEq K] in
def empty : Cache K V n := ⟨[], fun _ => none, List.nodup_nil, by simp, by simp⟩

def erase (c : Cache K V n) (k : K) : Cache K V n where
  order := c.order.erase k
  value := Function.update c.value k none
  nodup := c.nodup.erase k
  mem_order := by
    intro k'
    rw [c.nodup.mem_erase_iff, c.mem_order]
    by_cases h : k' = k <;> simp [h]
  length_le := Nat.le_trans List.erase_sublist.length_le c.length_le

variable (c : Cache K V n)

theorem erase_order {k : K} {as bs : List K} (h : c.order = as ++ k :: bs) :
    (c.erase k).order = as ++ bs := by
  have hnot : k ∉ as := by
    intro hin
    have hnodup := c.nodup
    rw [h, List.nodup_append] at hnodup
    exact hnodup.2.2 k hin k List.mem_cons_self rfl
  change c.order.erase k = as ++ bs
  rw [h, List.erase_append_right _ hnot, List.erase_cons_head]

def push (c : Cache K V n) (k : K) (v : V) (hk : k ∉ c.order) (hroom : c.order.length < n) : Cache K V n where
  order := k :: c.order
  value := Function.update c.value k (some v)
  nodup := List.nodup_cons.mpr ⟨hk, c.nodup⟩
  mem_order := by
    intro k'
    rw [List.mem_cons, c.mem_order]
    by_cases h : k' = k <;> simp [h]
  length_le := hroom

theorem erase_length_lt {k : K} (hk : k ∈ c.order) : (c.erase k).order.length < n := by
  have hlen : (c.order.erase k).length + 1 = c.order.length := List.length_erase_add_one hk
  have := c.length_le
  change (c.order.erase k).length < n
  omega

theorem notMem_erase {k k' : K} (h : k ∉ c.order ∨ k = k') : k ∉ (c.erase k').order := by
  change k ∉ c.order.erase k'
  rw [c.nodup.mem_erase_iff]
  rintro ⟨hne, hk⟩
  rcases h with h | h
  · exact h hk
  · exact hne h

/-- The key goes to the front, with a value that may be new. -/
def touch (c : Cache K V n) (k : K) (v : V) (hk : k ∈ c.order) : Cache K V n :=
  (c.erase k).push k v (c.notMem_erase (.inr rfl)) (c.erase_length_lt hk)

def exchange (c : Cache K V n) (old k : K) (v : V) (hold : old ∈ c.order) (hk : k ∉ c.order) : Cache K V n :=
  (c.erase old).push k v (c.notMem_erase (.inl hk)) (c.erase_length_lt hold)

theorem mem_exchange {old k k' : K} {v : V} (hold : old ∈ c.order) (hk : k ∉ c.order) :
    k' ∈ (c.exchange old k v hold hk).order ↔ k' = k ∨ k' ≠ old ∧ k' ∈ c.order := by
  change k' ∈ k :: c.order.erase old ↔ _
  rw [List.mem_cons, c.nodup.mem_erase_iff]

theorem exchange_value {old k k' : K} {v : V} (hold : old ∈ c.order) (hk : k ∉ c.order)
    (hne : k' ≠ k) (hne' : k' ≠ old) : (c.exchange old k v hold hk).value k' = c.value k' := by
  simp [exchange, push, erase, hne, hne']

inductive Step (c : Cache K V n) : Request K V → Bool → Cache K V n → Prop where
  | hit {k : K} {v : V} (hv : c.value k = some v) (hk : k ∈ c.order) : Step c (.lookup k) true (c.touch k v hk)
  | miss {k : K} (hv : c.value k = none) : Step c (.lookup k) false c
  | replaced {k : K} {v : V} {create : Bool} (hk : k ∈ c.order) :
    Step c (.update k v create true) true (c.touch k v hk)
  | created {k : K} {v : V} {replace : Bool} (hk : k ∉ c.order) (hroom : c.order.length < n) :
    Step c (.update k v true replace) true (c.push k v hk hroom)
  | exchanged {k old : K} {v : V} {replace : Bool} (hk : k ∉ c.order) (hfull : c.order.length = n)
    (hlast : c.order.getLast? = some old) :
    Step c (.update k v true replace) true (c.exchange old k v (List.mem_of_getLast? hlast) hk)
  | refused {k : K} {v : V} {create replace : Bool} (h : if k ∈ c.order then replace = false else create = false) :
    Step c (.update k v create replace) false c
  | deleted {k : K} (hk : k ∈ c.order) : Step c (.delete k) true (c.erase k)
  | absent {k : K} (hk : k ∉ c.order) : Step c (.delete k) false c

theorem Step.recent {c c' : Cache K V n} {r : Request K V} {ok : Bool} (h : c.Step r ok c') {us : List (Option K)}
    (hc : Recent us c.order) : Recent (us ++ [r.use ok]) c'.order := by
  have herase : ∀ k, Recent us (c.erase k).order := fun k => hc.sublist List.erase_sublist
  cases h with
  | hit | replaced => exact (herase _).use (c.notMem_erase (.inr rfl))
  | miss | refused | absent => exact hc.idle
  | created hk => exact hc.use hk
  | exchanged hk => exact (herase _).use (c.notMem_erase (.inl hk))
  | deleted => exact (herase _).idle

omit [DecidableEq K] in
theorem usedSince_getLast {us : List (Option K)} (hc : Recent us c.order) {old k : K}
    (hlast : c.order.getLast? = some old) (hk : k ∈ c.order) (hne : k ≠ old) : UsedSince us k old := by
  obtain ⟨ks, hks⟩ := List.getLast?_eq_some_iff.mp hlast
  rw [Recent, hks, List.pairwise_append] at hc
  rw [hks, List.mem_append, List.mem_singleton] at hk
  exact hc.2.2 k (hk.resolve_right hne) old List.mem_cons_self

section

variable {c c' : Cache K V n} {ok : Bool} {k : K} {v : V}

theorem Step.stores (h : c.Step (.update k v true true) ok c') : ok = true ∧ c'.value k = some v := by
  cases h with
  | replaced | created | exchanged => exact ⟨rfl, by simp [touch, exchange, push]⟩
  | refused h => split at h <;> cases h

/-- A value stays while fewer than `n` other keys are asked for. -/
theorem Step.keeps {r : Request K V} (h : c.Step r ok c') {us : List (Option K)} (hc : Recent us c.order)
    {others : List K} (hfew : others.length < n) (hused : ∀ a, UsedSince us a k → a ∈ others)
    (hr : r = .lookup k ∨ r.key ≠ k ∧ r.key ∈ others) (hv : c.value k = some v) : c'.value k = some v := by
  have hk : k ∈ c.order := (c.mem_order k).mpr (by rw [hv]; rfl)
  cases h with
  | miss | refused | absent => exact hv
  | @hit k' v' hv' =>
    by_cases heq : k = k'
    · subst heq
      simp [touch, push, ← hv, hv']
    · simp [touch, push, erase, heq, hv]
  | replaced | deleted | created =>
    have hne := Ne.symm (hr.resolve_left nofun).1
    simp only [Request.key] at hne
    simp [touch, push, erase, hne, hv]
  | @exchanged k' old v' _ hk' hfull hlast =>
    obtain ⟨hne, hin⟩ := hr.resolve_left nofun
    rw [exchange_value c _ hk' (Ne.symm hne), hv]
    rintro rfl
    -- all the others were used since the last key was, and the new one is one more
    have hsub : k' :: c.order.erase k ⊆ others := by
      intro a ha
      obtain rfl | ha := List.mem_cons.mp ha
      · exact hin
      · obtain ⟨hak, ha⟩ := c.nodup.mem_erase_iff.mp ha
        exact hused a (c.usedSince_getLast hc hlast ha hak)
    have hlong : (c.order.erase k).length + 1 ≤ others.length :=
      ((c.exchange k k' v' hk hk').nodup.subperm hsub).length_le
    rw [List.length_erase_add_one hk] at hlong
    omega

end

end Cache

end LruCache
