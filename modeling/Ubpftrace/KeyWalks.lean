import Mathlib.Data.List.Nodup

/-!
# Walks by the key last returned

An interface that has no iterators hands out the keys of a table one by one: a call
takes the key that the last call returned, or none at the start, and returns the next
one or an error. Behind it stands a scan of the table from some place on.
-/

namespace KeyWalks

section Walks

variable {K E : Type} (next : Option K → Except E K) (stop : E)

/-- The calls from a key on return these keys and then the error. -/
inductive Walk : Option K → List K → Prop where
  | done {cur : Option K} : next cur = .error stop → Walk cur []
  | step {cur : Option K} {k : K} {ks : List K} : next cur = .ok k → Walk (some k) ks → Walk cur (k :: ks)

/-- The walk from the start ends and has returned each live key once. -/
def Enumerates (live : K → Prop) : Prop := ∃ ks, Walk next stop none ks ∧ ks.Nodup ∧ ∀ k, k ∈ ks ↔ live k

variable {next stop} {cur : Option K} {k k' : K} {ks : List K} {live : K → Prop}

theorem Walk.mem_of_next (h : Walk next stop cur ks) (hk : k ∈ ks) (hnext : next (some k) = .ok k') : k' ∈ ks.tail := by
  induction h with
  | done => cases hk
  | @step cur k₀ ks hfirst hrest ih =>
    rcases List.mem_cons.mp hk with rfl | hin
    · cases hrest with
      | done hstop => cases hnext.symm.trans hstop
      | step hok _ =>
        cases hnext.symm.trans hok
        exact List.mem_cons_self
    · exact List.mem_of_mem_tail (ih hin)

theorem Walk.reached (h : Walk next stop cur ks) (hk : k ∈ ks) :
    next cur = .ok k ∨ ∃ j ∈ ks, next (some j) = .ok k := by
  induction h with
  | done => cases hk
  | @step cur k₀ ks hfirst _ ih =>
    rcases List.mem_cons.mp hk with rfl | hin
    · exact .inl hfirst
    · rcases ih hin with hok | ⟨j, hj, hok⟩
      · exact .inr ⟨k₀, List.mem_cons_self, hok⟩
      · exact .inr ⟨j, List.mem_cons_of_mem _ hj, hok⟩

section

variable (h : Enumerates next stop live)
include h

/-- A walk that comes back to its first key does not visit every key once. -/
theorem Enumerates.next_ne_first (hfirst : next none = .ok k') (hk : live k) : next (some k) ≠ .ok k' := by
  intro hback
  obtain ⟨ks, hwalk, hnodup, hmem⟩ := h
  have htail := hwalk.mem_of_next ((hmem k).mpr hk) hback
  cases hwalk with
  | done hstop => cases htail
  | step hok _ =>
    cases hfirst.symm.trans hok
    exact (List.nodup_cons.mp hnodup).1 htail

theorem Enumerates.first (hk : live k) : ∃ k', next none = .ok k' := by
  obtain ⟨ks, hwalk, -, hmem⟩ := h
  cases hwalk with
  | done => cases (hmem k).mpr hk
  | step hok _ => exact ⟨_, hok⟩

theorem Enumerates.reached (hk : live k) : next none = .ok k ∨ ∃ j, live j ∧ next (some j) = .ok k := by
  obtain ⟨ks, hwalk, -, hmem⟩ := h
  rcases hwalk.reached ((hmem k).mpr hk) with hok | ⟨j, hj, hok⟩
  · exact .inl hok
  · exact .inr ⟨j, (hmem j).mp hj, hok⟩

end

end Walks

section Scans

variable (n : Nat) (p : Nat → Bool)

/-- The places from `start` on that are taken. -/
def taken (start : Nat) : List Nat := (List.range' start (n - start)).filter p

/-- `for (i = start; i < n; i++) if (p(i)) return i;` -/
def firstFrom (start : Nat) : Option Nat := (List.range' start (n - start)).find? p

variable {n p} {start i : Nat}

theorem head?_taken : (taken n p start).head? = firstFrom n p start := List.head?_filter

theorem mem_taken : i ∈ taken n p start ↔ start ≤ i ∧ i < n ∧ p i = true := by
  rw [taken, List.mem_filter, List.mem_range'_1]
  constructor
  · rintro ⟨⟨hs, hn⟩, hp⟩
    exact ⟨hs, by omega, hp⟩
  · rintro ⟨hs, hn, hp⟩
    exact ⟨⟨hs, by omega⟩, hp⟩

theorem firstFrom_eq_some :
    firstFrom n p start = some i ↔ start ≤ i ∧ i < n ∧ p i = true ∧ ∀ j, start ≤ j → j < i → p j = false := by
  rw [firstFrom, List.find?_range'_eq_some, List.mem_range'_1]
  constructor
  · rintro ⟨hp, ⟨hs, hn⟩, hno⟩
    exact ⟨hs, by omega, hp, fun j hj hji => by simpa using hno j hj hji⟩
  · rintro ⟨hs, hn, hp, hno⟩
    exact ⟨hp, ⟨hs, by omega⟩, fun j hj hji => by simp [hno j hj hji]⟩

theorem taken_of_not (hs : start < n) (hp : p start = false) : taken n p start = taken n p (start + 1) := by
  rw [taken, show n - start = (n - (start + 1)) + 1 by omega, List.range'_succ, List.filter_cons_of_neg (by simp [hp]),
    taken]

theorem taken_of_pos (hs : start < n) (hp : p start = true) :
    taken n p start = start :: taken n p (start + 1) := by
  rw [taken, show n - start = (n - (start + 1)) + 1 by omega, List.range'_succ, List.filter_cons_of_pos hp, taken]

theorem firstFrom_of_not (hs : start < n) (hp : p start = false) : firstFrom n p start = firstFrom n p (start + 1) := by
  rw [← head?_taken, ← head?_taken, taken_of_not hs hp]

variable {K E : Type} {next : Option K → Except E K} {stop : E} (key : Nat → K)

/-- What a scan from `start` on returns. -/
def scan (stop : E) (n : Nat) (p : Nat → Bool) (start : Nat) : Except E K :=
  match firstFrom n p start with
  | some i => .ok (key i)
  | none => .error stop

/-- If each call goes on behind the place of its key, the walk returns the keys in
the order of the places. -/
theorem walk_taken (hnext : ∀ i < n, p i = true → next (some (key i)) = scan key stop n p (i + 1)) (start : Nat)
    {cur : Option K} (hcur : next cur = scan key stop n p start) :
    Walk next stop cur ((taken n p start).map key) := by
  generalize hleft : n - start = left
  induction left generalizing start cur with
  | zero =>
    have hnil : taken n p start = [] := by simp [taken, hleft]
    rw [hnil]
    refine .done (hcur.trans ?_)
    simp [scan, ← head?_taken, hnil]
  | succ left ih =>
    by_cases hp : p start = true
    · have hcons := taken_of_pos (show start < n by omega) hp
      rw [hcons]
      refine .step (hcur.trans ?_) (ih (start + 1) (hnext start (by omega) hp) (by omega))
      simp [scan, ← head?_taken, hcons]
    · have hskip := taken_of_not (show start < n by omega) (Bool.not_eq_true _ ▸ hp)
      rw [hskip]
      refine ih (start + 1) (hcur.trans ?_) (by omega)
      simp only [scan, ← head?_taken, hskip]

theorem enumerates_taken (hnone : next none = scan key stop n p 0)
    (hnext : ∀ i < n, p i = true → next (some (key i)) = scan key stop n p (i + 1))
    (hkey : ∀ i < n, ∀ j < n, p i = true → p j = true → key i = key j → i = j) :
    Enumerates next stop fun k => ∃ i < n, p i = true ∧ key i = k := by
  refine ⟨_, walk_taken key hnext 0 hnone, ?_, ?_⟩
  · refine List.Nodup.map_on ?_ (List.Nodup.filter _ List.nodup_range')
    intro i hi j hj heq
    obtain ⟨-, hin, hip⟩ := mem_taken.mp hi
    obtain ⟨-, hjn, hjp⟩ := mem_taken.mp hj
    exact hkey i hin j hjn hip hjp heq
  · simp [mem_taken, and_assoc]

end Scans

end KeyWalks
