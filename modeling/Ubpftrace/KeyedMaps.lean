import Mathlib.Algebra.BigOperators.Group.List.Basic

/-!
# Maps with a default entry

A map as a list of pairs, changed through `operator[]`: the entry of a key, or a
default one that is added for it, is replaced by its image under a function. What
such a map says of its keys is a function; changes that commute on the entries
commute there, whatever their keys, though they may leave the pairs in another
order. With numbers for entries a map is a tally.
-/

namespace KeyedMaps

variable {K V W : Type} [BEq K]

/-- `map[k] = f(map[k])`. -/
def modify (d : V) (k : K) (f : V → V) : List (K × V) → List (K × V)
  | [] => [(k, f d)]
  | (k', v) :: rest => if k' == k then (k', f v) :: rest else (k', v) :: modify d k f rest

/-- The same change of what a map says. -/
def alter (d : V) (k : K) (f : V → V) (m : K → Option V) : K → Option V :=
  fun k' => if k' == k then some (f ((m k).getD d)) else m k'

theorem lookup_modify [LawfulBEq K] (d : V) (k : K) (f : V → V) (m : List (K × V)) :
    (fun k' => (modify d k f m).lookup k') = alter d k f fun k' => m.lookup k' := by
  funext k'
  induction m with
  | nil =>
    cases h : k' == k <;> simp [modify, alter, List.lookup_cons, h]
  | cons p m ih =>
    obtain ⟨p, v⟩ := p
    rw [modify]
    cases hp : p == k with
    | true =>
      obtain rfl := eq_of_beq hp
      cases h : k' == p <;> simp [alter, List.lookup_cons, h]
    | false =>
      rw [if_neg Bool.false_ne_true, List.lookup_cons, ih]
      have hkp : (k == p) = false := by rw [BEq.comm, hp]
      cases h : k' == p with
      | true =>
        obtain rfl := eq_of_beq h
        simp [alter, hp]
      | false => simp [alter, List.lookup_cons, h, hkp]

theorem alter_comm [LawfulBEq K] (d : V) (k k' : K) {f g : V → V} (h : ∀ v, f (g v) = g (f v)) (m : K → Option V) :
    alter d k f (alter d k' g m) = alter d k' g (alter d k f m) := by
  funext x
  cases hkk : k == k' with
  | true =>
    obtain rfl := eq_of_beq hkk
    cases hx : x == k <;> simp [alter, hx, h]
  | false =>
    have hkk' : (k' == k) = false := by rw [BEq.comm, hkk]
    cases hx : x == k with
    | true =>
      obtain rfl := eq_of_beq hx
      simp [alter, hkk]
    | false => cases hx' : x == k' <;> simp [alter, hx, hx', hkk']

theorem map_alter (view : V → W) (d : V) (k : K) {f : V → V} {g : W → W} (h : ∀ v, view (f v) = g (view v))
    (m : K → Option V) :
    (fun k' => (alter d k f m k').map view) = alter (view d) k g fun k' => (m k').map view := by
  funext k'
  cases hk : k' == k with
  | true => cases hm : m k <;> simp [alter, hk, hm, h]
  | false => simp [alter, hk]

theorem forall_modify {P : V → Prop} {d : V} {k : K} {f : V → V} {m : List (K × V)} (hd : P d)
    (hf : ∀ v, P v → P (f v)) (h : ∀ p ∈ m, P p.2) : ∀ p ∈ modify d k f m, P p.2 := by
  induction m with
  | nil =>
    intro p hp
    rw [modify, List.mem_singleton] at hp
    rw [hp]
    exact hf d hd
  | cons q m ih =>
    obtain ⟨hq, hm⟩ := List.forall_mem_cons.mp h
    rw [modify]
    split
    · exact List.forall_mem_cons.mpr ⟨hf _ hq, hm⟩
    · exact List.forall_mem_cons.mpr ⟨hq, ih hm⟩

def total [AddCommMonoid V] (m : List (K × V)) : V := (m.map Prod.snd).sum

theorem total_modify_add [AddCommMonoid V] (k : K) (v : V) (m : List (K × V)) :
    total (modify 0 k (· + v) m) = total m + v := by
  induction m with
  | nil => simp [modify, total]
  | cons p m ih =>
    rw [modify]
    split
    · simp only [total, List.map_cons, List.sum_cons]
      rw [add_right_comm]
    · simp only [total, List.map_cons, List.sum_cons] at ih ⊢
      rw [ih, add_assoc]

end KeyedMaps
