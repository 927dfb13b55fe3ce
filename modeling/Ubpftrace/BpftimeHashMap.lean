import Mathlib.NumberTheory.Bertrand
import Ubpftrace.BoundedMap
import Ubpftrace.Probing

/-!
# The hash map of fixed size

`bpftime_hash_map.hpp`: open addressing with linear probing over a prime number
of buckets, of which at most `max_element_count` are filled. A deleted bucket is
marked and its place in the chains is kept; the next insertion on a chain that
passes it takes it over. Keys and values are byte arrays of fixed sizes.
-/

namespace BpftimeHasher

/-- The loop over `i = 5, 11, 17, …` that tries `i` and `i + 2`. -/
def isPrimeFrom (n : Nat) : Nat → Nat → Bool
  | 0, _ => true
  | fuel + 1, i =>
    if i * i ≤ n then
      if n % i = 0 ∨ n % (i + 2) = 0 then false else isPrimeFrom n fuel (i + 6)
    else true

def isPrime (n : Nat) : Bool :=
  if n ≤ 1 then false
  else if n ≤ 3 then true
  else if n % 2 = 0 ∨ n % 3 = 0 then false
  else isPrimeFrom n n 5

def nextPrimeFrom : Nat → Nat → Nat
  | 0, n => n
  | fuel + 1, n => if isPrime n then n else nextPrimeFrom fuel (n + 1)

def nextPrime (n : Nat) : Nat := nextPrimeFrom (n + 2) n

def hashFunc {ks : Nat} (key : Vector UInt8 ks) : UInt64 :=
  key.toList.foldl (fun hash b => hash * 31 + b.toUInt64) 0

theorem prime_of_no_divisor {n i : Nat} (hn : 2 ≤ n) (hi : n < i * i) (hdiv : ∀ m, 2 ≤ m → m < i → ¬ m ∣ n) :
    n.Prime := by
  apply Nat.prime_def_le_sqrt.mpr
  refine ⟨hn, ?_⟩
  intro m hm hle
  apply hdiv m hm
  have hsq : m * m ≤ n := Nat.le_sqrt.mp hle
  by_contra hge
  have := Nat.mul_le_mul (Nat.le_of_not_lt hge) (Nat.le_of_not_lt hge)
  omega

theorem not_prime_of_mod_eq_zero {n d : Nat} (hd : 2 ≤ d) (hlt : d < n) (h : n % d = 0) : ¬ n.Prime := by
  intro hp
  rcases (Nat.dvd_prime hp).mp (Nat.dvd_of_mod_eq_zero h) with h1 | h1 <;> omega

/-- With no divisor below `i` the loop goes on from `i` to the right answer: what
it steps over is a multiple of two or three. -/
theorem isPrimeFrom_iff {n : Nat} (hn : 2 ≤ n) (h2 : n % 2 ≠ 0) (h3 : n % 3 ≠ 0) (fuel i : Nat) (hi : i % 6 = 5)
    (hdiv : ∀ m, 2 ≤ m → m < i → ¬ m ∣ n) (hfuel : n < i + 6 * fuel) :
    isPrimeFrom n fuel i = true ↔ n.Prime := by
  induction fuel generalizing i with
  | zero =>
    have hsq : i ≤ i * i := Nat.le_mul_self i
    simpa [isPrimeFrom] using prime_of_no_divisor hn (by omega) hdiv
  | succ fuel ih =>
    rw [isPrimeFrom]
    split
    · next hle =>
      have hsq : 5 * i ≤ i * i := Nat.mul_le_mul_right i (by omega)
      split
      · next hmod =>
        have hnot : ¬ n.Prime := by
          obtain hmod | hmod := hmod <;> exact not_prime_of_mod_eq_zero (by omega) (by omega) hmod
        simpa using hnot
      · next hmod =>
        apply ih (i + 6) (by omega) _ (by omega)
        intro m hm hlt hdvd
        by_cases hbelow : m < i
        · exact hdiv m hm hbelow hdvd
        have heven : ¬ 2 ∣ m := fun h => h2 (Nat.mod_eq_zero_of_dvd (h.trans hdvd))
        have hthree : ¬ 3 ∣ m := fun h => h3 (Nat.mod_eq_zero_of_dvd (h.trans hdvd))
        have hcase : m = i ∨ m = i + 2 := by omega
        rcases hcase with rfl | rfl
        · exact hmod (.inl (Nat.mod_eq_zero_of_dvd hdvd))
        · exact hmod (.inr (Nat.mod_eq_zero_of_dvd hdvd))
    · next hgt => simpa using prime_of_no_divisor hn (by omega) hdiv

theorem isPrime_iff (n : Nat) : isPrime n = true ↔ n.Prime := by
  unfold isPrime
  split
  · next h1 =>
    have : ¬ n.Prime := fun hp => absurd hp.two_le (by omega)
    simpa using this
  split
  · next h1 h3 =>
    have hcase : n = 2 ∨ n = 3 := by omega
    rcases hcase with rfl | rfl
    · simp [Nat.prime_two]
    · simp [Nat.prime_three]
  split
  · next h1 h3 hmod =>
    have : ¬ n.Prime := by
      obtain hmod | hmod := hmod <;> exact not_prime_of_mod_eq_zero (by omega) (by omega) hmod
    simpa using this
  · next h1 h3 hmod =>
    rw [not_or] at hmod
    apply isPrimeFrom_iff (by omega) hmod.1 hmod.2 n 5 (by omega) _ (by omega)
    intro m hm hlt hdvd
    have heven : ¬ 2 ∣ m := fun h => hmod.1 (Nat.mod_eq_zero_of_dvd (h.trans hdvd))
    have hthree : ¬ 3 ∣ m := fun h => hmod.2 (Nat.mod_eq_zero_of_dvd (h.trans hdvd))
    omega

theorem nextPrimeFrom_spec (fuel n p : Nat) (hp : p.Prime) (hn : n ≤ p) (hle : p ≤ n + fuel) :
    (nextPrimeFrom fuel n).Prime ∧ n ≤ nextPrimeFrom fuel n ∧ ∀ m, n ≤ m → m < nextPrimeFrom fuel n → ¬ m.Prime := by
  induction fuel generalizing n with
  | zero =>
    obtain rfl : n = p := by omega
    exact ⟨hp, le_rfl, fun m hm hlt => absurd hlt (by simp only [nextPrimeFrom]; omega)⟩
  | succ fuel ih =>
    rw [nextPrimeFrom]
    split
    · next hprime => exact ⟨(isPrime_iff n).mp hprime, le_rfl, fun m hm hlt => by omega⟩
    · next hprime =>
      have hnot : ¬ n.Prime := fun h => hprime ((isPrime_iff n).mpr h)
      have hne : n ≠ p := fun h => hnot (h ▸ hp)
      obtain ⟨hres, hge, hmin⟩ := ih (n + 1) (by omega) (by omega)
      refine ⟨hres, by omega, ?_⟩
      intro m hm hlt
      by_cases hmn : m = n
      · rw [hmn]
        exact hnot
      · exact hmin m (by omega) hlt

/-- `next_prime` returns the least prime from its argument on: Bertrand's
postulate bounds the search. -/
theorem nextPrime_spec (n : Nat) :
    (nextPrime n).Prime ∧ n ≤ nextPrime n ∧ ∀ m, n ≤ m → m < nextPrime n → ¬ m.Prime := by
  by_cases hn : n = 0
  · subst hn
    exact nextPrimeFrom_spec _ 0 2 Nat.prime_two (by omega) (by omega)
  · obtain ⟨p, hp, hlt, hle⟩ := Nat.exists_prime_lt_and_le_two_mul n hn
    exact nextPrimeFrom_spec _ n p hp (by omega) (by omega)

end BpftimeHasher

inductive BpftimeHashMap.BucketState where
  | empty
  | filled
  | deleted
  deriving DecidableEq

structure BpftimeHashMap.Bucket (ks vs : Nat) where
  state : BucketState
  key : Vector UInt8 ks
  value : Vector UInt8 vs
  deriving DecidableEq

structure BpftimeHashMap (ks vs : Nat) where
  numBuckets : Nat
  maxElementCount : Nat
  count : Nat
  buckets : Nat → BpftimeHashMap.Bucket ks vs

namespace BpftimeHashMap

open BpftimeHasher BoundedMap Probing
open Runs (trace after simulation)

variable {ks vs : Nat}

abbrev Key (ks : Nat) := Vector UInt8 ks
abbrev Value (vs : Nat) := Vector UInt8 vs

/-- The constructor; the data buffer is filled with zeros. -/
def init (numBuckets ks vs : Nat) : BpftimeHashMap ks vs where
  numBuckets := nextPrime numBuckets
  maxElementCount := numBuckets
  count := 0
  buckets := fun _ => ⟨.empty, Vector.replicate ks 0, Vector.replicate vs 0⟩

def home (m : BpftimeHashMap ks vs) (key : Key ks) : Nat := (hashFunc key).toNat % m.numBuckets

/-- The indices of the probing loop of all three operations. -/
def probes (m : BpftimeHashMap ks vs) (key : Key ks) : List Nat :=
  visited m.numBuckets (m.home key) m.numBuckets (m.home key)

def elemLookupLoop (m : BpftimeHashMap ks vs) (key : Key ks) : List Nat → Option (Value vs)
  | [] => none
  | index :: rest =>
    if (m.buckets index).state = .empty then none
    else if (m.buckets index).state = .filled ∧ (m.buckets index).key = key then some (m.buckets index).value
    else elemLookupLoop m key rest

def elemLookup (m : BpftimeHashMap ks vs) (key : Key ks) : Option (Value vs) := m.elemLookupLoop key (m.probes key)

def insertAt (m : BpftimeHashMap ks vs) (index : Nat) (key : Key ks) (value : Value vs) : BpftimeHashMap ks vs :=
  { m with buckets := Function.update m.buckets index ⟨.filled, key, value⟩, count := m.count + 1 }

def setValue (m : BpftimeHashMap ks vs) (index : Nat) (value : Value vs) : BpftimeHashMap ks vs :=
  { m with buckets := Function.update m.buckets index { m.buckets index with value := value } }

def setDeleted (m : BpftimeHashMap ks vs) (index : Nat) : BpftimeHashMap ks vs :=
  { m with buckets := Function.update m.buckets index { m.buckets index with state := .deleted }, count := m.count - 1 }

/-- `firstDeleted` is the number of buckets while no deleted bucket was seen. -/
def elemUpdateLoop (m : BpftimeHashMap ks vs) (key : Key ks) (value : Value vs) :
    List Nat → Nat → Bool × BpftimeHashMap ks vs
  | [], firstDeleted =>
    if firstDeleted ≠ m.numBuckets ∧ m.count < m.maxElementCount then (true, m.insertAt firstDeleted key value)
    else (false, m)
  | index :: rest, firstDeleted =>
    match (m.buckets index).state with
    | .empty =>
      if m.count ≥ m.maxElementCount then (false, m)
      else (true, m.insertAt (if firstDeleted ≠ m.numBuckets then firstDeleted else index) key value)
    | .deleted => elemUpdateLoop m key value rest (if firstDeleted = m.numBuckets then index else firstDeleted)
    | .filled =>
      if (m.buckets index).key = key then (true, m.setValue index value)
      else elemUpdateLoop m key value rest firstDeleted

def elemUpdate (m : BpftimeHashMap ks vs) (key : Key ks) (value : Value vs) : Bool × BpftimeHashMap ks vs :=
  m.elemUpdateLoop key value (m.probes key) m.numBuckets

def elemDeleteLoop (m : BpftimeHashMap ks vs) (key : Key ks) : List Nat → Bool × BpftimeHashMap ks vs
  | [] => (false, m)
  | index :: rest =>
    if (m.buckets index).state = .empty then (false, m)
    else if (m.buckets index).state = .filled ∧ (m.buckets index).key = key then (true, m.setDeleted index)
    else elemDeleteLoop m key rest

def elemDelete (m : BpftimeHashMap ks vs) (key : Key ks) : Bool × BpftimeHashMap ks vs :=
  m.elemDeleteLoop key (m.probes key)

def step (m : BpftimeHashMap ks vs) : Op (Key ks) (Value vs) → Reply (Value vs) × BpftimeHashMap ks vs
  | .lookup k => (.found (m.elemLookup k), m)
  | .update k v => (m.elemUpdate k v).map .done id
  | .delete k => (m.elemDelete k).map .done id

/-! ## The loops as searches -/

def Bucket.slot (b : Bucket ks vs) : Slot (Key ks) :=
  match b.state with
  | .empty => .empty
  | .deleted => .deleted
  | .filled => .filled b.key

def slots (m : BpftimeHashMap ks vs) (i : Nat) : Slot (Key ks) := (m.buckets i).slot

theorem slot_eq_empty_iff (b : Bucket ks vs) : b.slot = .empty ↔ b.state = .empty := by
  unfold Bucket.slot
  split <;> simp_all

theorem slot_eq_filled_iff (b : Bucket ks vs) (k : Key ks) :
    b.slot = .filled k ↔ b.state = .filled ∧ b.key = k := by
  unfold Bucket.slot
  split <;> simp_all

variable (m : BpftimeHashMap ks vs)

theorem slots_insertAt (i : Nat) (k : Key ks) (v : Value vs) :
    (m.insertAt i k v).slots = Function.update m.slots i (.filled k) := by
  funext j
  by_cases hj : j = i
  · subst hj
    simp [slots, insertAt, Bucket.slot]
  · simp [slots, insertAt, hj]

theorem slots_setValue (i : Nat) (v : Value vs) : (m.setValue i v).slots = m.slots := by
  funext j
  by_cases hj : j = i
  · subst hj
    simp [slots, setValue, Bucket.slot]
  · simp [slots, setValue, hj]

theorem slots_setDeleted (i : Nat) :
    (m.setDeleted i).slots = Function.update m.slots i .deleted := by
  funext j
  by_cases hj : j = i
  · subst hj
    simp [slots, setDeleted, Bucket.slot]
  · simp [slots, setDeleted, hj]

/-- Where the loop over `is` finds the key. -/
def found (m : BpftimeHashMap ks vs) (key : Key ks) (is : List Nat) : Option Nat :=
  (is.find? fun i => m.slots i = .empty ∨ m.slots i = .filled key).filter fun i => m.slots i = .filled key

theorem found_cons (key : Key ks) (i : Nat) (is : List Nat) :
    m.found key (i :: is) =
      if m.slots i = .empty then none else if m.slots i = .filled key then some i else m.found key is := by
  unfold found
  by_cases hempty : m.slots i = .empty
  · simp [hempty]
  · by_cases hkey : m.slots i = .filled key <;> simp [hempty, hkey]

theorem elemLookupLoop_eq (key : Key ks) (is : List Nat) :
    m.elemLookupLoop key is = (m.found key is).map fun i => (m.buckets i).value := by
  induction is with
  | nil => rfl
  | cons i is ih =>
    simp only [elemLookupLoop, found_cons, slots, slot_eq_empty_iff, slot_eq_filled_iff]
    split
    · rfl
    split
    · rfl
    · exact ih

theorem elemDeleteLoop_eq (key : Key ks) (is : List Nat) :
    m.elemDeleteLoop key is = ((m.found key is).map fun i => (true, m.setDeleted i)).getD (false, m) := by
  induction is with
  | nil => rfl
  | cons i is ih =>
    simp only [elemDeleteLoop, found_cons, slots, slot_eq_empty_iff, slot_eq_filled_iff]
    split
    · rfl
    split
    · rfl
    · exact ih

/-- A new key goes to the given bucket, if there is one and the map is not full. -/
def place (m : BpftimeHashMap ks vs) (key : Key ks) (value : Value vs) : Option Nat → Bool × BpftimeHashMap ks vs
  | none => (false, m)
  | some i => if m.count < m.maxElementCount then (true, m.insertAt i key value) else (false, m)

/-- The update loop finds the key, or it has seen the first bucket that is not
filled: it is in `firstDeleted` or still to come. -/
theorem elemUpdateLoop_eq (key : Key ks) (value : Value vs) (is : List Nat)
    (firstDeleted : Nat) (his : ∀ i ∈ is, i < m.numBuckets) :
    m.elemUpdateLoop key value is firstDeleted =
      match m.found key is with
      | some i => (true, m.setValue i value)
      | none => m.place key value
          (if firstDeleted ≠ m.numBuckets then some firstDeleted else is.find? fun i => !(m.slots i).isFilled) := by
  induction is generalizing firstDeleted with
  | nil =>
    by_cases hfd : firstDeleted = m.numBuckets
    · simp [elemUpdateLoop, found, place, hfd]
    · simp [elemUpdateLoop, found, place, hfd]
  | cons i is ih =>
    have hi : i ≠ m.numBuckets := by
      have := his i (by simp)
      omega
    have ih' := fun fd => ih fd fun j hj => his j (by simp [hj])
    rw [elemUpdateLoop, found_cons]
    cases hstate : (m.buckets i).state with
    | empty =>
      have hslot : m.slots i = .empty := by simp [slots, Bucket.slot, hstate]
      simp only [hslot, if_true, List.find?_cons, Slot.isFilled_empty, Bool.not_false]
      by_cases hfd : firstDeleted = m.numBuckets <;> by_cases hfull : m.count < m.maxElementCount <;>
        simp [place, hfd, hfull]
    | deleted =>
      have hslot : m.slots i = .deleted := by simp [slots, Bucket.slot, hstate]
      rw [ih']
      by_cases hfd : firstDeleted = m.numBuckets <;> simp [hslot, hfd, hi]
    | filled =>
      have hslot : m.slots i = .filled (m.buckets i).key := by simp [slots, Bucket.slot, hstate]
      by_cases hkey : (m.buckets i).key = key
      · simp [hslot, hkey]
      · simp [hslot, hkey, ih']

/-! ## Refinement of the bounded map -/

/-- The filled buckets hold the entries of the bounded map, and the count is theirs. -/
structure Refines {n : Nat} (m : BpftimeHashMap ks vs) (a : BoundedMap (Key ks) (Value vs) n) : Prop where
  probed : WellProbed m.numBuckets m.home m.slots
  max_eq : m.maxElementCount = n
  max_le : n ≤ m.numBuckets
  count_eq_live : m.count = (live m.numBuckets m.slots).card
  count_eq_card : m.count = a.entries.keys.card
  lookup_iff : ∀ k v, a.lookup k = some v ↔
    ∃ i < m.numBuckets, m.slots i = .filled k ∧ (m.buckets i).value = v

section Operations

variable {n : Nat} {m : BpftimeHashMap ks vs} {a : BoundedMap (Key ks) (Value vs) n}

theorem refines_init (n : Nat) : Refines (init n ks vs) (BoundedMap.empty : BoundedMap (Key ks) (Value vs) n) := by
  obtain ⟨hprime, hle, -⟩ := nextPrime_spec n
  have hslots : (init n ks vs).slots = fun _ => Slot.empty := rfl
  constructor
  · exact wellProbed_empty fun k => Nat.mod_lt _ hprime.pos
  · rfl
  · exact hle
  · rw [hslots]
    simp [live, init]
  · rfl
  · simp [hslots, BoundedMap.lookup, BoundedMap.empty]

theorem found_probes (h : WellProbed m.numBuckets m.home m.slots) (k : Key ks) :
    m.found k (m.probes k) = hit m.numBuckets m.home m.slots k := by
  rw [probes, visited_eq_order (h.home_lt k) le_rfl]
  rfl

section

variable (h : Refines m a) {k : Key ks}
include h

theorem Refines.mem_iff (k : Key ks) :
    k ∈ a.entries ↔ ∃ i < m.numBuckets, m.slots i = .filled k := by
  rw [Finmap.mem_iff]
  constructor
  · rintro ⟨v, hv⟩
    obtain ⟨i, hi, hk, -⟩ := (h.lookup_iff k v).mp hv
    exact ⟨i, hi, hk⟩
  · rintro ⟨i, hi, hk⟩
    exact ⟨_, (h.lookup_iff k _).mpr ⟨i, hi, hk, rfl⟩⟩

theorem Refines.elemLookup_eq (k : Key ks) : m.elemLookup k = a.lookup k := by
  rw [elemLookup, elemLookupLoop_eq, found_probes h.probed]
  ext v
  rw [h.lookup_iff, Option.map_eq_some_iff]
  simp only [h.probed.hit_eq_some_iff, and_assoc]

theorem Refines.setValue {i : Nat} (hi : i < m.numBuckets) (hk : m.slots i = .filled k) (v : Value vs)
    (hroom : (a.entries.insert k v).keys.card ≤ n) : Refines (m.setValue i v) ⟨a.entries.insert k v, hroom⟩ := by
  have hmem : k ∈ a.entries.keys := Finmap.mem_keys.mpr ((h.mem_iff k).mpr ⟨i, hi, hk⟩)
  constructor
  · rw [slots_setValue]
    exact h.probed
  · exact h.max_eq
  · exact h.max_le
  · rw [slots_setValue]
    exact h.count_eq_live
  · rw [keys_insert, Finset.insert_eq_of_mem hmem]
    exact h.count_eq_card
  · intro k' v'
    rw [slots_setValue]
    by_cases hkk : k' = k
    · subst hkk
      -- the key stands in one bucket only
      have honly : ∀ j < m.numBuckets, m.slots j = .filled k' → j = i :=
        fun j hj hjk => h.probed.distinct j hj i hi k' hjk hk
      rw [BoundedMap.lookup, Finmap.lookup_insert, Option.some_inj]
      constructor
      · rintro rfl
        exact ⟨i, hi, hk, by simp [BpftimeHashMap.setValue]⟩
      · rintro ⟨j, hj, hjk, rfl⟩
        simp [honly j hj hjk, BpftimeHashMap.setValue]
    · have hother : ∀ j, m.slots j = .filled k' → j ≠ i := by
        rintro j hjk rfl
        rw [hk] at hjk
        exact hkk (Slot.filled.inj hjk).symm
      rw [BoundedMap.lookup, Finmap.lookup_insert_of_ne _ hkk]
      refine (h.lookup_iff k' v').trans (exists_congr fun j => and_congr_right fun _ => and_congr_right fun hjk => ?_)
      simp [BpftimeHashMap.setValue, hother j hjk]

theorem Refines.insertAt {i : Nat} (hnew : ∀ j < m.numBuckets, m.slots j ≠ .filled k)
    (hi : vacancy m.numBuckets m.home m.slots k = some i) (v : Value vs)
    (hroom : (a.entries.insert k v).keys.card ≤ n) : Refines (m.insertAt i k v) ⟨a.entries.insert k v, hroom⟩ := by
  obtain ⟨d, -, hoff, hfree, -⟩ := vacancy_eq_some hi
  have hlt : i < m.numBuckets := hoff ▸ Nat.mod_lt _ (Nat.pos_of_ne_zero fun h0 => by have := h.probed.home_lt k; omega)
  have hmem : k ∉ a.entries.keys := by
    rw [Finmap.mem_keys, h.mem_iff]
    rintro ⟨j, hj, hjk⟩
    exact hnew j hj hjk
  have hlive : i ∉ live m.numBuckets m.slots := by simp [live, hfree]
  constructor
  · rw [slots_insertAt]
    exact h.probed.fill hnew hi
  · exact h.max_eq
  · exact h.max_le
  · change m.count + 1 = (live m.numBuckets (m.insertAt i k v).slots).card
    rw [slots_insertAt, live_fill hlt _ rfl, Finset.card_insert_of_notMem hlive, h.count_eq_live]
  · change m.count + 1 = (a.entries.insert k v).keys.card
    rw [keys_insert, Finset.card_insert_of_notMem hmem, h.count_eq_card]
  · intro k' v'
    rw [slots_insertAt]
    by_cases hkk : k' = k
    · subst hkk
      rw [BoundedMap.lookup, Finmap.lookup_insert, Option.some_inj]
      constructor
      · rintro rfl
        exact ⟨i, hlt, by simp, by simp [BpftimeHashMap.insertAt]⟩
      · rintro ⟨j, hj, hjk, rfl⟩
        by_cases hji : j = i
        · simp [hji, BpftimeHashMap.insertAt]
        · rw [Function.update_of_ne hji] at hjk
          exact absurd hjk (hnew j hj)
    · rw [BoundedMap.lookup, Finmap.lookup_insert_of_ne _ hkk]
      refine (h.lookup_iff k' v').trans (exists_congr fun j => and_congr_right fun _ => ?_)
      by_cases hji : j = i
      · subst hji
        have hold : m.slots j ≠ .filled k' := fun hjk => by simp [hjk] at hfree
        have hne : k ≠ k' := fun h => hkk h.symm
        simp [hold, hne]
      · simp [hji, BpftimeHashMap.insertAt]

theorem Refines.setDeleted {i : Nat} (hi : i < m.numBuckets) (hk : m.slots i = .filled k) :
    Refines (m.setDeleted i) ⟨a.entries.erase k, a.card_erase_le k⟩ := by
  have hmem : k ∈ a.entries.keys := Finmap.mem_keys.mpr ((h.mem_iff k).mpr ⟨i, hi, hk⟩)
  have hlive : i ∈ live m.numBuckets m.slots := by simp [live, hi, hk]
  constructor
  · rw [slots_setDeleted]
    exact h.probed.clear i
  · exact h.max_eq
  · exact h.max_le
  · change m.count - 1 = (live m.numBuckets (m.setDeleted i).slots).card
    rw [slots_setDeleted, live_clear, Finset.card_erase_of_mem hlive, h.count_eq_live]
  · change m.count - 1 = (a.entries.erase k).keys.card
    rw [Finmap.keys_erase, Finset.card_erase_of_mem hmem, h.count_eq_card]
  · intro k' v'
    rw [slots_setDeleted]
    by_cases hkk : k' = k
    · subst hkk
      rw [BoundedMap.lookup, Finmap.lookup_erase]
      constructor
      · intro hno
        cases hno
      · rintro ⟨j, hj, hjk, -⟩
        by_cases hji : j = i
        · simp [hji] at hjk
        · rw [Function.update_of_ne hji] at hjk
          exact absurd (h.probed.distinct j hj i hi k' hjk hk) hji
    · rw [BoundedMap.lookup, Finmap.lookup_erase_ne hkk]
      refine (h.lookup_iff k' v').trans (exists_congr fun j => and_congr_right fun _ => ?_)
      by_cases hji : j = i
      · subst hji
        have hne : k ≠ k' := fun h => hkk h.symm
        simp [hk, hne]
      · simp [hji, BpftimeHashMap.setDeleted]

theorem Refines.elemUpdate (k : Key ks) (v : Value vs) :
    (m.elemUpdate k v).1 = (a.update k v).1 ∧ Refines (m.elemUpdate k v).2 (a.update k v).2 := by
  have hlt : ∀ i ∈ m.probes k, i < m.numBuckets := by
    intro i hi
    rw [probes, visited_eq_order (h.probed.home_lt k) le_rfl] at hi
    exact mem_order_lt (h.probed.home_lt k) hi
  have hvac : (m.probes k).find? (fun i => !(m.slots i).isFilled) = vacancy m.numBuckets m.home m.slots k := by
    rw [probes, visited_eq_order (h.probed.home_lt k) le_rfl]
    rfl
  rw [BpftimeHashMap.elemUpdate, elemUpdateLoop_eq _ _ _ _ _ hlt, found_probes h.probed, hvac]
  cases hhit : hit m.numBuckets m.home m.slots k with
  | some i =>
    obtain ⟨hi, hk⟩ := h.probed.hit_eq_some_iff.mp hhit
    have hroom : k ∈ a.entries ∨ a.entries.keys.card < n := .inl ((h.mem_iff k).mpr ⟨i, hi, hk⟩)
    rw [BoundedMap.update, dif_pos hroom]
    exact ⟨rfl, h.setValue hi hk v _⟩
  | none =>
    have hnew := h.probed.hit_eq_none_iff.mp hhit
    have hmem : k ∉ a.entries := by
      rw [h.mem_iff]
      rintro ⟨j, hj, hjk⟩
      exact hnew j hj hjk
    by_cases hfull : a.entries.keys.card < n
    · have hroom : k ∈ a.entries ∨ a.entries.keys.card < n := .inr hfull
      have hcount : m.count < m.maxElementCount := by rw [h.max_eq, h.count_eq_card]; exact hfull
      rw [BoundedMap.update, dif_pos hroom]
      -- a map with room has a bucket that is not filled
      cases hv : vacancy m.numBuckets m.home m.slots k with
      | none =>
        have hall := live_card_eq_of_vacancy_eq_none (h.probed.home_lt k) hv
        have := h.count_eq_live
        have := h.count_eq_card
        have := h.max_le
        omega
      | some i => simpa [place, hcount] using h.insertAt hnew hv v _
    · have hcount : ¬ m.count < m.maxElementCount := by rw [h.max_eq, h.count_eq_card]; exact hfull
      have hroom : ¬ (k ∈ a.entries ∨ a.entries.keys.card < n) := not_or.mpr ⟨hmem, hfull⟩
      rw [BoundedMap.update, dif_neg hroom]
      cases vacancy m.numBuckets m.home m.slots k with
      | none => simpa [place] using h
      | some i => simpa [place, hcount] using h

theorem Refines.elemDelete (k : Key ks) :
    (m.elemDelete k).1 = (a.delete k).1 ∧ Refines (m.elemDelete k).2 (a.delete k).2 := by
  rw [BpftimeHashMap.elemDelete, elemDeleteLoop_eq, found_probes h.probed]
  cases hhit : hit m.numBuckets m.home m.slots k with
  | some i =>
    obtain ⟨hi, hk⟩ := h.probed.hit_eq_some_iff.mp hhit
    rw [BoundedMap.delete, if_pos ((h.mem_iff k).mpr ⟨i, hi, hk⟩)]
    exact ⟨rfl, h.setDeleted hi hk⟩
  | none =>
    have hmem : k ∉ a.entries := by
      rw [h.mem_iff]
      rintro ⟨j, hj, hjk⟩
      exact h.probed.hit_eq_none_iff.mp hhit j hj hjk
    rw [BoundedMap.delete, if_neg hmem]
    exact ⟨rfl, h⟩

theorem Refines.step (op : Op (Key ks) (Value vs)) :
    (m.step op).1 = (a.step op).1 ∧ Refines (m.step op).2 (a.step op).2 := by
  cases op with
  | lookup k => exact ⟨congrArg Reply.found (h.elemLookup_eq k), h⟩
  | update k v =>
    obtain ⟨hok, hnext⟩ := h.elemUpdate k v
    exact ⟨congrArg Reply.done hok, hnext⟩
  | delete k =>
    obtain ⟨hok, hnext⟩ := h.elemDelete k
    exact ⟨congrArg Reply.done hok, hnext⟩

end

end Operations

def liveKeys (m : BpftimeHashMap ks vs) : Finset (Key ks) :=
  ((Finset.range m.numBuckets).filter fun i => (m.buckets i).state = .filled).image fun i => (m.buckets i).key

theorem Refines.liveKeys_eq {n : Nat} {m : BpftimeHashMap ks vs} {a : BoundedMap (Key ks) (Value vs) n}
    (h : Refines m a) : m.liveKeys = a.entries.keys := by
  ext k
  rw [Finmap.mem_keys, h.mem_iff]
  simp only [liveKeys, Finset.mem_image, Finset.mem_filter, Finset.mem_range, slots, slot_eq_filled_iff, and_assoc]

end BpftimeHashMap
