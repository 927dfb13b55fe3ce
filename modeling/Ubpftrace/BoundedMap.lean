import Mathlib.Data.Finmap
import Ubpftrace.Runs

/-!
# Finite maps with a bounded number of entries

The specification of a store of fixed capacity: a finite map of at most `n`
keys, with the answers a caller sees. `lookup_after_iff` reads the content back
from the answers alone.
-/

structure BoundedMap (κ ν : Type) (n : Nat) where
  entries : Finmap fun _ : κ => ν
  card_le : entries.keys.card ≤ n

namespace BoundedMap

open Runs (trace after trace_append after_append lastAction lastAction_concat)

inductive Op (κ ν : Type) where
  | lookup (key : κ)
  | update (key : κ) (value : ν)
  | delete (key : κ)
  deriving DecidableEq

inductive Reply (ν : Type) where
  | found (value : Option ν)
  | done (ok : Bool)
  deriving DecidableEq

def Op.key {κ ν : Type} : Op κ ν → κ
  | .lookup k | .update k _ | .delete k => k

variable {κ ν : Type} [DecidableEq κ] {n : Nat}

theorem keys_insert (m : Finmap fun _ : κ => ν) (k : κ) (v : ν) : (m.insert k v).keys = insert k m.keys := by
  ext k'
  simp [Finmap.mem_keys]

theorem card_insert_le (m : BoundedMap κ ν n) (k : κ) (v : ν) (h : k ∈ m.entries ∨ m.entries.keys.card < n) :
    (m.entries.insert k v).keys.card ≤ n := by
  rw [keys_insert]
  rcases h with hmem | hlt
  · rw [Finset.insert_eq_of_mem (Finmap.mem_keys.mpr hmem)]
    exact m.card_le
  · exact (Finset.card_insert_le k m.entries.keys).trans hlt

theorem card_erase_le (m : BoundedMap κ ν n) (k : κ) : (m.entries.erase k).keys.card ≤ n := by
  rw [Finmap.keys_erase]
  exact Finset.card_erase_le.trans m.card_le

def empty : BoundedMap κ ν n := ⟨∅, Nat.zero_le n⟩

def lookup (m : BoundedMap κ ν n) (k : κ) : Option ν := m.entries.lookup k

/-- A new key is refused when `n` keys are live. -/
def update (m : BoundedMap κ ν n) (k : κ) (v : ν) : Bool × BoundedMap κ ν n :=
  if h : k ∈ m.entries ∨ m.entries.keys.card < n then (true, ⟨m.entries.insert k v, m.card_insert_le k v h⟩)
  else (false, m)

def delete (m : BoundedMap κ ν n) (k : κ) : Bool × BoundedMap κ ν n :=
  if k ∈ m.entries then (true, ⟨m.entries.erase k, m.card_erase_le k⟩) else (false, m)

def step (m : BoundedMap κ ν n) : Op κ ν → Reply ν × BoundedMap κ ν n
  | .lookup k => (.found (m.lookup k), m)
  | .update k v => ((m.update k v).map .done id)
  | .delete k => ((m.delete k).map .done id)

/-- The last update or delete of a key that succeeded. -/
def lastSuccess [DecidableEq ν] (k : κ) (history : List (Op κ ν × Reply ν)) : Option (Op κ ν) :=
  lastAction (fun e => e.1.key = k ∧ e.2 = .done true) history

theorem lastSuccess_concat [DecidableEq ν] (k : κ) (history : List (Op κ ν × Reply ν)) (op : Op κ ν) (r : Reply ν) :
    lastSuccess k (history ++ [(op, r)]) = if op.key = k ∧ r = .done true then some op else lastSuccess k history := by
  simp [lastSuccess, lastAction_concat]

theorem lookup_after_iff [DecidableEq ν] (ops : List (Op κ ν)) (k : κ) (v : ν) :
    (after step (empty : BoundedMap κ ν n) ops).lookup k = some v ↔
      lastSuccess k (trace step (empty : BoundedMap κ ν n) ops) = some (.update k v) := by
  induction ops using List.reverseRecOn with
  | nil => simp [after, trace, lastSuccess, lastAction, lookup, empty]
  | append_singleton ops op ih =>
    rw [trace_append, after_append, trace, trace, lastSuccess_concat]
    generalize after step (empty : BoundedMap κ ν n) ops = m at ih ⊢
    cases op with
    | lookup k' => simpa [after, step] using ih
    | update k' w =>
      by_cases hroom : k' ∈ m.entries ∨ m.entries.keys.card < n
      · by_cases hk : k' = k
        · subst hk
          simp [after, step, update, hroom, lookup, Op.key]
        · have hk' : k ≠ k' := fun h => hk h.symm
          simpa [after, step, update, hroom, lookup, Op.key, hk, Finmap.lookup_insert_of_ne _ hk'] using ih
      · simpa [after, step, update, hroom] using ih
    | delete k' =>
      by_cases hmem : k' ∈ m.entries
      · by_cases hk : k' = k
        · subst hk
          simp [after, step, delete, hmem, lookup, Op.key]
        · have hk' : k ≠ k' := fun h => hk h.symm
          simpa [after, step, delete, hmem, lookup, Op.key, hk, Finmap.lookup_erase_ne hk'] using ih
      · simpa [after, step, delete, hmem] using ih

end BoundedMap
