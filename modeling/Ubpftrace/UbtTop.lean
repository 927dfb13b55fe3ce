import Mathlib.Data.UInt
import Ubpftrace.KeyedMaps
import Ubpftrace.NumberStrings

/-!
# The cluster view of `ubt-top`

The main loop of `ubpftrace_top.cpp` adds up the maps of all node snapshots by map
name. Every update of an accumulator commutes with every other one, so the order
of the snapshots does not show, and every value is added to one bucket or one key
and to the sum.
-/

namespace UbtTop

open KeyedMaps
open NumberStrings (Str stoull)

/-- A JSON value as the parser leaves it: numbers without sign and fraction are unsigned. -/
inductive Value where
  | null
  | boolean (b : Bool)
  | unsigned (n : UInt64)
  | integer (n : Int64)
  | float (x : Float)
  | string (s : Str)
  | array (elems : List Value)
  | object (fields : List (Str × Value))

/-- The conversions of a floating-point number, which C++ leaves open outside the range of the target. -/
structure Casts where
  toU64 : Float → UInt64
  toInt : Float → Int32

structure AggregatedMap where
  name : Str
  type : UInt32
  maxVal : UInt64
  minVal : UInt64
  sumVal : UInt64
  count : UInt64
  histBuckets : List (UInt64 × UInt64)
  keyValues : List (Str × UInt64)
  deriving DecidableEq

def AggregatedMap.new : AggregatedMap := ⟨[], 0, 0, 0xFFFFFFFFFFFFFFFF, 0, 0, [], []⟩

namespace Value

/-- `is_number` and `get<uint64_t>`. -/
def number (c : Casts) : Value → Option UInt64
  | .unsigned n => some n
  | .integer n => some n.toUInt64
  | .float x => some (c.toU64 x)
  | _ => none

/-- `get<int>`, without a number where it throws. -/
def toInt (c : Casts) : Value → Option Int32
  | .boolean b => some (if b then 1 else 0)
  | .unsigned n => some n.toUInt32.toInt32
  | .integer n => some n.toInt32
  | .float x => some (c.toInt x)
  | _ => none

/-- What an iteration over a value with `key()` goes through. Null and an empty array have
nothing to go through; `key()` throws for all others that are not objects. -/
def items : Value → Option (List (Str × Value))
  | .object fields => some fields
  | .null | .array [] => some []
  | _ => none

/-- `value("type", 0)`. -/
def typeField (c : Casts) (fields : List (Str × Value)) : Option Int32 :=
  match fields.lookup "type".toList with
  | none => some 0
  | some t => t.toInt c

/-- The entries, if there is a field of this name and it is an object. -/
def entriesField (fields : List (Str × Value)) : List (Str × Value) :=
  match fields.lookup "entries".toList with
  | some (.object es) => es
  | _ => []

end Value

/-- A snapshot file; the aggregation reads nothing else of it. -/
structure NodeSnapshot where
  maps : Value

/-- The body of the innermost loop. Keys that are numbers stand for buckets. -/
def AggregatedMap.addEntry (c : Casts) (agg : AggregatedMap) (e : Str × Value) : AggregatedMap :=
  let v := (e.2.number c).getD 0
  { agg with
    count := agg.count + 1
    sumVal := agg.sumVal + v
    maxVal := if v > agg.maxVal then v else agg.maxVal
    minVal := if v < agg.minVal then v else agg.minVal
    histBuckets :=
      match stoull e.1 with
      | some bucket => modify 0 (.ofNat bucket) (· + v) agg.histBuckets
      | none => agg.histBuckets
    keyValues :=
      match stoull e.1 with
      | some _ => agg.keyValues
      | none => modify 0 e.1 (· + v) agg.keyValues }

/-- One map of a snapshot; no value where an accessor throws, which ends the program. -/
def addMap (c : Casts) (aggMaps : List (Str × AggregatedMap)) (it : Str × Value) :
    Option (List (Str × AggregatedMap)) :=
  match it.2 with
  | .object fields =>
    (Value.typeField c fields).map fun type =>
      modify .new it.1 (fun agg =>
        (Value.entriesField fields).foldl (AggregatedMap.addEntry c)
          { agg with name := it.1, type := type.toUInt32 }) aggMaps
  | _ => none

def addNode (c : Casts) (aggMaps : List (Str × AggregatedMap)) (node : NodeSnapshot) :
    Option (List (Str × AggregatedMap)) :=
  node.maps.items.bind fun items => items.foldlM (addMap c) aggMaps

def aggregate (c : Casts) (nodes : List NodeSnapshot) : Option (List (Str × AggregatedMap)) :=
  nodes.foldlM (addNode c) []

/-! ## What is shown of a map -/

structure Totals where
  count : UInt64
  sum : UInt64
  min : UInt64
  max : UInt64
  buckets : UInt64 → Option UInt64
  keys : Str → Option UInt64

def AggregatedMap.totals (agg : AggregatedMap) : Totals where
  count := agg.count
  sum := agg.sumVal
  min := agg.minVal
  max := agg.maxVal
  buckets := fun b => agg.histBuckets.lookup b
  keys := fun k => agg.keyValues.lookup k

/-- The totals of every map name. -/
def totalsOf (aggMaps : List (Str × AggregatedMap)) : Str → Option Totals :=
  fun name => (aggMaps.lookup name).map AggregatedMap.totals

def Totals.addEntry (c : Casts) (t : Totals) (e : Str × Value) : Totals :=
  let v := (e.2.number c).getD 0
  { count := t.count + 1
    sum := t.sum + v
    max := if v > t.max then v else t.max
    min := if v < t.min then v else t.min
    buckets := match stoull e.1 with
      | some bucket => alter 0 (.ofNat bucket) (· + v) t.buckets
      | none => t.buckets
    keys := match stoull e.1 with
      | some _ => t.keys
      | none => alter 0 e.1 (· + v) t.keys }

variable (c : Casts) (aggMaps : List (Str × AggregatedMap))

theorem totals_addEntry (agg : AggregatedMap) (e : Str × Value) :
    (agg.addEntry c e).totals = agg.totals.addEntry c e := by
  unfold AggregatedMap.addEntry Totals.addEntry AggregatedMap.totals
  cases stoull e.1 with
  | none | some bucket => simp only [lookup_modify]

theorem totals_addEntries (agg : AggregatedMap) (es : List (Str × Value)) :
    (es.foldl (AggregatedMap.addEntry c) agg).totals = es.foldl (Totals.addEntry c) agg.totals := by
  induction es generalizing agg with
  | nil => rfl
  | cons e es ih => rw [List.foldl_cons, List.foldl_cons, ih, totals_addEntry]

theorem ite_lt_comm (a b x : UInt64) :
    (if a < (if b < x then b else x) then a else if b < x then b else x) =
      if b < (if a < x then a else x) then b else if a < x then a else x := by
  simp only [UInt64.lt_iff_toNat_lt, ← UInt64.toNat_inj]
  split_ifs <;> omega

theorem ite_gt_comm (a b x : UInt64) :
    (if a > (if b > x then b else x) then a else if b > x then b else x) =
      if b > (if a > x then a else x) then b else if a > x then a else x := by
  simp only [gt_iff_lt, UInt64.lt_iff_toNat_lt, ← UInt64.toNat_inj]
  split_ifs <;> omega

theorem Totals.addEntry_comm (t : Totals) (e e' : Str × Value) :
    (t.addEntry c e).addEntry c e' = (t.addEntry c e').addEntry c e := by
  unfold Totals.addEntry
  generalize (e.2.number c).getD 0 = v
  generalize (e'.2.number c).getD 0 = v'
  have hadd (x : UInt64) : x + v' + v = x + v + v' := by rw [UInt64.add_assoc, UInt64.add_comm v' v, UInt64.add_assoc]
  have hkeys := alter_comm 0 e'.1 e.1 (f := (· + v')) (g := (· + v)) fun x => (hadd x).symm
  have hbuckets (b b' : UInt64) := alter_comm 0 b' b (f := (· + v')) (g := (· + v)) fun x => (hadd x).symm
  cases stoull e.1 with
  | none =>
    cases stoull e'.1 with
    | none => simp only [ite_lt_comm v' v, ite_gt_comm v' v, hadd, hkeys]
    | some bucket' => simp only [ite_lt_comm v' v, ite_gt_comm v' v, hadd]
  | some bucket =>
    cases stoull e'.1 with
    | none => simp only [ite_lt_comm v' v, ite_gt_comm v' v, hadd]
    | some bucket' => simp only [ite_lt_comm v' v, ite_gt_comm v' v, hadd, hbuckets (.ofNat bucket) (.ofNat bucket')]

/-! ## The order of the snapshots -/

/-- What a map of a snapshot adds: its name and its entries. -/
def batch (c : Casts) (it : Str × Value) : Option (Str × List (Str × Value)) :=
  match it.2 with
  | .object fields => (Value.typeField c fields).map fun _ => (it.1, Value.entriesField fields)
  | _ => none

/-- What a snapshot adds. -/
def batches (c : Casts) (node : NodeSnapshot) : Option (List (Str × List (Str × Value))) :=
  node.maps.items.bind fun items => items.mapM (batch c)

def addBatch (c : Casts) (t : Str → Option Totals) (b : Str × List (Str × Value)) : Str → Option Totals :=
  alter AggregatedMap.new.totals b.1 (fun t => b.2.foldl (Totals.addEntry c) t) t

theorem addBatch_comm (t : Str → Option Totals) (b b' : Str × List (Str × Value)) :
    addBatch c (addBatch c t b) b' = addBatch c (addBatch c t b') b := by
  apply alter_comm
  intro t
  rw [← List.foldl_append, ← List.foldl_append]
  exact List.perm_append_comm.foldl_eq' (fun e _ e' _ t => t.addEntry_comm c e e') t

theorem totalsOf_addMap (it : Str × Value) :
    (addMap c aggMaps it).map totalsOf = (batch c it).map (addBatch c (totalsOf aggMaps)) := by
  unfold addMap batch
  split
  · next fields _ =>
    cases Value.typeField c fields with
    | none => rfl
    | some type =>
      refine congrArg some ?_
      have hview := map_alter AggregatedMap.totals .new it.1
        (f := fun agg => (Value.entriesField fields).foldl (AggregatedMap.addEntry c)
          { agg with name := it.1, type := type.toUInt32 })
        (g := fun t => (Value.entriesField fields).foldl (Totals.addEntry c) t)
        (fun agg => totals_addEntries c _ _) fun name => aggMaps.lookup name
      rw [← lookup_modify] at hview
      exact hview
  · rfl

/-- The program goes on exactly if no snapshot makes an accessor throw, and then the totals
are those of all that the snapshots add. -/
theorem totalsOf_addMaps (items : List (Str × Value)) (aggMaps : List (Str × AggregatedMap)) :
    (items.foldlM (addMap c) aggMaps).map totalsOf =
      (items.mapM (batch c)).map fun bs => bs.foldl (addBatch c) (totalsOf aggMaps) := by
  induction items generalizing aggMaps with
  | nil => rfl
  | cons it items ih =>
    have hstep := totalsOf_addMap c aggMaps it
    rw [List.foldlM_cons, List.mapM_cons]
    cases hadd : addMap c aggMaps it with
    | none =>
      rw [hadd, Option.map_none, eq_comm, Option.map_eq_none_iff] at hstep
      simp [hstep]
    | some aggMaps' =>
      rw [hadd, Option.map_some, eq_comm, Option.map_eq_some_iff] at hstep
      obtain ⟨b, hb, heq⟩ := hstep
      have hrest := ih aggMaps'
      rw [← heq] at hrest
      simp only [hb, Option.bind_eq_bind, Option.bind_some]
      rw [hrest]
      cases items.mapM (batch c) <;> simp

theorem totalsOf_addNode (node : NodeSnapshot) :
    (addNode c aggMaps node).map totalsOf = (batches c node).map fun bs =>
      bs.foldl (addBatch c) (totalsOf aggMaps) := by
  unfold addNode batches
  cases node.maps.items with
  | none => rfl
  | some items => exact totalsOf_addMaps c items aggMaps

theorem totalsOf_addNodes (nodes : List NodeSnapshot) (aggMaps : List (Str × AggregatedMap)) :
    (nodes.foldlM (addNode c) aggMaps).map totalsOf =
      if ∀ node ∈ nodes, (batches c node).isSome then
        some ((nodes.flatMap fun node => (batches c node).getD []).foldl (addBatch c) (totalsOf aggMaps))
      else none := by
  induction nodes generalizing aggMaps with
  | nil => simp
  | cons node nodes ih =>
    have hstep := totalsOf_addNode c aggMaps node
    rw [List.foldlM_cons]
    cases hadd : addNode c aggMaps node with
    | none =>
      rw [hadd, Option.map_none, eq_comm, Option.map_eq_none_iff] at hstep
      simp [hstep]
    | some aggMaps' =>
      rw [hadd, Option.map_some, eq_comm, Option.map_eq_some_iff] at hstep
      obtain ⟨bs, hbs, heq⟩ := hstep
      have hrest := ih aggMaps'
      rw [← heq] at hrest
      simp only [Option.bind_eq_bind, Option.bind_some, hrest, List.forall_mem_cons, hbs, Option.isSome_some, true_and,
        List.flatMap_cons, Option.getD_some, List.foldl_append]

theorem aggregate_perm {nodes nodes' : List NodeSnapshot} (h : nodes.Perm nodes') :
    (aggregate c nodes).map totalsOf = (aggregate c nodes').map totalsOf := by
  unfold aggregate
  rw [totalsOf_addNodes, totalsOf_addNodes]
  have hall : (∀ node ∈ nodes, (batches c node).isSome) ↔ ∀ node ∈ nodes', (batches c node).isSome :=
    forall_congr' fun node => imp_congr_left h.mem_iff
  simp only [hall]
  split
  · exact congrArg some ((h.flatMap_right _).foldl_eq' (fun b _ b' _ t => addBatch_comm c t b b') _)
  · rfl

/-! ## The sum of all values -/

/-- All values are in one of the buckets or keys. -/
def AggregatedMap.Balanced (agg : AggregatedMap) : Prop := total agg.histBuckets + total agg.keyValues = agg.sumVal

theorem AggregatedMap.Balanced.addEntry {agg : AggregatedMap} (h : agg.Balanced) (c : Casts) (e : Str × Value) :
    (agg.addEntry c e).Balanced := by
  unfold AggregatedMap.Balanced at h ⊢
  unfold AggregatedMap.addEntry
  cases stoull e.1 with
  | none =>
    simp only [total_modify_add]
    rw [← h, add_assoc]
  | some bucket =>
    simp only [total_modify_add]
    rw [← h, add_right_comm]

theorem AggregatedMap.Balanced.addEntries {agg : AggregatedMap} (h : agg.Balanced) (c : Casts)
    (es : List (Str × Value)) : (es.foldl (AggregatedMap.addEntry c) agg).Balanced := by
  induction es generalizing agg with
  | nil => exact h
  | cons e es ih => exact ih (h.addEntry c e)

theorem balanced_addMap {c : Casts} {aggMaps aggMaps' : List (Str × AggregatedMap)} {it : Str × Value}
    (h : ∀ p ∈ aggMaps, p.2.Balanced) (hadd : addMap c aggMaps it = some aggMaps') : ∀ p ∈ aggMaps', p.2.Balanced := by
  unfold addMap at hadd
  split at hadd
  · obtain ⟨type, -, rfl⟩ := Option.map_eq_some_iff.mp hadd
    apply forall_modify (P := AggregatedMap.Balanced)
    · rfl
    · intro agg hagg
      apply AggregatedMap.Balanced.addEntries
      exact hagg
    · exact h
  · cases hadd

theorem foldlM_invariant {σ α : Type} {P : σ → Prop} {f : σ → α → Option σ}
    (hstep : ∀ s a s', P s → f s a = some s' → P s') {l : List α} {s s' : σ} (hs : P s)
    (h : l.foldlM f s = some s') : P s' := by
  induction l generalizing s with
  | nil =>
    cases h
    exact hs
  | cons a l ih =>
    obtain ⟨t, ht, hrest⟩ := Option.bind_eq_some_iff.mp h
    exact ih (hstep s a t hs ht) hrest

theorem balanced_aggregate {c : Casts} {nodes : List NodeSnapshot} {aggMaps : List (Str × AggregatedMap)}
    (h : aggregate c nodes = some aggMaps) : ∀ p ∈ aggMaps, p.2.Balanced := by
  refine foldlM_invariant (P := fun aggMaps : List (Str × AggregatedMap) => ∀ p ∈ aggMaps, p.2.Balanced) ?_
    (by simp) h
  intro aggMaps node aggMaps' hall hnode
  obtain ⟨items, -, hitems⟩ := Option.bind_eq_some_iff.mp hnode
  exact foldlM_invariant (fun _ _ _ => balanced_addMap) hall hitems

/-- For any snapshots in any order `ubt-top` shows the same count, sum, minimum, maximum,
bucket totals and key totals of every map (or fails on both), and the totals of the
buckets and the keys of a map are together its sum, modulo 2^64. -/
theorem aggregation_order_free (c : Casts) {nodes nodes' : List NodeSnapshot} (h : nodes.Perm nodes') :
    (aggregate c nodes).map totalsOf = (aggregate c nodes').map totalsOf ∧
      ∀ aggMaps, aggregate c nodes = some aggMaps → ∀ name agg, aggMaps.lookup name = some agg →
        total agg.histBuckets + total agg.keyValues = agg.sumVal := by
  refine ⟨aggregate_perm c h, ?_⟩
  intro aggMaps hagg name agg hname
  obtain ⟨before, behind, rfl, -⟩ := List.lookup_eq_some_iff.mp hname
  exact balanced_aggregate hagg (name, agg) (by simp)

/-- A snapshot with one map. -/
def oneMap (entries : List (Str × Value)) : NodeSnapshot :=
  ⟨.object [("hits".toList, .object [("entries".toList, .object entries)])]⟩

/-- Two nodes that share a bucket; one of them has a key that is no number. -/
theorem aggregation_order_free_two_nodes :
    let nodes := [oneMap [("5".toList, .unsigned 3), ("main".toList, .unsigned 4)], oneMap [("5".toList, .unsigned 9)]]
    let casts : Casts := ⟨fun _ => 0, fun _ => 0⟩
    ((aggregate casts nodes).bind (·.lookup "hits".toList)).map
      (fun agg => (agg.sumVal, agg.histBuckets, agg.keyValues)) =
        some (16, [(5, 12)], [("main".toList, 4)]) ∧
      nodes.Perm nodes.reverse ∧
      (aggregate casts nodes).map totalsOf = (aggregate casts nodes.reverse).map totalsOf := by
  refine ⟨by decide +kernel, List.Perm.swap _ _ _, ?_⟩
  exact (aggregation_order_free _ (List.Perm.swap _ _ _)).1

end UbtTop
