import Mathlib.Algebra.BigOperators.Group.List.Basic
import Mathlib.Data.BitVec
import Ubpftrace.MachineWords

/-!
# Time series

The generated code for `tseries()` keeps, for each key and each slot of the
last intervals, one record for each CPU, and resets a record only when it is
next used. `reduce_tseries_value` takes the records of all CPUs of a slot and
combines those of the latest epoch.
-/

namespace TimeSeries

open Function
open MachineWords (Sign)

inductive Agg where
  | none | sum | min | max | avg
  deriving DecidableEq

structure Record where
  val : BitVec 64
  metadata : BitVec 64
  epoch : BitVec 64
  deriving DecidableEq

def Record.zero : Record := ⟨0, 0, 0⟩

/-- The arguments of the calls for one map, within the checks of their literals. -/
structure Config where
  interval : BitVec 64
  intervals : BitVec 64
  sign : Sign
  agg : Agg
  interval_pos : 0 < interval.toNat
  intervals_pos : 0 < intervals.toNat
  intervals_le : intervals.toNat ≤ 1000000

/-- A call: where and when it runs, what it counts, and whether the map has room for a
new element if it needs one. -/
structure Update (κ C : Type) where
  key : κ
  cpu : C
  now : BitVec 64
  value : BitVec 64
  room : Bool
  deriving DecidableEq

variable {κ C : Type}

def Config.epoch (cfg : Config) (u : Update κ C) : BitVec 64 := u.now / cfg.interval

/-- The key of the map element: the bucket follows the key of the call. -/
def Config.slot (cfg : Config) (u : Update κ C) : κ × BitVec 64 := (u.key, cfg.epoch u % cfg.intervals)

/-- The comparison of a maximum or a minimum: equal values beat each other. -/
def Beats (isMax : Bool) (s : Sign) (v w : BitVec 64) : Prop :=
  match isMax with
  | true => s.val w ≤ s.val v
  | false => s.val v ≤ s.val w

instance (isMax : Bool) (s : Sign) (v w : BitVec 64) : Decidable (Beats isMax s v w) :=
  match isMax with
  | true => inferInstanceAs (Decidable (_ ≤ _))
  | false => inferInstanceAs (Decidable (_ ≤ _))

/-- `CreateMinMax` on the value and the flag that it is set. -/
def createMinMax (isMax : Bool) (s : Sign) (val : BitVec 64) (r : Record) : Record :=
  if r.metadata = 1 then if Beats isMax s val r.val then { r with val := val, metadata := 1 } else r
  else { r with val := val, metadata := 1 }

/-- What a call does to the record of its CPU. -/
def Config.apply (cfg : Config) (u : Update κ C) (r : Record) : Record :=
  let cleared := if cfg.agg ≠ .none ∧ r.epoch ≠ cfg.epoch u then { r with val := 0, metadata := 0 } else r
  let updated :=
    match cfg.agg with
    | .avg => { cleared with val := cleared.val + u.value, metadata := cleared.metadata + 1 }
    | .sum => { cleared with val := cleared.val + u.value }
    | .max => createMinMax true cfg.sign u.value cleared
    | .min => createMinMax false cfg.sign u.value cleared
    | .none => { cleared with val := u.value, metadata := u.now }
  { updated with epoch := cfg.epoch u }

section Calls

variable [DecidableEq κ] [DecidableEq C]

/-- The elements of the per-CPU map. -/
abbrev State (κ C : Type) := κ × BitVec 64 → Option (C → Record)

/-- The generated code: a record in the map is updated in place, and without an element
a local one is inserted, in which the other CPUs have zeros. -/
def Config.tseries (cfg : Config) (st : State κ C) (u : Update κ C) : State κ C :=
  match st (cfg.slot u) with
  | some records =>
    update st (cfg.slot u) (some (update records u.cpu (cfg.apply u (records u.cpu))))
  | none =>
    if u.room then
      update st (cfg.slot u)
        (some (update (fun _ => .zero) u.cpu (cfg.apply u ⟨0, 0, cfg.epoch u⟩)))
    else st

/-- A call whose element is there or can be inserted. -/
def Config.takes (cfg : Config) (st : State κ C) (u : Update κ C) : Bool := (st (cfg.slot u)).isSome || u.room

/-- The map after a sequence of calls. -/
def Config.run (cfg : Config) (us : List (Update κ C)) : State κ C := us.foldl cfg.tseries fun _ => none

/-- The calls of a sequence that the map takes. -/
def Config.takenFrom (cfg : Config) (st : State κ C) : List (Update κ C) → List (Update κ C)
  | [] => []
  | u :: us =>
    if cfg.takes st u then u :: cfg.takenFrom (cfg.tseries st u) us else cfg.takenFrom (cfg.tseries st u) us

def Config.taken (cfg : Config) (us : List (Update κ C)) : List (Update κ C) := cfg.takenFrom (fun _ => none) us

end Calls

section Reduction

/-- Two records of one epoch. -/
def merge (s : Sign) (agg : Agg) (current v : Record) : Record :=
  match agg with
  | .none =>
    if s.val current.metadata < s.val v.metadata then { current with val := v.val, metadata := v.metadata } else current
  | .avg => { current with val := current.val + v.val, metadata := current.metadata + v.metadata }
  | .min => { current with val := if s.val v.val < s.val current.val then v.val else current.val }
  | .max => { current with val := if s.val current.val < s.val v.val then v.val else current.val }
  | .sum => { current with val := current.val + v.val }

/-- One round over the CPUs: the latest epoch so far and the records by epoch. -/
def reduceStep (s : Sign) (agg : Agg) (st : BitVec 64 × (BitVec 64 → Option Record)) (v : Record) :
    BitVec 64 × (BitVec 64 → Option Record) :=
  if v.epoch = 0 then st
  else
    let latest := if st.1.toNat < v.epoch.toNat then v.epoch else st.1
    match st.2 v.epoch with
    | none => (latest, update st.2 v.epoch (some v))
    | some current => (latest, update st.2 v.epoch (some (merge s agg current v)))

/-- A division of the type; none by zero, nor of the least signed number by -1. -/
def quotient (s : Sign) (total count : BitVec 64) : Option (BitVec 64) :=
  if count = 0 ∨ (s = .signed ∧ total = BitVec.intMin 64 ∧ count = -1) then none else some (s.quot total count)

/-- The value of a reduced record. -/
def finish (s : Sign) (agg : Agg) (r : Record) : Option (BitVec 64) :=
  if agg = .avg then quotient s r.val r.metadata else some r.val

/-- The epoch and the value of a slot, from the records of all CPUs. -/
def reduceTseriesValue (s : Sign) (agg : Agg) (records : List Record) : Option (BitVec 64 × BitVec 64) :=
  let st := records.foldl (reduceStep s agg) (0, fun _ => none)
  if st.1 = 0 then some (0, 0)
  else
    let latest := (st.2 st.1).getD .zero
    (finish s agg latest).map fun v => (latest.epoch, v)

end Reduction

/-- A value that beats all others. -/
def Extreme (isMax : Bool) (s : Sign) (values : List (BitVec 64)) (v : BitVec 64) : Prop :=
  v ∈ values ∧ ∀ w ∈ values, Beats isMax s v w

/-- The aggregate of the values counted in an epoch, modulo `2 ^ 64`. -/
def Aggregates (s : Sign) (agg : Agg) (values : List (BitVec 64)) (result : Option (BitVec 64)) : Prop :=
  match agg with
  | .none => True
  | .sum => result = some values.sum
  | .avg => result = quotient s values.sum (BitVec.ofNat 64 values.length)
  | .min => ∃ v, result = some v ∧ Extreme false s values v
  | .max => ∃ v, result = some v ∧ Extreme true s values v

/-- What a record holds of the values it has taken in its epoch. -/
def Summary (s : Sign) (agg : Agg) (values : List (BitVec 64)) (r : Record) : Prop :=
  match agg with
  | .none => True
  | .sum => r.val = values.sum
  | .avg => r.val = values.sum ∧ r.metadata = BitVec.ofNat 64 values.length
  | .min => r.metadata = 1 ∧ Extreme false s values r.val
  | .max => r.metadata = 1 ∧ Extreme true s values r.val

section Summaries

variable {isMax : Bool} {s : Sign} {agg : Agg} {vs ws : List (BitVec 64)} {a b c : BitVec 64} {r v : Record}

theorem Beats.refl (isMax : Bool) (s : Sign) (a : BitVec 64) : Beats isMax s a a := by
  cases isMax <;> exact le_refl _

theorem Beats.trans (h : Beats isMax s a b) (h' : Beats isMax s b c) : Beats isMax s a c := by
  cases isMax with
  | true => exact le_trans h' h
  | false => exact le_trans h h'

theorem Beats.of_not (h : ¬ Beats isMax s a b) : Beats isMax s b a := by
  cases isMax with
  | true | false => exact le_of_lt (not_le.mp h)

/-- Of two extremes, the one that beats the other is that of both. -/
theorem Extreme.append (ha : Extreme isMax s vs a) (hb : Extreme isMax s ws b)
    (hc : (c = a ∧ Beats isMax s a b) ∨ (c = b ∧ Beats isMax s b a)) : Extreme isMax s (vs ++ ws) c := by
  rcases hc with ⟨rfl, hab⟩ | ⟨rfl, hba⟩
  · refine ⟨List.mem_append_left _ ha.1, fun w hw => ?_⟩
    rcases List.mem_append.mp hw with hw | hw
    · exact ha.2 w hw
    · exact hab.trans (hb.2 w hw)
  · refine ⟨List.mem_append_right _ hb.1, fun w hw => ?_⟩
    rcases List.mem_append.mp hw with hw | hw
    · exact hba.trans (ha.2 w hw)
    · exact hb.2 w hw

theorem Extreme.singleton (isMax : Bool) (s : Sign) (a : BitVec 64) : Extreme isMax s [a] a :=
  ⟨List.mem_singleton_self a, fun w hw => by rw [List.mem_singleton.mp hw]; exact .refl isMax s a⟩

theorem Extreme.perm (h : Extreme isMax s vs a) (hperm : vs.Perm ws) : Extreme isMax s ws a :=
  ⟨hperm.mem_iff.mp h.1, fun w hw => h.2 w (hperm.mem_iff.mpr hw)⟩

theorem Summary.perm (h : Summary s agg vs r) (hperm : vs.Perm ws) : Summary s agg ws r := by
  cases agg with
  | none => trivial
  | sum => exact h.trans hperm.sum_eq
  | avg => exact ⟨h.1.trans hperm.sum_eq, by rw [← hperm.length_eq]; exact h.2⟩
  | min | max => exact ⟨h.1, h.2.perm hperm⟩

theorem Summary.aggregates (h : Summary s agg vs r) : Aggregates s agg vs (finish s agg r) := by
  cases agg with
  | none => trivial
  | sum => exact congrArg some h
  | avg =>
    obtain ⟨hval, hcount⟩ := h
    rw [Aggregates, finish, if_pos rfl, hval, hcount]
  | min | max => exact ⟨r.val, rfl, h.2⟩

theorem Summary.merge (h : Summary s agg vs r) (h' : Summary s agg ws v) :
    Summary s agg (vs ++ ws) (TimeSeries.merge s agg r v) := by
  cases agg with
  | none => trivial
  | sum =>
    simp only [Summary, TimeSeries.merge] at h h' ⊢
    rw [h, h', List.sum_append]
  | avg =>
    simp only [Summary, TimeSeries.merge] at h h' ⊢
    rw [h.1, h.2, h'.1, h'.2, List.sum_append, List.length_append, BitVec.ofNat_add]
    exact ⟨rfl, rfl⟩
  | min | max =>
    refine ⟨h.1, h.2.append h'.2 ?_⟩
    simp only [TimeSeries.merge]
    split
    · next hlt => exact Or.inr ⟨rfl, le_of_lt hlt⟩
    · next hle => exact Or.inl ⟨rfl, not_lt.mp hle⟩

theorem Extreme.createMinMax (h : Extreme isMax s vs r.val) (hset : r.metadata = 1) (n : BitVec 64) :
    (TimeSeries.createMinMax isMax s n r).metadata = 1 ∧
      Extreme isMax s (vs ++ [n]) (TimeSeries.createMinMax isMax s n r).val := by
  rw [TimeSeries.createMinMax, if_pos hset]
  split
  · next hbeats => exact ⟨rfl, h.append (.singleton isMax s n) (Or.inr ⟨rfl, hbeats⟩)⟩
  · next hloses => exact ⟨hset, h.append (.singleton isMax s n) (Or.inl ⟨rfl, .of_not hloses⟩)⟩

end Summaries

variable {cfg : Config} {u : Update κ C}

@[simp] theorem Config.apply_epoch (cfg : Config) (u : Update κ C) (r : Record) :
    (cfg.apply u r).epoch = cfg.epoch u := rfl

theorem Summary.start (cfg : Config) {r : Record} (hagg : cfg.agg ≠ .none) (hnew : r.epoch ≠ cfg.epoch u) :
    Summary cfg.sign cfg.agg [u.value] (cfg.apply u r) := by
  unfold Config.apply
  rw [if_pos ⟨hagg, hnew⟩]
  cases h : cfg.agg with
  | none => trivial
  | sum | avg => simp [Summary]
  | min | max => exact ⟨rfl, .singleton _ _ _⟩

theorem Summary.add {r : Record} {vs : List (BitVec 64)} (h : Summary cfg.sign cfg.agg vs r)
    (hsame : r.epoch = cfg.epoch u) : Summary cfg.sign cfg.agg (vs ++ [u.value]) (cfg.apply u r) := by
  unfold Config.apply
  rw [if_neg (fun hclear => hclear.2 hsame)]
  cases hagg : cfg.agg with
  | none => trivial
  | sum =>
    rw [hagg] at h
    simp only [Summary] at h ⊢
    rw [h, List.sum_append, List.sum_singleton]
  | avg =>
    rw [hagg] at h
    simp only [Summary] at h ⊢
    rw [h.1, h.2, List.sum_append, List.sum_singleton, List.length_append, BitVec.ofNat_add]
    exact ⟨rfl, rfl⟩
  | min | max =>
    rw [hagg] at h
    exact h.2.createMinMax h.1 u.value

/-- A local record starts in the epoch of its call, which makes no difference. -/
theorem Config.apply_local (cfg : Config) (u : Update κ C) : cfg.apply u ⟨0, 0, cfg.epoch u⟩ = cfg.apply u .zero := by
  have hzero : (if cfg.agg ≠ .none ∧ Record.zero.epoch ≠ cfg.epoch u then { Record.zero with val := 0, metadata := 0 }
      else Record.zero) = .zero := by
    split <;> rfl
  unfold Config.apply
  rw [if_neg (fun h => h.2 rfl), hzero]
  cases cfg.agg <;> rfl

/-- The record of a CPU after the calls that reached it. -/
def Config.replay (cfg : Config) (us : List (Update κ C)) : Record := us.foldl (fun r u => cfg.apply u r) .zero

theorem Config.replay_concat (cfg : Config) (us : List (Update κ C)) (u : Update κ C) :
    cfg.replay (us ++ [u]) = cfg.apply u (cfg.replay us) := by
  rw [replay, List.foldl_concat]
  rfl

/-- The values counted in an epoch. -/
def Config.valuesIn (cfg : Config) (e : BitVec 64) (us : List (Update κ C)) : List (BitVec 64) :=
  (us.filter fun u => cfg.epoch u = e).map Update.value

/-- The record of a CPU is about the latest epoch that used it. -/
structure Config.Latest (cfg : Config) (us : List (Update κ C)) (r : Record) : Prop where
  used : ∃ u ∈ us, cfg.epoch u = r.epoch
  last : ∀ u ∈ us, (cfg.epoch u).toNat ≤ r.epoch.toNat
  summary : Summary cfg.sign cfg.agg (cfg.valuesIn r.epoch us) r

theorem Config.replay_latest (cfg : Config) (hagg : cfg.agg ≠ .none) (us : List (Update κ C)) (hne : us ≠ [])
    (hclock : us.Pairwise fun u v => (cfg.epoch u).toNat ≤ (cfg.epoch v).toNat) (hpos : ∀ u ∈ us, cfg.epoch u ≠ 0) :
    cfg.Latest us (cfg.replay us) := by
  induction us using List.reverseRecOn with
  | nil => exact absurd rfl hne
  | append_singleton us u ih =>
    obtain ⟨hbefore, -, hlast⟩ := List.pairwise_append.mp hclock
    have hlast : ∀ v ∈ us, (cfg.epoch v).toNat ≤ (cfg.epoch u).toNat := fun v hv => hlast v hv u List.mem_cons_self
    rw [cfg.replay_concat]
    refine ⟨⟨u, by simp, rfl⟩, ?_, ?_⟩
    · intro v hv
      rcases List.mem_append.mp hv with hv | hv
      · exact hlast v hv
      · rw [List.mem_singleton.mp hv, apply_epoch]
    · have hvalues : cfg.valuesIn (cfg.epoch u) (us ++ [u]) = cfg.valuesIn (cfg.epoch u) us ++ [u.value] := by
        simp [valuesIn]
      rw [apply_epoch, hvalues]
      by_cases hsame : (cfg.replay us).epoch = cfg.epoch u
      · have hnonempty : us ≠ [] := by
          rintro rfl
          exact hpos u (by simp) hsame.symm
        have hprev := (ih hnonempty hbefore fun v hv => hpos v (List.mem_append_left _ hv)).summary
        rw [hsame] at hprev
        exact hprev.add hsame
      · -- the record's epoch is earlier, so that no call before was in this one
        have hnone : cfg.valuesIn (cfg.epoch u) us = [] := by
          rw [valuesIn, List.map_eq_nil_iff, List.filter_eq_nil_iff]
          intro v hv hepoch
          have hlatest := ih (List.ne_nil_of_mem hv) hbefore fun w hw => hpos w (List.mem_append_left _ hw)
          obtain ⟨w, hw, hused⟩ := hlatest.used
          have hle := hlatest.last v hv
          have hge := hlast w hw
          rw [of_decide_eq_true hepoch] at hle
          rw [hused] at hge
          exact hsame (BitVec.eq_of_toNat_eq (by omega))
        rw [hnone]
        exact Summary.start cfg hagg hsame

section Runs

variable [DecidableEq κ] [DecidableEq C]

/-- The calls that reached a slot. -/
def Config.onSlot (cfg : Config) (slot : κ × BitVec 64) (us : List (Update κ C)) : List (Update κ C) :=
  us.filter fun u => cfg.slot u = slot

def onCpu (c : C) (us : List (Update κ C)) : List (Update κ C) := us.filter fun u => u.cpu = c

/-- The map holds the calls `us`: an element for each slot that was used, and in it for each CPU
the record of its calls. -/
def Config.Represents (cfg : Config) (st : State κ C) (us : List (Update κ C)) : Prop :=
  ∀ slot, st slot = if cfg.onSlot slot us = [] then none else some fun c => cfg.replay (onCpu c (cfg.onSlot slot us))

omit [DecidableEq C] in
theorem Config.onSlot_concat (cfg : Config) (slot : κ × BitVec 64) (us : List (Update κ C)) (u : Update κ C) :
    cfg.onSlot slot (us ++ [u]) = if cfg.slot u = slot then cfg.onSlot slot us ++ [u] else cfg.onSlot slot us := by
  split <;> simp [onSlot, *]

omit [DecidableEq κ] in
theorem onCpu_concat (c : C) (us : List (Update κ C)) (u : Update κ C) :
    onCpu c (us ++ [u]) = if u.cpu = c then onCpu c us ++ [u] else onCpu c us := by
  split <;> simp [onCpu, *]

omit [DecidableEq κ] in
/-- The records of a slot after one more call: only the one of its CPU changes. -/
theorem Config.replay_update (cfg : Config) (us : List (Update κ C)) (u : Update κ C) :
    (fun c => cfg.replay (onCpu c (us ++ [u]))) =
      update (fun c => cfg.replay (onCpu c us)) u.cpu (cfg.apply u (cfg.replay (onCpu u.cpu us))) := by
  funext c
  rw [onCpu_concat]
  by_cases hc : u.cpu = c
  · subst hc
    rw [if_pos rfl, update_self, cfg.replay_concat]
  · rw [if_neg hc, update_of_ne (Ne.symm hc)]

theorem Config.represents_tseries {st : State κ C} {us : List (Update κ C)} (h : cfg.Represents st us)
    (u : Update κ C) :
    cfg.Represents (cfg.tseries st u) (if cfg.takes st u then us ++ [u] else us) := by
  have hown := h (cfg.slot u)
  by_cases hunused : cfg.onSlot (cfg.slot u) us = []
  · rw [if_pos hunused] at hown
    cases hroom : u.room with
    | false =>
      have hrefused : cfg.takes st u = false := by rw [takes, hown, hroom]; rfl
      have hsame : cfg.tseries st u = st := by simp only [tseries, hown, hroom, Bool.false_eq_true, if_false]
      rw [hrefused, hsame]
      exact h
    | true =>
      have htaken : cfg.takes st u = true := by rw [takes, hroom, Bool.or_true]
      rw [htaken, if_pos rfl]
      simp only [tseries, hown, hroom, if_true]
      intro slot
      rw [cfg.onSlot_concat]
      by_cases hslot : cfg.slot u = slot
      · subst hslot
        rw [if_pos rfl, if_neg (by simp), update_self, hunused, cfg.replay_update, cfg.apply_local]
        rfl
      · rw [if_neg hslot, update_of_ne (Ne.symm hslot)]
        exact h slot
  · rw [if_neg hunused] at hown
    have htaken : cfg.takes st u = true := by rw [takes, hown]; rfl
    rw [htaken, if_pos rfl]
    simp only [tseries, hown]
    intro slot
    rw [cfg.onSlot_concat]
    by_cases hslot : cfg.slot u = slot
    · subst hslot
      rw [if_pos rfl, if_neg (by simp), update_self, cfg.replay_update]
    · rw [if_neg hslot, update_of_ne (Ne.symm hslot)]
      exact h slot

theorem Config.represents_foldl (st : State κ C) (before : List (Update κ C)) (h : cfg.Represents st before)
    (us : List (Update κ C)) : cfg.Represents (us.foldl cfg.tseries st) (before ++ cfg.takenFrom st us) := by
  induction us generalizing st before with
  | nil =>
    rw [takenFrom, List.append_nil]
    exact h
  | cons u us ih =>
    have hstep := ih _ _ (cfg.represents_tseries h u)
    rw [List.foldl_cons, takenFrom]
    split
    · next htaken =>
      rw [if_pos htaken, List.append_assoc] at hstep
      exact hstep
    · next hrefused =>
      rw [if_neg hrefused] at hstep
      exact hstep

theorem Config.represents_run (cfg : Config) (us : List (Update κ C)) : cfg.Represents (cfg.run us) (cfg.taken us) :=
  cfg.represents_foldl (fun _ => none) [] (fun _ => rfl) us

end Runs

section Reduction

variable {s : Sign} {agg : Agg}

/-- The records of one epoch, combined from the first on. -/
def combine (s : Sign) (agg : Agg) : List Record → Option Record
  | [] => none
  | r :: rs => some (rs.foldl (merge s agg) r)

theorem combine_concat (rs : List Record) (v : Record) :
    combine s agg (rs ++ [v]) = some (match combine s agg rs with
      | none => v
      | some current => merge s agg current v) := by
  cases rs with
  | nil => rfl
  | cons r rs => rw [List.cons_append, combine, combine, List.foldl_concat]

/-- What the loop over the CPUs has found: the latest epoch, and for each epoch the records that it combined. -/
structure Found (s : Sign) (agg : Agg) (records : List Record) (st : BitVec 64 × (BitVec 64 → Option Record)) :
    Prop where
  last : ∀ r ∈ records, r.epoch.toNat ≤ st.1.toNat
  used : st.1 = 0 ∨ ∃ r ∈ records, r.epoch = st.1
  table : ∀ e, e ≠ 0 → st.2 e = combine s agg (records.filter fun r => r.epoch = e)

theorem found_step {records : List Record} {st : BitVec 64 × (BitVec 64 → Option Record)}
    (h : Found s agg records st) (v : Record) : Found s agg (records ++ [v]) (reduceStep s agg st v) := by
  by_cases hunused : v.epoch = 0
  · rw [reduceStep, if_pos hunused]
    refine ⟨?_, ?_, ?_⟩
    · intro r hr
      rcases List.mem_append.mp hr with hr | hr
      · exact h.last r hr
      · rw [List.mem_singleton.mp hr, hunused]
        exact Nat.zero_le _
    · exact h.used.imp_right fun ⟨r, hr, he⟩ => ⟨r, List.mem_append_left _ hr, he⟩
    · intro e he
      have hother : ¬ v.epoch = e := fun h' => he (h'.symm.trans hunused)
      rw [h.table e he, List.filter_append, List.filter_cons_of_neg (by simpa using hother), List.filter_nil,
        List.append_nil]
  · have hstep : reduceStep s agg st v =
        (if st.1.toNat < v.epoch.toNat then v.epoch else st.1,
          update st.2 v.epoch (combine s agg ((records.filter fun r => r.epoch = v.epoch) ++ [v]))) := by
      rw [reduceStep, if_neg hunused, combine_concat, ← h.table v.epoch hunused]
      cases st.2 v.epoch <;> rfl
    rw [hstep]
    refine ⟨?_, ?_, ?_⟩
    · intro r hr
      rcases List.mem_append.mp hr with hr | hr
      · have hlast := h.last r hr
        dsimp only
        split <;> omega
      · rw [List.mem_singleton.mp hr]
        dsimp only
        split <;> omega
    · split
      · exact Or.inr ⟨v, by simp, rfl⟩
      · exact h.used.imp_right fun ⟨r, hr, he⟩ => ⟨r, List.mem_append_left _ hr, he⟩
    · intro e he
      dsimp only
      by_cases hsame : v.epoch = e
      · subst hsame
        rw [update_self, List.filter_append, List.filter_cons_of_pos (by simp), List.filter_nil]
      · rw [update_of_ne (Ne.symm hsame), h.table e he, List.filter_append,
          List.filter_cons_of_neg (by simpa using hsame), List.filter_nil, List.append_nil]

theorem found_reduce (s : Sign) (agg : Agg) (records : List Record) :
    Found s agg records (records.foldl (reduceStep s agg) (0, fun _ => none)) := by
  induction records using List.reverseRecOn with
  | nil => exact ⟨fun r hr => (List.not_mem_nil hr).elim, Or.inl rfl, fun _ _ => rfl⟩
  | append_singleton records v ih =>
    rw [List.foldl_concat]
    exact found_step ih v

@[simp] theorem merge_epoch (current v : Record) : (merge s agg current v).epoch = current.epoch := by
  cases agg with
  | none => rw [merge]; split <;> rfl
  | sum | min | max | avg => rfl

theorem flatMap_filter_of_nil {α β : Type} (p : α → Bool) (f : α → List β) (l : List α)
    (h : ∀ a, p a = false → f a = []) :
    (l.filter p).flatMap f = l.flatMap f := by
  induction l with
  | nil => rfl
  | cons a l ih =>
    cases ha : p a with
    | true => rw [List.filter_cons_of_pos ha, List.flatMap_cons, List.flatMap_cons, ih]
    | false => rw [List.filter_cons_of_neg (by simp [ha]), List.flatMap_cons, h a ha, List.nil_append, ih]

/-- The records of some CPUs, each with the values it holds, combine to one that holds all of them. -/
theorem combine_summary {e : BitVec 64} (records : C → Record) (values : C → List (BitVec 64)) (cs : List C)
    (hne : cs ≠ []) (hepoch : ∀ c ∈ cs, (records c).epoch = e) (h : ∀ c ∈ cs, Summary s agg (values c) (records c)) :
    ∃ r, combine s agg (cs.map records) = some r ∧ r.epoch = e ∧ Summary s agg (cs.flatMap values) r := by
  cases cs with
  | nil => exact absurd rfl hne
  | cons c cs =>
    -- the first record takes up the others one by one
    have hfold :
      ∀ (ds : List C) (r : Record) (vs : List (BitVec 64)), (∀ d ∈ ds, Summary s agg (values d) (records d)) →
        Summary s agg vs r → ((ds.map records).foldl (merge s agg) r).epoch = r.epoch ∧
          Summary s agg (vs ++ ds.flatMap values) ((ds.map records).foldl (merge s agg) r) := by
      intro ds
      induction ds with
      | nil =>
        intro r vs _ hr
        rw [List.flatMap_nil, List.append_nil]
        exact ⟨rfl, hr⟩
      | cons d ds ih =>
        intro r vs hds hr
        have hrest := ih (merge s agg r (records d)) (vs ++ values d) (fun x hx => hds x (List.mem_cons_of_mem d hx))
          (hr.merge (hds d List.mem_cons_self))
        rw [merge_epoch, List.append_assoc] at hrest
        exact hrest
    obtain ⟨hkeep, hsummary⟩ := hfold cs (records c) (values c) (fun d hd => h d (List.mem_cons_of_mem c hd))
      (h c List.mem_cons_self)
    exact ⟨_, rfl, hkeep.trans (hepoch c List.mem_cons_self), hsummary⟩

end Reduction

section Slots

variable [DecidableEq κ] [DecidableEq C] {order : List C}

/-- The clocks of the calls: none runs backwards on a CPU, and all are past the first interval. -/
structure Config.Clocked (cfg : Config) (us : List (Update κ C)) : Prop where
  monotone : us.Pairwise fun u v => u.cpu = v.cpu → u.now.toNat ≤ v.now.toNat
  late : ∀ u ∈ us, cfg.interval.toNat ≤ u.now.toNat

theorem Config.takenFrom_sublist (cfg : Config) (st : State κ C) (us : List (Update κ C)) :
    (cfg.takenFrom st us).Sublist us := by
  induction us generalizing st with
  | nil => exact .slnil
  | cons u us ih =>
    rw [takenFrom]
    split
    · exact (ih _).cons_cons u
    · exact (ih _).cons u

theorem Config.takenFrom_of_room (cfg : Config) (st : State κ C) (us : List (Update κ C))
    (h : ∀ u ∈ us, u.room = true) :
    cfg.takenFrom st us = us := by
  induction us generalizing st with
  | nil => rfl
  | cons u us ih =>
    have htaken : cfg.takes st u = true := by rw [takes, h u List.mem_cons_self, Bool.or_true]
    rw [takenFrom, if_pos htaken, ih _ fun v hv => h v (List.mem_cons_of_mem u hv)]

omit [DecidableEq κ] in
/-- The calls of each CPU, one CPU after the other. -/
theorem perm_onCpu (hnodup : order.Nodup) (hall : ∀ c, c ∈ order) (us : List (Update κ C)) :
    (order.flatMap fun c => onCpu c us).Perm us := by
  induction us with
  | nil => simp [onCpu]
  | cons u us ih =>
    obtain ⟨before, after, rfl⟩ := List.append_of_mem (hall u.cpu)
    have hother : ∀ c, u.cpu ≠ c → onCpu c (u :: us) = onCpu c us := fun c hc =>
      List.filter_cons_of_neg (by simpa using hc)
    obtain ⟨-, hafter, hbefore⟩ := List.nodup_append.mp hnodup
    have hb : before.flatMap (fun c => onCpu c (u :: us)) = before.flatMap fun c => onCpu c us :=
      List.flatMap_congr fun c hc => hother c (Ne.symm (hbefore c hc u.cpu List.mem_cons_self))
    have ha : after.flatMap (fun c => onCpu c (u :: us)) = after.flatMap fun c => onCpu c us :=
      List.flatMap_congr fun c hc => hother c fun he => (List.nodup_cons.mp hafter).1 (he ▸ hc)
    have hown : onCpu u.cpu (u :: us) = u :: onCpu u.cpu us := List.filter_cons_of_pos (by simp)
    rw [List.flatMap_append, List.flatMap_cons] at ih ⊢
    rw [hb, ha, hown, List.cons_append]
    exact List.perm_middle.trans (ih.cons u)

omit [DecidableEq κ] in
theorem Config.perm_valuesIn (cfg : Config) (hnodup : order.Nodup) (hall : ∀ c, c ∈ order) (e : BitVec 64)
    (us : List (Update κ C)) : (order.flatMap fun c => cfg.valuesIn e (onCpu c us)).Perm (cfg.valuesIn e us) := by
  have hswap : (fun c => cfg.valuesIn e (onCpu c us)) =
      fun c => (onCpu c (us.filter fun u => cfg.epoch u = e)).map Update.value := by
    funext c
    rw [valuesIn, onCpu, onCpu, List.filter_filter, List.filter_filter]
    simp only [Bool.and_comm]
  rw [hswap, ← List.map_flatMap]
  exact (perm_onCpu hnodup hall _).map Update.value

variable {us : List (Update κ C)}

omit [DecidableEq κ] [DecidableEq C] in
theorem Config.Clocked.sublist {vs : List (Update κ C)} (h : cfg.Clocked us) (hsub : vs.Sublist us) : cfg.Clocked vs :=
  ⟨h.monotone.sublist hsub, fun u hu => h.late u (hsub.subset hu)⟩

omit [DecidableEq κ] [DecidableEq C] in
theorem Config.Clocked.epoch_ne_zero (h : cfg.Clocked us) (hu : u ∈ us) : cfg.epoch u ≠ 0 := by
  intro hzero
  have hpos := Nat.div_pos (h.late u hu) cfg.interval_pos
  have hzero' : (cfg.epoch u).toNat = 0 := by rw [hzero]; rfl
  rw [epoch, BitVec.toNat_udiv] at hzero'
  omega

theorem Config.Clocked.latest (h : cfg.Clocked us) (hagg : cfg.agg ≠ .none)
    (slot : κ × BitVec 64) (c : C) (hne : onCpu c (cfg.onSlot slot us) ≠ []) :
    cfg.Latest (onCpu c (cfg.onSlot slot us)) (cfg.replay (onCpu c (cfg.onSlot slot us))) := by
  have hsub : (onCpu c (cfg.onSlot slot us)).Sublist us := List.filter_sublist.trans List.filter_sublist
  have hclocked := h.sublist hsub
  refine cfg.replay_latest hagg _ hne ?_ fun u hu => hclocked.epoch_ne_zero hu
  refine hclocked.monotone.imp_of_mem fun {u v} hu hv hmono => ?_
  have hcpu : u.cpu = v.cpu :=
    (of_decide_eq_true (List.mem_filter.mp hu).2).trans (of_decide_eq_true (List.mem_filter.mp hv).2).symm
  exact Nat.div_le_div_right (hmono hcpu)

/-- The reduced records of the CPUs, in any order, of a slot that was used. -/
theorem Config.Clocked.reduced (h : cfg.Clocked us) (hagg : cfg.agg ≠ .none) {slot : κ × BitVec 64}
    (hused : cfg.onSlot slot us ≠ []) (hnodup : order.Nodup) (hall : ∀ c, c ∈ order) :
    ∃ e r, reduceTseriesValue cfg.sign cfg.agg (order.map fun c => cfg.replay (onCpu c (cfg.onSlot slot us))) =
        r.map (fun v => (e, v)) ∧
      (∃ u ∈ cfg.onSlot slot us, cfg.epoch u = e) ∧ (∀ u ∈ cfg.onSlot slot us, (cfg.epoch u).toNat ≤ e.toNat) ∧
      Aggregates cfg.sign cfg.agg (cfg.valuesIn e (cfg.onSlot slot us)) r := by
  set calls := cfg.onSlot slot us
  set records : C → Record := fun c => cfg.replay (onCpu c calls)
  have hmine : ∀ u ∈ calls, u ∈ onCpu u.cpu calls := fun u hu => List.mem_filter.mpr ⟨hu, by simp⟩
  have hlatest : ∀ c, onCpu c calls ≠ [] → cfg.Latest (onCpu c calls) (records c) := fun c hc => h.latest hagg slot c hc
  have hfound := found_reduce cfg.sign cfg.agg (order.map records)
  set st := (order.map records).foldl (reduceStep cfg.sign cfg.agg) (0, fun _ => none)
  have hlast : ∀ u ∈ calls, (cfg.epoch u).toNat ≤ st.1.toNat := fun u hu =>
    Nat.le_trans ((hlatest u.cpu (List.ne_nil_of_mem (hmine u hu))).last u (hmine u hu))
      (hfound.last _ (List.mem_map_of_mem (hall u.cpu)))
  have hnonzero : st.1 ≠ 0 := by
    obtain ⟨u, hu⟩ := List.exists_mem_of_ne_nil _ hused
    intro hzero
    have hle := hlast u hu
    rw [hzero] at hle
    exact h.epoch_ne_zero (List.mem_filter.mp hu).1 (BitVec.eq_of_toNat_eq (Nat.le_zero.mp hle))
  obtain ⟨r, hr, hepoch⟩ := hfound.used.resolve_left hnonzero
  obtain ⟨c, hc, rfl⟩ := List.mem_map.mp hr
  have hcalls : onCpu c calls ≠ [] := by
    intro hempty
    simp only [records, hempty] at hepoch
    exact hnonzero hepoch.symm
  -- the CPUs whose record is of the latest epoch hold all values of that epoch
  have hothers : ∀ c, (records c).epoch ≠ st.1 → cfg.valuesIn st.1 (onCpu c calls) = [] := by
    intro c hother
    rw [valuesIn, List.map_eq_nil_iff, List.filter_eq_nil_iff]
    intro u hu hin
    have hup := (hlatest c (List.ne_nil_of_mem hu)).last u hu
    have hdown := hfound.last _ (List.mem_map_of_mem (hall c))
    rw [of_decide_eq_true hin] at hup
    exact hother (BitVec.eq_of_toNat_eq (by omega))
  have hflat :=
    flatMap_filter_of_nil (fun c => (records c).epoch = st.1) (fun c => cfg.valuesIn st.1 (onCpu c calls)) order
    fun c hc => hothers c (of_decide_eq_false hc)
  have hsummaries : ∀ c ∈ order.filter fun c => (records c).epoch = st.1,
      Summary cfg.sign cfg.agg (cfg.valuesIn st.1 (onCpu c calls)) (records c) := by
    intro c hc
    have hce : (records c).epoch = st.1 := of_decide_eq_true (List.mem_filter.mp hc).2
    have hne : onCpu c calls ≠ [] := by
      intro hempty
      simp only [records, hempty] at hce
      exact hnonzero hce.symm
    rw [← hce]
    exact (hlatest c hne).summary
  obtain ⟨r, hcombined, hre, hsummary⟩ := combine_summary records (fun c => cfg.valuesIn st.1 (onCpu c calls))
    (order.filter fun c => (records c).epoch = st.1)
      (List.ne_nil_of_mem (List.mem_filter.mpr ⟨hall c, by simpa using hepoch⟩))
    (fun c hc => of_decide_eq_true (List.mem_filter.mp hc).2) hsummaries
  rw [hflat] at hsummary
  refine ⟨st.1, finish cfg.sign cfg.agg r, ?_, ?_, hlast, ?_⟩
  · have htable : st.2 st.1 = some r := by
      rw [hfound.table st.1 hnonzero, List.filter_map]
      exact hcombined
    rw [reduceTseriesValue]
    rw [if_neg hnonzero, htable]
    simp only [Option.getD_some, hre]
  · obtain ⟨u, hu, he⟩ := (hlatest c hcalls).used
    exact ⟨u, (List.mem_filter.mp hu).1, he.trans hepoch⟩
  · exact (hsummary.perm (cfg.perm_valuesIn hnodup hall st.1 calls)).aggregates

omit [DecidableEq κ] [DecidableEq C] in
theorem Extreme.unique {isMax : Bool} {s : Sign} {vs : List (BitVec 64)} {a b : BitVec 64} (ha : Extreme isMax s vs a)
    (hb : Extreme isMax s vs b) : a = b := by
  have hab := ha.2 b hb.1
  have hba := hb.2 a ha.1
  cases isMax with
  | true => exact MachineWords.val_injective (le_antisymm hba hab)
  | false => exact MachineWords.val_injective (le_antisymm hab hba)

theorem Aggregates.unique {s : Sign} {agg : Agg} {vs : List (BitVec 64)} {r r' : Option (BitVec 64)}
    (hagg : agg ≠ .none)
    (h : Aggregates s agg vs r) (h' : Aggregates s agg vs r') : r = r' := by
  cases agg with
  | none => exact absurd rfl hagg
  | sum | avg => exact h.trans h'.symm
  | min | max =>
    obtain ⟨a, rfl, ha⟩ := h
    obtain ⟨b, rfl, hb⟩ := h'
    rw [ha.unique hb]

/-- What a slot reduces to after the calls `us`, in any order of the CPUs: the latest
epoch that used it, with the aggregate of all values counted in it on any CPU. A slot
without element was not used. -/
def Config.Reduces (cfg : Config) (us : List (Update κ C)) (slot : κ × BitVec 64) : Prop :=
  match cfg.run us slot with
  | none => ∀ u ∈ cfg.taken us, cfg.slot u ≠ slot
  | some records => ∃ e r, (∃ u ∈ cfg.onSlot slot (cfg.taken us), cfg.epoch u = e) ∧
      (∀ u ∈ cfg.onSlot slot (cfg.taken us), (cfg.epoch u).toNat ≤ e.toNat) ∧
      Aggregates cfg.sign cfg.agg (cfg.valuesIn e (cfg.onSlot slot (cfg.taken us))) r ∧
      ∀ order : List C, order.Nodup → (∀ c, c ∈ order) →
        reduceTseriesValue cfg.sign cfg.agg (order.map records) = r.map fun v => (e, v)

/-- Every slot reduces to its latest epoch. The calls that count are those the map
takes, which are all if it has room for every element. -/
theorem reduced_latest_epoch [Fintype C] (cfg : Config) (hagg : cfg.agg ≠ .none) (us : List (Update κ C))
    (h : cfg.Clocked us) (slot : κ × BitVec 64) :
    ((∀ u ∈ us, u.room = true) → cfg.taken us = us) ∧ cfg.Reduces us slot := by
  refine ⟨fun hroom => cfg.takenFrom_of_room _ us hroom, ?_⟩
  have htaken : cfg.Clocked (cfg.taken us) := h.sublist (cfg.takenFrom_sublist _ us)
  rw [Config.Reduces, cfg.represents_run us slot]
  split
  · next hnone =>
    intro u hu hslot
    split at hnone
    · next hunused => exact List.ne_nil_of_mem (List.mem_filter.mpr ⟨hu, decide_eq_true hslot⟩) hunused
    · cases hnone
  · next records hsome =>
    split at hsome
    · cases hsome
    · next hused =>
      cases hsome
      obtain ⟨e, r, -, ⟨u, hu, hue⟩, hlast, hr⟩ :=
        htaken.reduced hagg hused Finset.univ.nodup_toList fun c => Finset.mem_toList.mpr (Finset.mem_univ c)
      refine ⟨e, r, ⟨u, hu, hue⟩, hlast, hr, fun order hnodup hall => ?_⟩
      obtain ⟨e', r', hreduced, ⟨u', hu', hue'⟩, hlast', hr'⟩ := htaken.reduced hagg hused hnodup hall
      -- both epochs are the latest
      obtain rfl : e = e' := by
        have hle := hlast' u hu
        have hge := hlast u' hu'
        rw [hue] at hle
        rw [hue'] at hge
        exact BitVec.eq_of_toNat_eq (by omega)
      rw [hreduced, hr.unique hagg hr']

/-- Sums over intervals of ten, in two slots. -/
def tens : Config := ⟨10, 2, .unsigned, .sum, by decide, by decide, by decide⟩

/-- Two CPUs count into the slot of the odd epochs: 5 in the first, 6 and 7 in the third. -/
def threeCalls : List (Update Unit Bool) :=
  [⟨(), false, 15, 5, true⟩, ⟨(), false, 30, 6, true⟩, ⟨(), true, 35, 7, true⟩]

theorem reduced_latest_epoch_threeCalls :
    tens.Clocked threeCalls ∧ tens.taken threeCalls = threeCalls ∧ tens.Reduces threeCalls ((), 1) :=
  have hclocked : tens.Clocked threeCalls := ⟨by decide, by decide⟩
  have h := reduced_latest_epoch tens (by decide) threeCalls hclocked ((), 1)
  ⟨hclocked, h.1 (by decide), h.2⟩

example : (tens.run threeCalls ((), 1)).map
  (fun records => reduceTseriesValue .unsigned .sum ([true, false].map records)) =
    some (some (3, 13)) := by decide

end Slots

end TimeSeries
