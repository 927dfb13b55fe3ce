import Ubpftrace.Runs
import Ubpftrace.ShmBuffer

/-!
# Creating and attaching the node-local segment

`ubpf_shm_create_or_attach` on every local rank of a node. The one creator
unlinks the name, creates a segment and clears it; the others open what the
name is bound to, or create it if there is nothing. Every system call is one
step, which the operating system may let fail, and so are the creator's
`memset` and each of its stores; the steps of the ranks interleave in any
order. Nothing in the code makes a rank wait for the creator.
-/

namespace ShmAttach

open Function
open Runs (Reaches run reaches_of_run)

def shmMagic : UInt32 := 0x55425046
def shmVersion : UInt32 := 0x00010000

/-- `sizeof(ubpf_node_shm_header)`: the head and the counters, and two blocks
padded to cache lines. -/
def totalSize : Nat := 128 + 64 * ShmBuffer.maxLocalRanks + 2 * (128 + ShmBuffer.bufferCapacity)

/-- What stands in a segment. -/
structure Image where
  magic : UInt32
  version : UInt32
  jobId : UInt32
  nodeId : UInt32
  numLocalRanks : UInt32
  mapOverflowFlag : Bool
  node : ShmBuffer.NodeShm

/-- After `memset`. -/
def Image.blank : Image := ⟨0, 0, 0, 0, 0, false, ⟨0, fun _ => ⟨0, 0⟩, fun _ => ⟨0, 0, fun _ => 0⟩⟩⟩

/-- The creator's stores, in their order. -/
def stores (jobId nodeId : UInt32) : List (Image → Image) :=
  [fun m => { m with magic := shmMagic },
   fun m => { m with version := shmVersion },
   fun m => { m with jobId := jobId },
   fun m => { m with nodeId := nodeId },
   fun m => { m with numLocalRanks := 0 },
   fun m => { m with mapOverflowFlag := false },
   fun m => { m with node := { m.node with activeEpochBuffer := 0 } }]

variable {ι : Type}

/-- A segment. As history, the ranks whose call has returned it, and those that
had it when it was cleared. -/
structure Segment (ι : Type) where
  size : Nat
  image : Image
  users : List ι
  lost : List ι

/-- The next system call or store of a rank, with the segment behind its descriptor. -/
inductive Pc where
  | unlink
  | attach
  | create
  | stat (seg : Nat)
  | truncate (seg : Nat)
  | map (seg : Nat)
  | clear (seg : Nat)
  | fill (seg stored : Nat)
  | done (seg : Nat)
  | failed
  deriving DecidableEq

def Pc.seg : Pc → Option Nat
  | .stat g | .truncate g | .map g | .clear g | .fill g _ | .done g => some g
  | .unlink | .attach | .create | .failed => none

/-- The call has returned a mapping. -/
def Pc.returned : Pc → Bool
  | .done _ => true
  | _ => false

/-- The segments, what the name is bound to, and the next new segment. -/
structure State (ι : Type) where
  name : Option Nat
  next : Nat
  segs : Nat → Segment ι
  pc : ι → Pc

/-- Which rank moves, and whether its system call succeeds. -/
structure Action (ι : Type) where
  rank : ι
  ok : Bool

/-- A segment that was just created. -/
def Segment.new : Segment ι := ⟨0, .blank, [], []⟩

def State.setSeg (s : State ι) (g : Nat) (seg : Segment ι) : State ι :=
  { s with segs := update s.segs g seg }

variable [DecidableEq ι]

def State.goto (s : State ι) (r : ι) (p : Pc) : State ι := { s with pc := update s.pc r p }

/-- Before the calls; an earlier job may have left a segment under the name. -/
def start (creator : ι) (stale : Option (Nat × Image)) : State ι where
  name := stale.map fun _ => 0
  next := 1
  segs := fun _ => ⟨(stale.map Prod.fst).getD 0, (stale.map Prod.snd).getD .blank, [], []⟩
  pc := fun r => if r = creator then .unlink else .attach

def State.giveBack (s : State ι) (r : ι) (g : Nat) : State ι :=
  (s.setSeg g { s.segs g with users := (s.segs g).users ++ [r] }).goto r (.done g)

/-- `shm_open` with `O_CREAT`. -/
def State.openOrCreate (s : State ι) (r : ι) : State ι :=
  match s.name with
  | some g => s.goto r (.stat g)
  | none => { s.setSeg s.next .new with name := some s.next, next := s.next + 1 }.goto r (.stat s.next)

/-- One step of a rank in `ubpf_shm_create_or_attach`. A `memset` beyond the
end of the segment kills the process. -/
def step (creator : ι) (jobId nodeId : UInt32) (s : State ι) (a : Action ι) : Option (State ι) :=
  let r := a.rank
  match s.pc r with
  | .unlink => some (if a.ok = true then { s with name := none }.goto r .create else s.goto r .create)
  | .attach =>
    match s.name with
    | some g => some (if a.ok = true then s.goto r (.stat g) else s.goto r .create)
    | none => some (s.goto r .create)
  | .create => some (if a.ok = true then s.openOrCreate r else s.goto r .failed)
  | .stat g =>
    some (if a.ok = true ∧ (s.segs g).size < totalSize then s.goto r (.truncate g) else s.goto r (.map g))
  | .truncate g =>
    some (if a.ok = true then (s.setSeg g { s.segs g with size := totalSize }).goto r (.map g) else s.goto r .failed)
  | .map g =>
    some (if a.ok = false then s.goto r .failed
      else if r = creator then s.goto r (.clear g)
      else s.giveBack r g)
  | .clear g =>
    some (if (s.segs g).size < totalSize then s.goto r .failed
      else (s.setSeg g { s.segs g with
        image := .blank
        lost := (s.segs g).lost ++ (s.segs g).users }).goto r (.fill g 0))
  | .fill g n =>
    match (stores jobId nodeId)[n]? with
    | some f => some ((s.setSeg g { s.segs g with image := f (s.segs g).image }).goto r (.fill g (n + 1)))
    | none => some (s.giveBack r g)
  | .done _ | .failed => none

/-- All of the segment exists, and it holds what the creator has put there. -/
def Segment.Initialised (jobId nodeId : UInt32) (seg : Segment ι) : Prop :=
  totalSize ≤ seg.size ∧
    seg.image = ⟨shmMagic, shmVersion, jobId, nodeId, 0, false, (ShmBuffer.init ι).shm⟩

/-- The ranks whose call has succeeded share one initialised segment, and no
segment was cleared under a rank that had it. -/
structure Shared (jobId nodeId : UInt32) (s : State ι) : Prop where
  same : ∀ r r' g g', s.pc r = .done g → s.pc r' = .done g' → g = g'
  initialised : ∀ r g, s.pc r = .done g → (s.segs g).Initialised jobId nodeId
  uncleared : ∀ g, (s.segs g).lost = []

/-- A rank that is not the creator opens the name only after the creator's
`shm_unlink`, and returns only after the creator. -/
def Ordered (creator : ι) (s : State ι) (a : Action ι) : Prop :=
  a.rank ≠ creator →
    match s.pc a.rank with
    | .attach | .create => s.pc creator ≠ .unlink
    | .map _ => a.ok = true → (s.pc creator).returned = true
    | _ => True

instance (creator : ι) (s : State ι) (a : Action ι) : Decidable (Ordered creator s a) := by
  unfold Ordered
  split <;> infer_instance

/-- The first `n` stores have been made. -/
def Segment.Filled (jobId nodeId : UInt32) (n : Nat) (seg : Segment ι) : Prop :=
  totalSize ≤ seg.size ∧ seg.image = ((stores jobId nodeId).take n).foldl (fun m f => f m) .blank

/-- Where a rank can be that is not the creator. -/
def Pc.attaching : Pc → Bool
  | .unlink | .clear _ | .fill _ _ => false
  | _ => true

/-- Where the creator can be between its `shm_unlink` and its first store. -/
def Pc.calling : Pc → Bool
  | .create | .stat _ | .truncate _ | .map _ | .clear _ | .failed => true
  | _ => false

/-- What an ordered run keeps: whatever a rank has open is what the name is
bound to, and nobody returns before the creator. -/
structure Inv (creator : ι) (jobId nodeId : UInt32) (s : State ι) : Prop where
  first : s.pc creator = .unlink → ∀ r, r ≠ creator → s.pc r = .attach
  role : ∀ r, r ≠ creator → (s.pc r).attaching = true
  leads : s.pc creator ≠ .attach
  named : ∀ r g, (s.pc r).seg = some g → s.name = some g
  waiting : (s.pc creator).returned = false → ∀ r, (s.pc r).returned = false
  unused : (s.pc creator).returned = false → ∀ g, (s.segs g).users = []
  filled : ∀ g n, s.pc creator = .fill g n → (s.segs g).Filled jobId nodeId n
  ready : ∀ g, s.pc creator = .done g → (s.segs g).Initialised jobId nodeId
  uncleared : ∀ g, (s.segs g).lost = []

variable {creator r : ι} {jobId nodeId : UInt32} {s : State ι} {seg : Segment ι}

omit [DecidableEq ι] in
@[simp] theorem setSeg_name (g : Nat) (seg : Segment ι) : (s.setSeg g seg).name = s.name := rfl

omit [DecidableEq ι] in
theorem forall_setSeg (P : Segment ι → Prop) (h : ∀ g, P (s.segs g)) (g : Nat) (hseg : P seg) :
    ∀ k, P ((s.setSeg g seg).segs k) :=
  (forall_update_iff s.segs fun _ seg => P seg).mpr ⟨hseg, fun k _ => h k⟩

theorem forall_goto (P : ι → Pc → Prop) (h : ∀ q, q ≠ r → P q (s.pc q)) {p : Pc} (hp : P r p) :
    ∀ q, P q ((s.goto r p).pc q) :=
  (forall_update_iff s.pc P).mpr ⟨hp, h⟩

theorem start_inv (creator : ι) (jobId nodeId : UInt32) (stale : Option (Nat × Image)) :
    Inv creator jobId nodeId (start creator stale) := by
  have hpc : ∀ r, (start creator stale).pc r = if r = creator then .unlink else .attach := fun _ => rfl
  have hseg : ∀ r, ((start creator stale).pc r).seg = none := by
    intro r
    rw [hpc]
    split <;> rfl
  refine ⟨?_, ?_, ?_, ?_, ?_, fun _ _ => rfl, ?_, ?_, fun _ => rfl⟩
  · intro _ r hr
    rw [hpc, if_neg hr]
  · intro r hr
    rw [hpc, if_neg hr]
    rfl
  · rw [hpc, if_pos rfl]
    simp
  · intro r g hg
    rw [hseg r] at hg
    cases hg
  · intro _ r
    rw [hpc]
    split <;> rfl
  · intro g n hp
    rw [hpc, if_pos rfl] at hp
    cases hp
  · intro g hp
    rw [hpc, if_pos rfl] at hp
    cases hp

omit [DecidableEq ι] in
theorem filled_succ {n : Nat} {f : Image → Image} (h : seg.Filled jobId nodeId n)
    (hf : (stores jobId nodeId)[n]? = some f) :
    Segment.Filled jobId nodeId (n + 1) { seg with image := f seg.image } := by
  obtain ⟨hsize, himage⟩ := h
  refine ⟨hsize, ?_⟩
  rw [List.take_add_one, hf, Option.toList_some, List.foldl_append, ← himage]
  rfl

omit [DecidableEq ι] in
theorem initialised_of_filled {n : Nat} (h : seg.Filled jobId nodeId n) (hn : (stores jobId nodeId)[n]? = none) :
    seg.Initialised jobId nodeId := by
  obtain ⟨hsize, himage⟩ := h
  rw [List.take_of_length_le (List.getElem?_eq_none_iff.mp hn)] at himage
  exact ⟨hsize, himage⟩

section

variable (h : Inv creator jobId nodeId s)
include h

theorem Inv.goto_other (hr : r ≠ creator) (hc : s.pc creator ≠ .unlink) {p : Pc} (hrole : p.attaching = true)
    (hseg : ∀ g, p.seg = some g → s.name = some g) (hret : p.returned = true → (s.pc creator).returned = true) :
    Inv creator jobId nodeId (s.goto r p) := by
  have hcreator : (s.goto r p).pc creator = s.pc creator := update_of_ne hr.symm _ _
  refine ⟨?_, ?_, ?_, ?_, ?_, ?_, ?_, ?_, h.uncleared⟩
  · intro hu
    exact absurd (hcreator ▸ hu) hc
  · exact forall_goto (fun q p => q ≠ creator → p.attaching = true) (fun q _ => h.role q) fun _ => hrole
  · rw [hcreator]
    exact h.leads
  · exact forall_goto (fun _ p => ∀ g, p.seg = some g → s.name = some g) (fun q _ => h.named q) hseg
  · intro hn
    rw [hcreator] at hn
    apply forall_goto (fun _ p => p.returned = false) (fun q _ => h.waiting hn q)
    cases hp : p.returned with
    | false => rfl
    | true =>
      rw [hret hp] at hn
      cases hn
  · rw [hcreator]
    exact h.unused
  · rw [hcreator]
    exact h.filled
  · rw [hcreator]
    exact h.ready

/-- The creator goes on, before it has returned, and may change a segment. -/
theorem Inv.goto_creator (hn : (s.pc creator).returned = false) (segs : Nat → Segment ι)
    (husers : ∀ g, (segs g).users = []) (hlost : ∀ g, (segs g).lost = []) (p : Pc) (hu : p ≠ .unlink) (ha : p ≠ .attach)
    (hseg : ∀ g, p.seg = some g → s.name = some g) (hfill : ∀ g n, p = .fill g n → (segs g).Filled jobId nodeId n)
    (hdone : ∀ g, p = .done g → (segs g).Initialised jobId nodeId) :
    Inv creator jobId nodeId (State.goto { s with segs := segs } creator p) := by
  have hcreator : (State.goto { s with segs := segs } creator p).pc creator = p := update_self _ _ _
  refine ⟨?_, ?_, ?_, ?_, ?_, fun _ => husers, ?_, ?_, hlost⟩
  · rw [hcreator]
    exact fun hp => absurd hp hu
  · exact forall_goto (fun q p => q ≠ creator → p.attaching = true) (fun q _ => h.role q) (absurd rfl)
  · rw [hcreator]
    exact ha
  · exact forall_goto (fun _ p => ∀ g, p.seg = some g → s.name = some g) (fun q _ => h.named q) hseg
  · rw [hcreator]
    exact forall_goto (fun _ p => p.returned = false) (fun q _ => h.waiting hn q)
  · rw [hcreator]
    exact hfill
  · rw [hcreator]
    exact hdone

theorem Inv.goto_call (hn : (s.pc creator).returned = false) (p : Pc) (hp : p.calling = true)
    (hseg : ∀ g, p.seg = some g → s.name = some g) :
    Inv creator jobId nodeId (s.goto creator p) :=
  h.goto_creator hn s.segs (h.unused hn) h.uncleared p (by rintro rfl; cases hp) (by rintro rfl; cases hp) hseg
    (by rintro g n rfl; cases hp) (by rintro g rfl; cases hp)

theorem Inv.creator_writes (hn : (s.pc creator).returned = false) (g : Nat) (hname : s.name = some g) (seg : Segment ι)
    (husers : seg.users = []) (hlost : seg.lost = []) (p : Pc)
    (hp : p = .map g ∨ ∃ n, p = .fill g n ∧ seg.Filled jobId nodeId n) :
    Inv creator jobId nodeId ((s.setSeg g seg).goto creator p) := by
  have hbound : ∀ k, p.seg = some k → s.name = some k := by
    obtain rfl | ⟨n, rfl, -⟩ := hp <;> simp [Pc.seg, hname]
  apply h.goto_creator hn (s.setSeg g seg).segs (forall_setSeg (·.users = []) (h.unused hn) g husers)
    (forall_setSeg (·.lost = []) h.uncleared g hlost) p _ _ hbound
  · rintro k n rfl
    obtain hmap | ⟨m, hfill, hf⟩ := hp
    · cases hmap
    · obtain ⟨rfl, rfl⟩ := Pc.fill.inj hfill
      simpa [State.setSeg] using hf
  · rintro k rfl
    simp at hp
  · rintro rfl
    simp at hp
  · rintro rfl
    simp at hp

omit [DecidableEq ι] in
theorem Inv.setSeg (g : Nat) (seg : Segment ι) (himage : seg.image = (s.segs g).image)
    (hsize : totalSize ≤ (s.segs g).size → totalSize ≤ seg.size) (hlost : seg.lost = [])
    (husers : (s.pc creator).returned = false → seg.users = []) : Inv creator jobId nodeId (s.setSeg g seg) := by
  -- `Filled` and `Initialised` both say that the segment is whole and what stands in it
  have hkeep : ∀ k m, totalSize ≤ (s.segs k).size ∧ (s.segs k).image = m →
      totalSize ≤ ((s.setSeg g seg).segs k).size ∧ ((s.setSeg g seg).segs k).image = m := by
    rintro k m ⟨hk, hm⟩
    simp only [State.setSeg, update_apply]
    split
    · next heq =>
      subst heq
      exact ⟨hsize hk, himage.trans hm⟩
    · exact ⟨hk, hm⟩
  exact { h with
    unused := fun hn => forall_setSeg (·.users = []) (h.unused hn) g (husers hn)
    filled := fun k n hp => hkeep k _ (h.filled k n hp)
    ready := fun k hp => hkeep k _ (h.ready k hp)
    uncleared := forall_setSeg (·.lost = []) h.uncleared g hlost }

omit [DecidableEq ι] in
/-- A new segment gets the name while nobody has one open. -/
theorem Inv.bindNew (hnone : s.name = none) :
    Inv creator jobId nodeId { s.setSeg s.next .new with name := some s.next, next := s.next + 1 } := by
  have hfree : ∀ r g, (s.pc r).seg ≠ some g := by
    intro r g hg
    have hname := h.named r g hg
    rw [hnone] at hname
    cases hname
  refine ⟨h.first, h.role, h.leads, fun r g hg => absurd hg (hfree r g), h.waiting, ?_, ?_, ?_, ?_⟩
  · exact fun hn => forall_setSeg (·.users = []) (h.unused hn) s.next rfl
  · intro g n hp
    exact absurd (by rw [show s.pc creator = _ from hp]; rfl) (hfree creator g)
  · intro g hp
    exact absurd (by rw [show s.pc creator = _ from hp]; rfl) (hfree creator g)
  · exact forall_setSeg (·.lost = []) h.uncleared s.next rfl

omit [DecidableEq ι] in
theorem Inv.addUser (hret : (s.pc creator).returned = true) (r : ι) (g : Nat) :
    Inv creator jobId nodeId (s.setSeg g { s.segs g with users := (s.segs g).users ++ [r] }) :=
  h.setSeg g _ rfl id (h.uncleared g) fun hn => by rw [hret] at hn; cases hn

theorem Inv.openOrCreate (hc : s.pc creator ≠ .unlink) (hn : (s.pc r).returned = false) :
    Inv creator jobId nodeId (s.openOrCreate r) := by
  have hstat : ∀ {t : State ι} {g : Nat}, Inv creator jobId nodeId t → t.pc = s.pc → t.name = some g →
      Inv creator jobId nodeId (t.goto r (.stat g)) := by
    intro t g ht hpc hname
    have hseg : ∀ k, (Pc.stat g).seg = some k → t.name = some k := by
      intro k hk
      rw [hname]
      exact hk
    by_cases hr : r = creator
    · subst hr
      rw [← hpc] at hn
      exact ht.goto_call hn _ rfl hseg
    · exact ht.goto_other hr (by rw [hpc]; exact hc) rfl hseg (by simp [Pc.returned])
  rw [State.openOrCreate]
  split
  · next g hname => exact hstat h rfl hname
  · next hnone => exact hstat (h.bindNew hnone) rfl rfl

theorem other_step_inv (hr : r ≠ creator) (ok : Bool) (hord : Ordered creator s ⟨r, ok⟩) {s' : State ι}
    (hs : step creator jobId nodeId s ⟨r, ok⟩ = some s') : Inv creator jobId nodeId s' := by
  have hord := hord hr
  have hrole := h.role r hr
  have hlate : s.pc r ≠ .attach → s.pc creator ≠ .unlink := fun hp hu => hp (h.first hu r hr)
  simp only [step] at hs
  cases hp : s.pc r with
  | unlink | clear g | fill g n =>
    rw [hp] at hrole
    cases hrole
  | done g | failed =>
    rw [hp] at hs
    cases hs
  | attach =>
    rw [hp] at hs
    simp only [hp] at hord
    have hcreate : Inv creator jobId nodeId (s.goto r .create) :=
      h.goto_other hr hord rfl (by simp [Pc.seg]) (by simp [Pc.returned])
    cases hname : s.name with
    | none =>
      rw [hname] at hs
      cases hs
      exact hcreate
    | some g =>
      rw [hname] at hs
      cases hs
      split
      · exact h.goto_other hr hord rfl (by simp [Pc.seg, hname]) (by simp [Pc.returned])
      · exact hcreate
  | create =>
    rw [hp] at hs
    simp only [hp] at hord
    cases hs
    split
    · exact h.openOrCreate hord (by rw [hp]; rfl)
    · exact h.goto_other hr hord rfl (by simp [Pc.seg]) (by simp [Pc.returned])
  | stat g =>
    have hc := hlate (by simp [hp])
    have hname := h.named r g (by rw [hp]; rfl)
    rw [hp] at hs
    cases hs
    split <;> exact h.goto_other hr hc rfl (by simp [Pc.seg, hname]) (by simp [Pc.returned])
  | truncate g =>
    have hc := hlate (by simp [hp])
    have hname := h.named r g (by rw [hp]; rfl)
    rw [hp] at hs
    cases hs
    split
    · have hsize := h.setSeg g { s.segs g with size := totalSize } rfl (fun _ => Nat.le_refl _) (h.uncleared g)
        fun hn => h.unused hn g
      exact hsize.goto_other hr hc rfl (by simp [Pc.seg, hname]) (by simp [Pc.returned])
    · exact h.goto_other hr hc rfl (by simp [Pc.seg]) (by simp [Pc.returned])
  | map g =>
    have hc := hlate (by simp [hp])
    have hname := h.named r g (by rw [hp]; rfl)
    rw [hp] at hs
    simp only [hp] at hord
    cases hs
    split
    · exact h.goto_other hr hc rfl (by simp [Pc.seg]) (by simp [Pc.returned])
    · next hok =>
      have hret := hord (by simpa using hok)
      exact (h.addUser hret r g).goto_other hr hc rfl (by simp [Pc.seg, hname]) fun _ => hret

theorem Inv.unbind (hp : s.pc creator = .unlink) : Inv creator jobId nodeId { s with name := none } := by
  have hfree : ∀ q g, (s.pc q).seg ≠ some g := by
    intro q g
    by_cases hq : q = creator
    · subst hq
      simp [hp, Pc.seg]
    · simp [h.first hp q hq, Pc.seg]
  exact { h with named := fun q g hg => absurd hg (hfree q g) }

/-- The creator returns after its last store. -/
theorem Inv.complete {g n : Nat} (hp : s.pc creator = .fill g n) (hf : (stores jobId nodeId)[n]? = none) :
    Inv creator jobId nodeId (s.giveBack creator g) := by
  have hn : (s.pc creator).returned = false := by rw [hp]; rfl
  have hname := h.named creator g (by rw [hp]; rfl)
  have hdone : Inv creator jobId nodeId (s.goto creator (.done g)) := by
    refine h.goto_creator hn s.segs (h.unused hn) h.uncleared (.done g) (by simp) (by simp)
      (by simp [Pc.seg, hname]) (by simp) ?_
    intro k hk
    obtain rfl := Pc.done.inj hk
    exact initialised_of_filled (h.filled g n hp) hf
  exact hdone.addUser (by simp [State.goto, Pc.returned]) creator g

theorem creator_step_inv (ok : Bool) {s' : State ι} (hs : step creator jobId nodeId s ⟨creator, ok⟩ = some s') :
    Inv creator jobId nodeId s' := by
  have running {p : Pc} (hp : s.pc creator = p) (hn : p.returned = false) : (s.pc creator).returned = false := hp ▸ hn
  simp only [step] at hs
  cases hp : s.pc creator with
  | attach => exact absurd hp h.leads
  | done g | failed =>
    rw [hp] at hs
    cases hs
  | unlink =>
    have hn := running hp rfl
    rw [hp] at hs
    cases hs
    split
    · exact (h.unbind hp).goto_call hn _ rfl (by simp [Pc.seg])
    · exact h.goto_call hn _ rfl (by simp [Pc.seg])
  | create =>
    have hn := running hp rfl
    have hc : s.pc creator ≠ .unlink := by simp [hp]
    rw [hp] at hs
    cases hs
    split
    · exact h.openOrCreate hc hn
    · exact h.goto_call hn _ rfl (by simp [Pc.seg])
  | stat g | map g =>
    have hn := running hp rfl
    have hname := h.named creator g (by rw [hp]; rfl)
    rw [hp] at hs
    cases hs
    split_ifs <;> exact h.goto_call hn _ rfl (by simp [Pc.seg, hname])
  | truncate g =>
    have hn := running hp rfl
    have hname := h.named creator g (by rw [hp]; rfl)
    rw [hp] at hs
    cases hs
    split
    · apply h.creator_writes hn g hname
      · exact h.unused hn g
      · exact h.uncleared g
      · exact Or.inl rfl
    · exact h.goto_call hn _ rfl (by simp [Pc.seg])
  | clear g =>
    have hn := running hp rfl
    have hname := h.named creator g (by rw [hp]; rfl)
    rw [hp] at hs
    cases hs
    split
    · exact h.goto_call hn _ rfl (by simp [Pc.seg])
    · next hsize =>
      apply h.creator_writes hn g hname
      · exact h.unused hn g
      · simp [h.uncleared g, h.unused hn g]
      · exact Or.inr ⟨0, rfl, Nat.le_of_not_lt hsize, rfl⟩
  | fill g n =>
    have hn := running hp rfl
    have hname := h.named creator g (by rw [hp]; rfl)
    rw [hp] at hs
    cases hf : (stores jobId nodeId)[n]? with
    | some f =>
      simp only [hf] at hs
      cases hs
      apply h.creator_writes hn g hname
      · exact h.unused hn g
      · exact h.uncleared g
      · exact Or.inr ⟨n + 1, rfl, filled_succ (h.filled g n hp) hf⟩
    | none =>
      simp only [hf] at hs
      cases hs
      exact h.complete hp hf

end

theorem reaches_inv {stale : Option (Nat × Image)}
    (h : Reaches (step creator jobId nodeId) (Ordered creator) (start creator stale) s) :
    Inv creator jobId nodeId s := by
  apply h.invariant (Inv creator jobId nodeId) (start_inv creator jobId nodeId stale)
  rintro t ⟨r, ok⟩ u ht hord hs
  by_cases hr : r = creator
  · subst hr
    exact creator_step_inv ht ok hs
  · exact other_step_inv ht hr ok hord hs

omit [DecidableEq ι] in
/-- Nobody has returned before the creator, and everyone has what the name is bound to. -/
theorem Inv.shared (h : Inv creator jobId nodeId s) : Shared jobId nodeId s := by
  have hname : ∀ r g, s.pc r = .done g → s.name = some g := fun r g hp => h.named r g (by rw [hp]; rfl)
  refine ⟨?_, ?_, h.uncleared⟩
  · intro r r' g g' hp hp'
    exact Option.some.inj ((hname r g hp).symm.trans (hname r' g' hp'))
  · intro r g hp
    cases hc : s.pc creator with
    | done k =>
      obtain rfl := Option.some.inj ((hname r g hp).symm.trans (hname creator k hc))
      exact h.ready g hc
    | _ =>
      have hwait := h.waiting (by rw [hc]; rfl) r
      rw [hp] at hwait
      cases hwait

/-- For any number of ranks, whatever an earlier job has left under the name,
and every interleaving and every outcome of the system calls in which no other
rank opens the name before the creator's `shm_unlink` or returns before the
creator: the ranks share one initialised segment that is not cleared any more. -/
theorem ranks_share_segment (creator : ι) (jobId nodeId : UInt32) (stale : Option (Nat × Image)) (s : State ι)
    (h : Reaches (step creator jobId nodeId) (Ordered creator) (start creator stale) s) :
    Shared jobId nodeId s :=
  (reaches_inv h).shared

/-- The next `n` steps of a rank, with successful system calls. -/
def steps (r : ι) (n : Nat) : List (Action ι) := List.replicate n ⟨r, true⟩

/-- The creator completes its call before the other rank begins. -/
theorem ranks_share_segment_pair :
    ∃ s : State Bool, Reaches (step true 7 0) (Ordered true) (start true none) s ∧
      s.pc true = .done 1 ∧ s.pc false = .done 1 ∧ Shared 7 0 s := by
  have hrun : (run (step true 7 0) (Ordered true) (start true none) (steps true 14 ++ steps false 3)).map
      (fun s => (s.pc true, s.pc false)) = some (.done 1, .done 1) := by decide +kernel
  obtain ⟨s, hs, hpc⟩ := Option.map_eq_some_iff.mp hrun
  obtain ⟨hcreator, hother⟩ := Prod.mk.inj hpc
  have hreach := reaches_of_run _ hs
  exact ⟨s, hreach, hcreator, hother, ranks_share_segment true 7 0 none s hreach⟩

/-- A rank finds no segment, creates one and returns; then the creator unlinks
the name and creates another. Both calls succeed, with two segments. -/
theorem early_rank_maps_other_segment :
    ∃ s : State Bool, run (step true 7 0) (fun _ _ => True) (start true none) (steps false 5 ++ steps true 14) =
        some s ∧
      s.pc false = .done 1 ∧ s.pc true = .done 2 ∧ ¬ Shared 7 0 s := by
  have hrun : (run (step true 7 0) (fun _ _ => True) (start true none) (steps false 5 ++ steps true 14)).map
      (fun s => (s.pc false, s.pc true)) = some (.done 1, .done 2) := by decide +kernel
  obtain ⟨s, hs, hpc⟩ := Option.map_eq_some_iff.mp hrun
  obtain ⟨hother, hcreator⟩ := Prod.mk.inj hpc
  refine ⟨s, hs, hother, hcreator, fun hshared => ?_⟩
  have hsame := hshared.same false true 1 2 hother hcreator
  cases hsame

end ShmAttach
