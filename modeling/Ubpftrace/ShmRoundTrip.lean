import Ubpftrace.MapSharing
import Ubpftrace.ShmItems

/-!
# The round trip of the handler table through JSON

The passes of the import fill free slots, one for each item, so that the table comes
back just if every handler does. Links come back after the programs that they need.
-/

namespace ShmJson

open HandlerTable
open HandlerTable.Shm
open JsonValue (Json ascii)
open NumberStrings (toStr stoi stoi_toStr)
open Runs (Reaches run reaches_of_run)

/-! ## Reachable tables -/

section Reachable

variable {c : Config} {s s' : Shm} {a : Op} {fd fd' : CInt} {h h' : Handler}

theorem eq_dropLink {refers : LinkHandler → Bool} (hne : dropLink refers h ≠ .unused) : dropLink refers h = h := by
  cases h with
  | link l =>
    simp only [dropLink] at hne ⊢
    split
    · next hrefers => exact absurd (if_pos hrefers) hne
    · rfl
  | _ => rfl

theorem handlers_clearIdAt (hs : s.slot fd = some h) :
    (s.clearIdAt fd).handlers = (s.handlers.map (dropLink (orphaned h fd))).set fd.toNat .unused := by
  have hkeep : s.handlers.map (dropLink fun _ => false) = s.handlers := by rw [dropLink_none, List.map_id]
  unfold clearIdAt
  rw [hs]
  cases h with
  | map m => exact (congrArg (List.set · _ _) (handlers_mapFree s m)).trans (congrArg (List.set · _ _) hkeep.symm)
  | perfEvent e => rfl
  | prog p => rfl
  | _ => exact congrArg (List.set · _ _) hkeep.symm

theorem handlers_store_map (c : Config) (s : Shm) (fd : CInt) (m : MapHandler) :
    ∃ m', (s.store c fd (.map m)).handlers = s.handlers.set fd.toNat (.map m') := by
  simp only [store]
  split
  · exact ⟨_, congrArg (List.set · _ _) (handlers_mapInit c s m)⟩
  · exact ⟨_, rfl⟩

/-- What an operation can write over a handler. -/
inductive Written (s : Shm) (a : Op) : Handler → Handler → Prop where
  | cleared (h : Handler) : Written s a h .unused
  | map (h : Handler) (m : MapHandler) : Written s a h (.map m)
  | made {h : Handler} (hmade : Made s a h) : Written s a .unused h
  | enable (e : PerfEventHandler) (enabled : Bool) :
      Written s a (.perfEvent e) (.perfEvent { e with enabled := enabled })

/-- Links are dropped, and one slot is written. -/
inductive Update (s : Shm) (a : Op) : List Handler → Prop where
  | none : Update s a s.handlers
  | write {fd : CInt} {h h' : Handler} (refers : LinkHandler → Bool) (hs : s.slot fd = some h) (hw : Written s a h h') :
      Update s a ((s.handlers.map (dropLink refers)).set fd.toNat h')

theorem update_put (hs : s.slot fd = some h) (hw : Written s a h h') : Update s a (s.put fd h').handlers := by
  have hkeep : s.handlers.map (dropLink fun _ => false) = s.handlers := by rw [dropLink_none, List.map_id]
  have hupdate := Update.write (fun _ => false) hs hw
  rwa [hkeep] at hupdate

theorem update_replace {m : MapHandler} (hs : s.slot fd = some h)
    (hset : s'.handlers = (s.clearIdAt fd).handlers.set fd.toNat (.map m)) : Update s a s'.handlers := by
  rw [hset, handlers_clearIdAt hs, List.set_set]
  exact .write _ hs (.map h m)

theorem update_store {m : MapHandler} (hs : s.slot fd = some h) :
    Update s a ((s.clearIdAt fd).store c fd (.map m)).handlers := by
  obtain ⟨m', hset⟩ := handlers_store_map c (s.clearIdAt fd) fd m
  exact update_replace hs hset

theorem update_of_step (hstep : step c s a = some s') : Update s a s'.handlers := by
  cases step_move hstep with
  | stay => exact .none
  | install _ hfree hmade => exact update_put hfree (.made hmade)
  | enable hs => exact update_put hs (.enable _ _)
  | close hs =>
    rw [handlers_clearIdAt hs]
    exact .write _ hs (.cleared _)
  | addMap _ hs => exact update_store hs
  | fallback _ _ hnew _ => exact update_store hnew
  | share _ _ hnew _ _ => exact update_replace hnew (by rw [put, handlers_incMapRefcount])

theorem Update.length {handlers : List Handler} (hu : Update s a handlers) : handlers.length = s.handlers.length := by
  cases hu with
  | none => rfl
  | write => rw [List.length_set, List.length_map]

/-- What the export and the import need to know of a handler in the table. -/
structure Regular (i : Nat) (h : Handler) : Prop where
  small : i < 2 ^ 31
  typed : ∀ e, h = .perfEvent e → WellTyped e

def AllRegular (handlers : List Handler) : Prop := ∀ i h, handlers[i]? = some h → h ≠ .unused → Regular i h

theorem AllRegular.written (hr : AllRegular s.handlers) (hs : s.slot fd = some h) (hw : Written s a h h') :
    Regular fd.toNat h' := by
  refine ⟨lt_of_slot hs, ?_⟩
  rintro e rfl
  cases hw with
  | made hmade => exact hmade
  | enable e' enabled => exact (hr fd.toNat _ (slot_eq_some hs).2 (by simp)).typed e' rfl

theorem AllRegular.update {handlers : List Handler} (hr : AllRegular s.handlers) (hu : Update s a handlers) :
    AllRegular handlers := by
  cases hu with
  | none => exact hr
  | @write fd h h' refers hs hw =>
    intro i h'' hget hne
    by_cases heq : fd.toNat = i
    · obtain ⟨hlt, hself⟩ := List.getElem?_eq_some_iff.mp hget
      obtain rfl : h' = h'' := by
        rw [← hself]
        simp [heq]
      exact heq ▸ hr.written hs hw
    · rw [List.getElem?_set_ne heq, List.getElem?_map] at hget
      obtain ⟨h'', hold, rfl⟩ := Option.map_eq_some_iff.mp hget
      have hsame := eq_dropLink hne
      rw [hsame] at hne ⊢
      exact hr i h'' hold hne

theorem regular_of_reaches {ok : Shm → Op → Prop} {n : Nat} (hr : Reaches (step c) ok (create n) s) :
    AllRegular s.handlers := by
  refine hr.invariant (AllRegular ·.handlers) (fun i h hget hne => ?_) fun _ _ _ ht _ hstep =>
    ht.update (update_of_step hstep)
  exact absurd (List.eq_of_mem_replicate (List.mem_of_getElem? hget)) hne

end Reachable

/-! ## The passes -/

section Passes

variable {c : Config} {env : Env} {t t' : Shm}

abbrev Entry := CInt × Handler

def toItem (p : Entry) : CInt × Json := (p.1, handlerToJson p.2)

/-- The handler is there as the import makes it. -/
def Landed (env : Env) (t : Shm) (p : Entry) : Prop :=
  ∃ h, imported (env.found p.1) p.1 p.2 = some h ∧ ∃ h', t.slot p.1 = some h' ∧ SameKind h h'

/-- The import stopped at the handler. -/
def Missing (env : Env) (t : Shm) (p : Entry) : Prop :=
  imported (env.found p.1) p.1 p.2 = none ∧ t.slot p.1 = some .unused

/-- An entry that can be imported into the table. -/
structure Ready (t : Shm) (p : Entry) : Prop where
  free : t.slot p.1 = some .unused
  used : p.2 ≠ .unused
  typed : ∀ e, p.2 = .perfEvent e → WellTyped e
  prog : ∀ l, p.2 = .link l → t.isProgFd l.progId

theorem Ready.fill {p q : Entry} {h : Handler} (hp : Ready t p) (hq : t.slot q.1 = some .unused) (hne : p.1 ≠ q.1)
    (hf : Filled t t' q.1 h) : Ready t' p where
  free := (hf.other _ hne).trans hp.free
  used := hp.used
  typed := hp.typed
  prog l hl := by
    obtain ⟨prog, hprog⟩ := isProgFd_iff.mp (hp.prog l hl)
    have hfd : l.progId ≠ q.1 := by
      intro heq
      rw [heq, hq] at hprog
      cases hprog
    exact isProgFd_iff.mpr ⟨prog, (hf.other _ hfd).trans hprog⟩

/-- The result of a pass. -/
structure Passed (env : Env) (t : Shm) (entries : List Entry) (ending : Ending) (t' : Shm) : Prop where
  other : ∀ fd, (∀ p ∈ entries, fd ≠ p.1) → t'.slot fd = t.slot fd
  landed : ending = .done → ∀ p ∈ entries, Landed env t' p
  missing : ending ≠ .done → ∃ p ∈ entries, Missing env t' p

theorem importItems_passed (c : Config) (env : Env) (entries : List Entry) (hready : ∀ p ∈ entries, Ready t p)
    (hdistinct : entries.Pairwise fun p q => p.1 ≠ q.1) :
    ∃ ending t', importItems c env (entries.map toItem) t = some (ending, t') ∧ Passed env t entries ending t' := by
  induction entries generalizing t with
  | nil => exact ⟨.done, t, rfl, fun _ _ => rfl, fun _ => by simp, fun hne => absurd rfl hne⟩
  | cons p entries ih =>
    obtain ⟨hfirst, hrest⟩ := List.pairwise_cons.mp hdistinct
    have hp := hready p List.mem_cons_self
    have hlanding : Landing c t p.1 (importHandler env (handlerToJson p.2) p.1) (imported (env.found p.1) p.1 p.2) :=
      landing hp.free hp.used hp.typed hp.prog
    rw [List.map_cons, toItem, importItems]
    generalize hmade : imported (env.found p.1) p.1 p.2 = made at hlanding
    cases hlanding with
    | @filled h t₁ hend hrun hfilled =>
      have hready₁ : ∀ q ∈ entries, Ready t₁ q := fun q hq =>
        (hready q (List.mem_cons_of_mem _ hq)).fill hp.free (hfirst q hq).symm hfilled
      obtain ⟨ending, t', himport, hpassed⟩ := ih hready₁ hrest
      have hself : t'.slot p.1 = t₁.slot p.1 := hpassed.other p.1 fun q hq => hfirst q hq
      refine ⟨ending, t', ?_, ?_, ?_, ?_⟩
      · rw [hrun, Option.bind_some, if_pos hend, himport]
      · intro fd hfd
        rw [hpassed.other fd fun q hq => hfd q (List.mem_cons_of_mem _ hq), hfilled.other fd (hfd p List.mem_cons_self)]
      · intro hdone q hq
        obtain rfl | hq := List.mem_cons.mp hq
        · obtain ⟨h', hslot, hkind⟩ := hfilled.self
          exact ⟨h, hmade, h', hself.trans hslot, hkind⟩
        · exact hpassed.landed hdone q hq
      · intro hne
        obtain ⟨q, hq, hmissing⟩ := hpassed.missing hne
        exact ⟨q, List.mem_cons_of_mem _ hq, hmissing⟩
    | stopped hend hops =>
      refine ⟨_, t, ?_, fun _ _ => rfl, fun hdone => absurd hdone hend,
        fun _ => ⟨p, List.mem_cons_self, hmade, hp.free⟩⟩
      rw [hops, runOps, Option.bind_some, if_neg hend]

end Passes

/-! ## The entries of a table -/

section Entries

variable {s : Shm}

def entries (s : Shm) : List Entry := (allocated s).map fun p => (BitVec.ofNat 32 p.1, p.2)

/-- The entries in the order of the import. -/
def sortedEntries (s : Shm) : List Entry := (entries s).insertionSort fun p q => p.1.toInt ≤ q.1.toInt

theorem mem_allocated {i : Nat} {h : Handler} : (i, h) ∈ allocated s ↔ s.handlers[i]? = some h ∧ h ≠ .unused := by
  simp only [allocated, List.mem_filterMap, Prod.exists, List.mk_mem_zipIdx_iff_getElem?]
  constructor
  · rintro ⟨h', i', hget, hsome⟩
    split at hsome
    · cases hsome
    · next hne =>
      cases hsome
      exact ⟨hget, hne⟩
  · rintro ⟨hget, hne⟩
    exact ⟨h, i, hget, if_neg hne⟩

theorem mem_sortedEntries (hr : AllRegular s.handlers) {p : Entry} :
    p ∈ sortedEntries s ↔ s.slot p.1 = some p.2 ∧ p.2 ≠ .unused := by
  rw [sortedEntries, List.mem_insertionSort, entries, List.mem_map]
  constructor
  · rintro ⟨⟨i, h⟩, hmem, rfl⟩
    obtain ⟨hget, hne⟩ := mem_allocated.mp hmem
    exact ⟨(slot_ofNat (hr i h hget hne).small).trans hget, hne⟩
  · rintro ⟨hs, hne⟩
    refine ⟨(p.1.toNat, p.2), mem_allocated.mpr ⟨(slot_eq_some hs).2, hne⟩, ?_⟩
    rw [BitVec.ofNat_toNat, BitVec.setWidth_eq]

theorem allocated_distinct (s : Shm) : (allocated s).Pairwise fun p q => p.1 ≠ q.1 := by
  have hnodup : s.handlers.zipIdx.Pairwise fun p q => p.2 ≠ q.2 :=
    List.pairwise_map.mp (by rw [List.zipIdx_map_snd]; exact List.nodup_range')
  refine hnodup.filterMap _ ?_
  rintro ⟨h, i⟩ ⟨h', i'⟩ hne p hp q hq
  split at hp
  · cases hp
  · split at hq
    · cases hq
    · cases hp
      cases hq
      exact hne

theorem sortedEntries_distinct (hr : AllRegular s.handlers) : (sortedEntries s).Pairwise fun p q => p.1 ≠ q.1 := by
  refine (List.perm_insertionSort _ _).symm.pairwise ?_ fun hne => hne.symm
  rw [entries, List.pairwise_map]
  refine (allocated_distinct s).imp_of_mem ?_
  rintro ⟨i, h⟩ ⟨i', h'⟩ hp hq hne heq
  obtain ⟨hget, hused⟩ := mem_allocated.mp hp
  obtain ⟨hget', hused'⟩ := mem_allocated.mp hq
  have hi := (hr i h hget hused).small
  have hi' := (hr i' h' hget' hused').small
  have hnat := congrArg BitVec.toNat heq
  simp only [BitVec.toNat_ofNat] at hnat
  exact hne (by omega)

end Entries

/-! ## Export and import -/

section Tables

variable {c : Config} {env : Env} {s t : Shm} {m : Nat}

theorem mapM_of_all {α β : Type} {f : α → Option β} {g : α → β} {l : List α} (hf : ∀ a ∈ l, f a = some (g a)) :
    l.mapM f = some (l.map g) := by
  induction l with
  | nil => rfl
  | cons a l ih =>
    rw [List.mapM_cons, hf a List.mem_cons_self, ih fun b hb => hf b (List.mem_cons_of_mem _ hb)]
    rfl

def document (s : Shm) : Document := (allocated s).map fun p => (toStr p.1, handlerToJson p.2)

theorem sortedItems_document (hr : AllRegular s.handlers) :
    sortedItems (document s) = some ((sortedEntries s).map toItem) := by
  have hread : (document s).mapM (fun f => (stoi f.1).map fun fd => (BitVec.ofInt 32 fd, f.2)) =
      some ((entries s).map toItem) := by
    rw [document, List.mapM_map, entries, List.map_map]
    apply mapM_of_all
    rintro ⟨i, h⟩ hmem
    obtain ⟨hget, hne⟩ := mem_allocated.mp hmem
    simp only [Function.comp_apply, stoi_toStr (hr i h hget hne).small, Option.map_some, BitVec.ofInt_natCast, toItem]
  have hsort := List.map_insertionSort (fun p q : Entry => p.1.toInt ≤ q.1.toInt)
    (fun a b : CInt × Json => a.1.toInt ≤ b.1.toInt) toItem (entries s) fun _ _ _ _ => Iff.rfl
  rw [sortedItems, hread, Option.map_some, sortedEntries, hsort]

theorem clearAll_create (m : Nat) : clearAll (create m) = create m := by
  have hfree : ∀ fd, (create m).isAllocated fd = false := by
    intro fd
    unfold isAllocated
    cases hs : (create m).slot fd with
    | none => rfl
    | some h => rw [create_slot hs]
  have hfold : ∀ l : List Nat, l.foldl (fun s i => if s.isAllocated (BitVec.ofNat 32 i) then
      s.clearIdAt (BitVec.ofNat 32 i) else s) (create m) = create m := by
    intro l
    induction l with
    | nil => rfl
    | cons i l ih =>
      rw [List.foldl_cons, hfree, if_neg (by simp)]
      exact ih
  exact hfold _

def Entry.isLink (p : Entry) : Bool :=
  match p.2 with
  | .link _ => true
  | _ => false

theorem isLinkItem_toItem (p : Entry) : isLinkItem (toItem p) = Entry.isLink p := by
  obtain ⟨fd, h⟩ := p
  cases h <;> rfl

theorem filter_toItem (s : Shm) (keep : Bool → Bool) :
    ((sortedEntries s).map toItem).filter (fun i => keep (isLinkItem i)) =
      ((sortedEntries s).filter fun p => keep (Entry.isLink p)).map toItem := by
  rw [List.filter_map]
  congr 2
  funext p
  exact congrArg keep (isLinkItem_toItem p)

theorem create_slot_of_lt {fd : CInt} (hpos : 0 ≤ fd.toInt) (hlt : fd.toNat < m) :
    (create m).slot fd = some .unused := by
  rw [slot, if_neg (by omega), create, List.getElem?_replicate, if_pos hlt]

/-- What an import leaves: either every handler is there as the import makes it, and nothing
else, or one is missing. -/
def Outcome (env : Env) (m : Nat) (entries : List Entry) (t : Shm) : Prop :=
  (∀ p ∈ entries, Landed env t p) ∧ (∀ fd, (∀ p ∈ entries, fd ≠ p.1) → t.slot fd = (create m).slot fd) ∨
    ∃ p ∈ entries, Missing env t p

theorem isProgFd_of_landed {fd : CInt} {p : ProgHandler} (hl : Landed env t (fd, .prog p)) : t.isProgFd fd := by
  obtain ⟨h, himported, h', hslot, hkind⟩ := hl
  simp only [imported] at himported
  split at himported
  · cases himported
    obtain rfl : h' = _ := hkind
    exact isProgFd_iff.mpr ⟨_, hslot⟩
  · cases himported

def others (s : Shm) : List Entry := (sortedEntries s).filter fun p => !Entry.isLink p

def links (s : Shm) : List Entry := (sortedEntries s).filter Entry.isLink

theorem mem_others_or_links {p : Entry} : p ∈ sortedEntries s ↔ p ∈ others s ∨ p ∈ links s := by
  simp only [others, links, List.mem_filter]
  cases Entry.isLink p <;> simp

section

variable (hr : AllRegular s.handlers)
include hr

theorem others_apart {p q : Entry} (hp : p ∈ others s) (hq : q ∈ links s) : p.1 ≠ q.1 := by
  intro heq
  obtain ⟨hp, hkind⟩ := List.mem_filter.mp hp
  obtain ⟨hq, hlink⟩ := List.mem_filter.mp hq
  have hsame : p.2 = q.2 :=
    Option.some.inj (((mem_sortedEntries hr).mp hp).1.symm.trans (heq ▸ ((mem_sortedEntries hr).mp hq).1))
  rw [Entry.isLink, ← hsame] at hlink
  rw [Entry.isLink, hlink] at hkind
  cases hkind

theorem ready_other (hfits : ∀ p ∈ sortedEntries s, p.1.toNat < m) {p : Entry}
    (hp : p ∈ others s) : Ready (create m) p := by
  obtain ⟨hp, hkind⟩ := List.mem_filter.mp hp
  obtain ⟨hs, hne⟩ := (mem_sortedEntries hr).mp hp
  obtain ⟨hpos, hget⟩ := slot_eq_some hs
  refine ⟨create_slot_of_lt hpos (hfits p hp), hne, (hr _ _ hget hne).typed, fun l hl => ?_⟩
  rw [Entry.isLink, hl] at hkind
  cases hkind

/-- After the first pass the programs of the links are there. -/
theorem ready_link (hprogs : progRef.Holds s)
    (hfits : ∀ p ∈ sortedEntries s, p.1.toNat < m) (hpassed : Passed env (create m) (others s) .done t) {p : Entry}
    (hp : p ∈ links s) : Ready t p := by
  obtain ⟨hmem, hkind⟩ := List.mem_filter.mp hp
  obtain ⟨hs, hne⟩ := (mem_sortedEntries hr).mp hmem
  obtain ⟨hpos, hget⟩ := slot_eq_some hs
  refine ⟨?_, hne, (hr _ _ hget hne).typed, fun l hl => ?_⟩
  · rw [hpassed.other p.1 fun q hq => (others_apart hr hq hp).symm]
    exact create_slot_of_lt hpos (hfits p hmem)
  · obtain ⟨prog, hprog⟩ := isProgFd_iff.mp (progRef_good.mp (hprogs p.1 l (hl ▸ hs) rfl))
    have hother : (l.progId, .prog prog) ∈ others s :=
      List.mem_filter.mpr ⟨(mem_sortedEntries hr).mpr ⟨hprog, by simp⟩, rfl⟩
    exact isProgFd_of_landed (hpassed.landed rfl _ hother)

theorem importShm_document :
    importShm c env (create m) (document s) = (importItems c env ((others s).map toItem) (create m)).bind fun r =>
      if r.1 = .done then importItems c env ((links s).map toItem) r.2 else some r := by
  have hothers : ((sortedEntries s).map toItem).filter (!isLinkItem ·) = (others s).map toItem :=
    filter_toItem s Bool.not
  have hlinks : ((sortedEntries s).map toItem).filter isLinkItem = (links s).map toItem := filter_toItem s id
  rw [importShm, sortedItems_document hr]
  simp only [clearAll_create, hothers, hlinks]

end

theorem importShm_outcome (c : Config) (env : Env) (hr : AllRegular s.handlers) (hprogs : progRef.Holds s)
    (hfits : ∀ p ∈ sortedEntries s, p.1.toNat < m) :
    ∃ ending t, importShm c env (create m) (document s) = some (ending, t) ∧ Outcome env m (sortedEntries s) t := by
  have hdistinct := sortedEntries_distinct hr
  obtain ⟨ending₁, t₁, himport₁, hpassed₁⟩ :=
    importItems_passed c env (others s) (fun p hp => ready_other hr hfits hp) (hdistinct.filter _)
  rw [importShm_document hr, himport₁, Option.bind_some]
  by_cases hdone : ending₁ = .done
  · obtain rfl := hdone
    obtain ⟨ending₂, t₂, himport₂, hpassed₂⟩ :=
      importItems_passed c env (links s) (fun p hp => ready_link hr hprogs hfits hpassed₁ hp) (hdistinct.filter _)
    refine ⟨ending₂, t₂, by rw [if_pos rfl, himport₂], ?_⟩
    by_cases hdone₂ : ending₂ = .done
    · refine .inl ⟨fun p hp => ?_, fun fd hfd => ?_⟩
      · obtain hp | hp := mem_others_or_links.mp hp
        · obtain ⟨h, himported, h', hslot, hkind⟩ := hpassed₁.landed rfl p hp
          have hkept := hpassed₂.other p.1 fun q hq => others_apart hr hp hq
          exact ⟨h, himported, h', hkept.trans hslot, hkind⟩
        · exact hpassed₂.landed hdone₂ p hp
      · rw [hpassed₂.other fd fun p hp => hfd p (mem_others_or_links.mpr (.inr hp)),
          hpassed₁.other fd fun p hp => hfd p (mem_others_or_links.mpr (.inl hp))]
    · obtain ⟨p, hp, hmissing⟩ := hpassed₂.missing hdone₂
      exact .inr ⟨p, mem_others_or_links.mpr (.inr hp), hmissing⟩
  · obtain ⟨p, hp, hmissing⟩ := hpassed₁.missing hdone
    exact ⟨ending₁, t₁, by rw [if_neg hdone], .inr ⟨p, mem_others_or_links.mpr (.inl hp), hmissing⟩⟩

theorem length_runOps {ops : List Op} (hrun : runOps c s ops = some t) : t.handlers.length = s.handlers.length := by
  induction ops generalizing s with
  | nil =>
    cases hrun
    rfl
  | cons op ops ih =>
    obtain ⟨s', hstep, hrest⟩ := Option.bind_eq_some_iff.mp hrun
    rw [ih hrest, (update_of_step hstep).length]

theorem length_importItems {items : List (CInt × Json)} {ending : Ending}
    (himport : importItems c env items s = some (ending, t)) : t.handlers.length = s.handlers.length := by
  induction items generalizing s with
  | nil =>
    cases himport
    rfl
  | cons item items ih =>
    obtain ⟨s', hrun, hrest⟩ := Option.bind_eq_some_iff.mp himport
    split at hrest
    · rw [ih hrest, length_runOps hrun]
    · cases hrest
      exact length_runOps hrun

theorem length_roundTrip (hr : AllRegular s.handlers) (hrt : roundTrip c env s (create m) = some t) :
    t.handlers.length = m := by
  have hcreate : (create m).handlers.length = m := List.length_replicate
  rw [roundTrip] at hrt
  split at hrt
  · cases hrt
    exact hcreate
  · next doc hdoc =>
    have hdocument : document s = doc := by
      rw [exportShm] at hdoc
      split at hdoc
      · exact Option.some.inj hdoc
      · cases hdoc
    rw [← hdocument, importShm_document hr] at hrt
    obtain ⟨⟨ending, t'⟩, himport, rfl⟩ := Option.map_eq_some_iff.mp hrt
    obtain ⟨⟨ending₁, t₁⟩, himport₁, hrest⟩ := Option.bind_eq_some_iff.mp himport
    split at hrest
    · rw [length_importItems hrest, length_importItems himport₁, hcreate]
    · cases hrest
      rw [length_importItems himport₁, hcreate]

theorem document_dumps : ((document s).all fun f => f.2.dumps) ↔ ∀ p ∈ sortedEntries s, (handlerToJson p.2).dumps := by
  simp only [document, List.all_eq_true, sortedEntries, List.mem_insertionSort, entries, List.forall_mem_map]

theorem roundTrip_dumped (hdump : ∀ p ∈ sortedEntries s, (handlerToJson p.2).dumps) :
    roundTrip c env s t = (importShm c env t (document s)).map Prod.snd := by
  have hexport : exportShm s = some (document s) := if_pos (document_dumps.mpr hdump)
  rw [roundTrip, hexport]

theorem roundTrip_thrown (hdump : ¬ ∀ p ∈ sortedEntries s, (handlerToJson p.2).dumps) :
    roundTrip c env s t = some t := by
  have hexport : exportShm s = none := if_neg (mt document_dumps.mp hdump)
  rw [roundTrip, hexport]

theorem eq_unused_of_same {h : Handler} (hsame : SameHandler h .unused) : h = .unused := by
  cases h with
  | unused => rfl
  | _ => cases hsame

theorem handlerAt_of_slot {fd : CInt} {h : Handler} (hs : s.slot fd = some h) : handlerAt s fd = h := by
  rw [handlerAt, hs, Option.getD_some]

theorem not_sameTable {fd : CInt} {h : Handler} (hs : s.slot fd = some h) (hne : h ≠ .unused)
    (ht : handlerAt t fd = .unused) : ¬ SameTable s t := by
  intro hsame
  have hfd := hsame fd
  rw [handlerAt_of_slot hs, ht] at hfd
  exact hne (eq_unused_of_same hfd)

theorem handlerAt_create (m : Nat) (fd : CInt) : handlerAt (create m) fd = .unused := by
  rw [handlerAt]
  cases hs : (create m).slot fd with
  | none => rfl
  | some h => exact create_slot hs

theorem Outcome.sameTable_iff (hr : AllRegular s.handlers) (hdump : ∀ p ∈ sortedEntries s, (handlerToJson p.2).dumps)
    (ho : Outcome env m (sortedEntries s) t) :
    SameTable s t ↔ ∀ p ∈ sortedEntries s, Restored (env.found p.1) p.1 p.2 := by
  obtain ⟨hlanded, hother⟩ | ⟨p, hp, hnone, hfree⟩ := ho
  · constructor
    · intro hsame p hp
      obtain ⟨h, himported, h', hslot, hkind⟩ := hlanded p hp
      have hfd := hsame p.1
      rw [handlerAt_of_slot ((mem_sortedEntries hr).mp hp).1, handlerAt_of_slot hslot, sameHandler_congr hkind] at hfd
      exact ⟨hdump p hp, h, himported, hfd⟩
    · intro hall fd
      by_cases hin : ∃ h, (fd, h) ∈ sortedEntries s
      · obtain ⟨h, hp⟩ := hin
        obtain ⟨h₁, himported, h', hslot, hkind⟩ := hlanded _ hp
        obtain ⟨_, h₂, himported', hsame⟩ := hall _ hp
        obtain rfl := Option.some.inj (himported.symm.trans himported')
        rw [handlerAt_of_slot ((mem_sortedEntries hr).mp hp).1, handlerAt_of_slot hslot, sameHandler_congr hkind]
        exact hsame
      · have hs : handlerAt s fd = .unused := by
          by_contra hne
          rw [handlerAt] at hne
          cases hslot : s.slot fd with
          | none => exact hne (by rw [hslot]; rfl)
          | some h =>
            rw [hslot] at hne
            exact hin ⟨h, (mem_sortedEntries hr).mpr ⟨hslot, hne⟩⟩
        have ht : handlerAt t fd = .unused := by
          rw [handlerAt, hother fd fun p hp heq => hin ⟨p.2, heq ▸ hp⟩]
          exact handlerAt_create m fd
        rw [hs, ht]
        trivial
  · obtain ⟨hs, hne⟩ := (mem_sortedEntries hr).mp hp
    refine iff_of_false (not_sameTable hs hne (handlerAt_of_slot hfree)) fun hall => ?_
    exact not_restored hnone (hall p hp)

end Tables

/-- An export and an import into an empty memory give the same table exactly if every
handler of the table survives them and has a slot in the empty memory. -/
theorem round_trip_iff_survives (c c' : Config) (env : Env) (n m : Nat) (s : Shm)
    (h : Reaches (step c) (fun _ _ => True) (create n) s) :
    (∃ t, roundTrip c' env s (create m) = some t ∧ SameTable s t) ↔
      ∀ fd h, s.slot fd = some h → h ≠ .unused → fd.toNat < m ∧ Survives (env.found fd) h := by
  have hr := regular_of_reaches h
  have hrestored : ∀ p ∈ sortedEntries s, (Restored (env.found p.1) p.1 p.2 ↔ Survives (env.found p.1) p.2) := by
    intro p hp
    obtain ⟨hs, hne⟩ := (mem_sortedEntries hr).mp hp
    exact restored_iff hne (hr _ _ (slot_eq_some hs).2 hne).typed
  have hentries : (∀ fd h, s.slot fd = some h → h ≠ .unused → fd.toNat < m ∧ Survives (env.found fd) h) ↔
      ∀ p ∈ sortedEntries s, p.1.toNat < m ∧ Restored (env.found p.1) p.1 p.2 := by
    constructor
    · intro hall p hp
      obtain ⟨hs, hne⟩ := (mem_sortedEntries hr).mp hp
      obtain ⟨hlt, hsurvives⟩ := hall _ _ hs hne
      exact ⟨hlt, (hrestored p hp).mpr hsurvives⟩
    · intro hall fd h hs hne
      have hp : (fd, h) ∈ sortedEntries s := (mem_sortedEntries hr).mpr ⟨hs, hne⟩
      exact ⟨(hall _ hp).1, (hrestored _ hp).mp (hall _ hp).2⟩
  rw [hentries]
  by_cases hfits : ∀ p ∈ sortedEntries s, p.1.toNat < m
  · by_cases hdump : ∀ p ∈ sortedEntries s, (handlerToJson p.2).dumps
    · obtain ⟨ending, t, himport, houtcome⟩ := importShm_outcome c' env hr (progRef_reaches h) hfits
      rw [roundTrip_dumped hdump, himport]
      simp only [Option.map_some, Option.some.injEq, exists_eq_left', houtcome.sameTable_iff hr hdump]
      exact forall₂_congr fun p hp => (and_iff_right (hfits p hp)).symm
    · -- nothing is imported, and the handler that cannot be dumped is lost
      rw [roundTrip_thrown hdump]
      simp only [not_forall] at hdump
      obtain ⟨p, hp, hno⟩ := hdump
      obtain ⟨hs, hne⟩ := (mem_sortedEntries hr).mp hp
      refine iff_of_false ?_ fun hall => hno (hall p hp).2.1
      rintro ⟨t, hrt, hsame⟩
      cases hrt
      exact not_sameTable hs hne (handlerAt_create m p.1) hsame
  · simp only [not_forall] at hfits
    obtain ⟨p, hp, hout⟩ := hfits
    obtain ⟨hs, hne⟩ := (mem_sortedEntries hr).mp hp
    refine iff_of_false ?_ fun hall => hout (hall p hp).1
    rintro ⟨t, hrt, hsame⟩
    have hlen := length_roundTrip hr hrt
    have hnone : handlerAt t p.1 = .unused := by
      rw [handlerAt, slot, if_neg (by have := (slot_eq_some hs).1; omega), List.getElem?_eq_none (by omega)]
      rfl
    exact not_sameTable hs hne hnone hsame

def tableAfter (ops : List Op) : Option Shm := run (step defaultConfig) (fun _ _ => True) (create 8) ops

/-- A program, a uprobe, the link between them, and a map. -/
def plainTable : List Op :=
  [.addBpfProg 3 0 [0x95] noName 0 0, .addUprobe 4 0 (-1) noName 16 false 0, .attachPerfToBpf 4 3 none 5,
    .addBpfMap 6 0 noName { type := MapType.HASH, keySize := 4, valueSize := 8, maxEnts := 16 }]

theorem plain_table_comes_back : ∃ s t, tableAfter plainTable = some s ∧
    s.slot 5 = some (.link ⟨none, 3, 4, none⟩) ∧ roundTrip defaultConfig plainEnv s (create 8) = some t ∧
      SameTable s t := by
  have hrun : (tableAfter plainTable).map (·.handlers) = some [.unused, .unused, .unused, .prog ⟨0, [0x95], noName⟩,
      .perfEvent ⟨EventType.UPROBE, false, .uprobe 16 (-1) 0 noName⟩, .link ⟨none, 3, 4, none⟩,
      .map ⟨6, noName, { type := MapType.HASH, keySize := 4, valueSize := 8, maxEnts := 16 }, some 0, some 0⟩,
      .unused] := by decide +kernel
  obtain ⟨s, hs, hhandlers⟩ := Option.map_eq_some_iff.mp hrun
  have hname : JsonValue.validUtf8 noName.bytes := JsonValue.validUtf8_of_ascii (by simp [noName])
  have hsurvives : ∀ fd h, s.slot fd = some h → h ≠ .unused → fd.toNat < 8 ∧ Survives (plainEnv.found fd) h := by
    intro fd h hslot hne
    have hget := (slot_eq_some hslot).2
    have hmem := List.mem_of_getElem? hget
    have hlt := (List.getElem?_eq_some_iff.mp hget).1
    rw [hhandlers] at hmem hlt
    refine ⟨hlt, ?_⟩
    simp only [List.mem_cons, List.not_mem_nil, or_false, hne, false_or] at hmem
    obtain rfl | rfl | rfl | rfl := hmem
    · exact ⟨rfl, by simp, hname⟩
    · exact ⟨hname, rfl, .inl ⟨.inl rfl, rfl⟩⟩
    · rfl
    · exact ⟨rfl, hname⟩
  obtain ⟨t, ht, hsame⟩ :=
    (round_trip_iff_survives defaultConfig defaultConfig plainEnv 8 8 s (reaches_of_run _ hs)).mpr hsurvives
  exact ⟨s, t, hs, by rw [slot, hhandlers]; rfl, ht, hsame⟩

/-- The link is attached with the cookie 7. -/
def cookieTable : List Op :=
  [.addBpfProg 3 0 [0x95] noName 0 0, .addUprobe 4 0 (-1) noName 16 false 0, .attachPerfToBpf 4 3 (some 7) 5]

theorem attach_cookie_lost : ∃ s t, tableAfter cookieTable = some s ∧
    roundTrip defaultConfig plainEnv s (create 8) = some t ∧ s.slot 5 = some (.link ⟨none, 3, 4, some 7⟩) ∧
    t.slot 5 = some (.link ⟨some ⟨3, 4, 0, 0⟩, 3, 4, none⟩) ∧ ¬ SameTable s t := by
  have hrun : ((tableAfter cookieTable).bind fun s => (roundTrip defaultConfig plainEnv s (create 8)).map fun t =>
      (s.slot 5, t.slot 5)) =
        some (some (.link ⟨none, 3, 4, some 7⟩), some (.link ⟨some ⟨3, 4, 0, 0⟩, 3, 4, none⟩)) := by
    decide +kernel
  obtain ⟨s, hs, hmap⟩ := Option.bind_eq_some_iff.mp hrun
  obtain ⟨t, ht, hslots⟩ := Option.map_eq_some_iff.mp hmap
  obtain ⟨hold, hnew⟩ := Prod.mk.inj hslots
  refine ⟨s, t, hs, ht, hold, hnew, fun hsame => ?_⟩
  have hfd := hsame 5
  rw [handlerAt_of_slot hold, handlerAt_of_slot hnew] at hfd
  cases hfd.2.2

/-! ## Clearing the table -/

/-- Having come to the fd `k`, the loop of `clear_all` has left nothing below it. -/
structure Cleared (c : Config) (s : Shm) (k : Nat) (t : Shm) : Prop where
  externals : t.externals = s.externals
  accounts : s.externals = [] → Accounts c t
  used : ∀ j h, t.handlers[j]? = some h → h ≠ .unused → k ≤ j ∧ s.handlers[j]? = some h

variable {c : Config} {s t : Shm} {k : Nat}

theorem isAllocated_iff {fd : CInt} : t.isAllocated fd = true ↔ ∃ h, t.slot fd = some h ∧ h ≠ .unused := by
  unfold isAllocated
  cases t.slot fd with
  | none => simp
  | some h => cases h <;> simp

theorem Cleared.next (hA : Accounts c s) (ht : Cleared c s k t) : Cleared c s (k + 1)
    (if t.isAllocated (BitVec.ofNat 32 k) then t.clearIdAt (BitVec.ofNat 32 k) else t) := by
  have hslot :
    ∀ {u : Shm} {h}, s.handlers[k]? = some h → h ≠ .unused → u.slot (BitVec.ofNat 32 k) = u.handlers[k]? := by
    intro u h hk hne
    have := (hA.entered k h hk).small hne
    exact slot_ofNat (by omega)
  by_cases hall : t.isAllocated (BitVec.ofNat 32 k) = true
  · rw [if_pos hall]
    obtain ⟨h, hs, -⟩ := isAllocated_iff.mp hall
    refine ⟨(externals_clearIdAt t _).trans ht.externals, fun hnone => ?_, fun j g hj hne => ?_⟩
    · refine (ht.accounts hnone).clear hs (Option.eq_none_iff_forall_ne_some.mpr fun e he => ?_)
      have hcount := (ht.accounts hnone).external e
      rw [ht.externals, hnone] at hcount
      exact List.countP_eq_zero.mp hcount.symm h (mem_of_slot hs) (by simp [he])
    · obtain ⟨hle, hsj⟩ := ht.used j g (getElem?_clearIdAt hs hj hne) hne
      refine ⟨?_, hsj⟩
      obtain rfl | hlt := hle.eq_or_lt
      · rw [← hslot hsj hne, slot_clearIdAt_self hs] at hj
        exact absurd (Option.some.inj hj).symm hne
      · exact hlt
  · rw [if_neg hall]
    refine ⟨ht.externals, ht.accounts, fun j g hj hne => ?_⟩
    obtain ⟨hle, hsj⟩ := ht.used j g hj hne
    refine ⟨?_, hsj⟩
    obtain rfl | hlt := hle.eq_or_lt
    · rw [← hslot hsj hne] at hj
      exact absurd (isAllocated_iff.mpr ⟨g, hj, hne⟩) hall
    · exact hlt

/-- After any regular run `clear_all` leaves every slot unused, and it leaves nothing in the memory exactly
if no map of a registered `alloc_map` is there. -/
theorem clearAll_leaves_nothing_iff (c : Config) (n : Nat) (s : Shm)
    (h : Reaches (step c) (HandlerTable.Regular c) (create n) s) :
    (∀ g ∈ (clearAll s).handlers, g = .unused) ∧
      ((∀ i, ¬ (clearAll s).Live i) ∧ (clearAll s).externals = [] ↔ s.externals = []) := by
  have hA : Accounts c s := h.invariant (Accounts c) (Accounts.create c n)
    fun t a u ht hok hstep => (ht.move (step_move hstep) hok).1
  have hcleared : ∀ k, Cleared c s k ((List.range k).foldl
      (fun s i => if s.isAllocated (BitVec.ofNat 32 i) then s.clearIdAt (BitVec.ofNat 32 i) else s) s) := by
    intro k
    induction k with
    | zero => exact ⟨rfl, fun _ => hA, fun j h hj _ => ⟨Nat.zero_le j, hj⟩⟩
    | succ k ih =>
      rw [List.range_succ, List.foldl_append]
      exact ih.next hA
  have hend : Cleared c s s.handlers.length (clearAll s) := hcleared _
  have hunused : ∀ g ∈ (clearAll s).handlers, g = .unused := by
    intro g hg
    by_contra hne
    obtain ⟨j, hj⟩ := List.getElem?_of_mem hg
    obtain ⟨hle, hsj⟩ := hend.used j g hj hne
    exact absurd (List.getElem?_eq_some_iff.mp hsj).1 (Nat.not_lt.mpr hle)
  refine ⟨hunused, fun hnothing => hend.externals ▸ hnothing.2,
    fun hnone => ⟨fun i hlive => ?_, hend.externals.trans hnone⟩⟩
  refine ((hend.accounts hnone).live_iff i).mp hlive |>.2 (List.countP_eq_zero.mpr fun g hg => ?_)
  rw [hunused g hg]
  nofun

/-- A map with two fds. -/
theorem clearAll_leaves_nothing_shared :
    ∃ s, Reaches (step defaultConfig) (HandlerTable.Regular defaultConfig) (create 8) s ∧
    s.impls = [true] ∧ (clearAll s).impls = [false] ∧ ∀ i, ¬ (clearAll s).Live i := by
  have hrun : (regularRun 8 [.addBpfMap 3 0 noName hashAttr, .dupBpfMap 3 4 0]).map
      (fun s => (s.impls, (clearAll s).impls, s.externals)) = some ([true], [false], []) := by decide +kernel
  obtain ⟨s, hs, hall⟩ := Option.map_eq_some_iff.mp hrun
  simp only [Prod.mk.injEq] at hall
  have h := reaches_of_run _ hs
  exact ⟨s, h, hall.1, hall.2.1, ((clearAll_leaves_nothing_iff defaultConfig 8 s h).2.mpr hall.2.2).1⟩

end ShmJson
