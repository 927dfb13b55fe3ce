import Ubpftrace.AttachCtx

/-!
# The records of the attach context

As long as no detach fails where the context is reset afterwards, what is live in the
attach implementations is what the context has recorded, and the program objects of the
live attachments are kept. `destroy_all_attach_links` stops at the first link that does
not detach, and the reset that follows it forgets that link and all after it.
-/

namespace AttachCtx

open AList Function
open HandlerTable (Handler LinkHandler PerfEventHandler noName)
open HandlerTable.EventType
open Runs (Reaches run)

/-! ## The bookkeeping -/

/-- The live attachments and the records of the links are the same, each attachment has
its own id, and its program object is one that is not replaced. -/
structure Inv (s : Ctx) : Prop where
  recorded : ∀ a ∈ s.live, ∃ id, s.instantiatedAttachLinks.lookup id = some (a.attachId, a.impl)
  program : ∀ a ∈ s.live, ∃ id ∈ s.instantiatedHandlers, s.instantiatedProgs.lookup id = some a.prog
  attached : ∀ id link, s.instantiatedAttachLinks.lookup id = some link → ∃ a ∈ s.live, (a.attachId, a.impl) = link
  fresh : ∀ id link, s.instantiatedAttachLinks.lookup id = some link → link.1 < s.nextId link.2
  injective : ∀ id id' link, s.instantiatedAttachLinks.lookup id = some link →
    s.instantiatedAttachLinks.lookup id' = some link → id = id'
  listed : ∀ id ∈ s.instantiatedAttachLinks, id ∈ s.instantiatedHandlers

section Bookkeeping

variable {impls : AttachImpls} {e : Env} {p : Place} {s t : Ctx} {detaches : Nat → Bool}

theorem Inv.recordedAll (hi : Inv s) : Recorded s := by
  intro a ha
  obtain ⟨id, _, hprog⟩ := hi.program a ha
  exact ⟨hi.recorded a ha, id, hprog⟩

/-- An object at an fd that is not instantiated is not in use. -/
theorem Inv.addProg (hi : Inv s) {id : Nat} (hnew : id ∉ s.instantiatedHandlers) : Inv (s.addProg id) := by
  refine { hi with program := fun a ha => ?_ }
  obtain ⟨pid, hpid, hprog⟩ := hi.program a ha
  have hne : pid ≠ id := fun heq => hnew (heq ▸ hpid)
  exact ⟨pid, hpid, (lookup_insert_ne hne).trans hprog⟩

theorem Inv.markInstantiated (hi : Inv s) (id : Nat) : Inv (s.markInstantiated id) := by
  refine { hi with program := fun a ha => ?_, listed := fun id' h => List.mem_cons_of_mem _ (hi.listed id' h) }
  obtain ⟨pid, hpid, hprog⟩ := hi.program a ha
  exact ⟨pid, List.mem_cons_of_mem _ hpid, hprog⟩

theorem Inv.setPerfEvent (hi : Inv s) (id : Nat) (event : PerfEvent) : Inv (s.setPerfEvent id event) := { hi with }

theorem lookup_attach (s : Ctx) (id impl prog id' : Nat) :
    (s.attach id impl prog).instantiatedAttachLinks.lookup id' =
      if id' = id then some (s.nextId impl, impl) else s.instantiatedAttachLinks.lookup id' := by
  split_ifs with heq
  · subst heq
    exact lookup_insert _
  · exact lookup_insert_ne heq

section

variable (hi : Inv s)
include hi

theorem Inv.attach {id pid impl prog : Nat} (hnew : id ∉ s.instantiatedHandlers) (hpid : pid ∈ s.instantiatedHandlers)
    (hprog : s.instantiatedProgs.lookup pid = some prog) : Inv (s.attach id impl prog) := by
  -- the record of a link stays, because the fd of a link is instantiated
  have hkeep : ∀ {id' link}, s.instantiatedAttachLinks.lookup id' = some link → id' ≠ id := by
    intro id' link h heq
    have hmem : id' ∈ s.instantiatedAttachLinks := lookup_isSome.mp (by rw [h]; rfl)
    exact hnew (heq ▸ hi.listed id' hmem)
  have hcases : ∀ {id' link}, (s.attach id impl prog).instantiatedAttachLinks.lookup id' = some link →
      id' = id ∧ link = (s.nextId impl, impl) ∨ s.instantiatedAttachLinks.lookup id' = some link := by
    intro id' link h
    rw [lookup_attach] at h
    split_ifs at h with heq
    · exact .inl ⟨heq, (Option.some.inj h).symm⟩
    · exact .inr h
  refine ⟨?_, ?_, ?_, ?_, ?_, ?_⟩
  · intro a ha
    obtain rfl | ha := List.mem_cons.mp ha
    · exact ⟨id, (lookup_attach s id impl prog id).trans (if_pos rfl)⟩
    · obtain ⟨id', hid'⟩ := hi.recorded a ha
      exact ⟨id', (lookup_attach s id impl prog id').trans ((if_neg (hkeep hid')).trans hid')⟩
  · intro a ha
    obtain rfl | ha := List.mem_cons.mp ha
    · exact ⟨pid, List.mem_cons_of_mem _ hpid, hprog⟩
    · obtain ⟨pid', hpid', hprog'⟩ := hi.program a ha
      exact ⟨pid', List.mem_cons_of_mem _ hpid', hprog'⟩
  · intro id' link h
    obtain ⟨_, rfl⟩ | hold := hcases h
    · exact ⟨_, List.mem_cons_self, rfl⟩
    · obtain ⟨a, ha, hlink⟩ := hi.attached id' link hold
      exact ⟨a, List.mem_cons_of_mem _ ha, hlink⟩
  · intro id' link h
    change link.1 < update s.nextId impl (s.nextId impl + 1) link.2
    obtain ⟨_, rfl⟩ | hold := hcases h
    · rw [update_self]
      omega
    · have hlt := hi.fresh id' link hold
      by_cases himpl : link.2 = impl
      · rw [himpl] at hlt ⊢
        rw [update_self]
        omega
      · rw [update_of_ne himpl]
        exact hlt
  · intro id₁ id₂ link h₁ h₂
    obtain ⟨hid₁, hlink₁⟩ | hold₁ := hcases h₁
    · obtain ⟨hid₂, _⟩ | hold₂ := hcases h₂
      · omega
      · have hlt := hi.fresh id₂ link hold₂
        rw [hlink₁] at hlt
        exact absurd hlt (lt_irrefl _)
    · obtain ⟨_, hlink₂⟩ | hold₂ := hcases h₂
      · have hlt := hi.fresh id₁ link hold₁
        rw [hlink₂] at hlt
        exact absurd hlt (lt_irrefl _)
      · exact hi.injective id₁ id₂ link hold₁ hold₂
  · intro id' h
    obtain rfl | hold := (mem_insert _).mp h
    · exact List.mem_cons_self
    · exact List.mem_cons_of_mem _ (hi.listed id' hold)

theorem Inv.change (h : Change e s t) : Inv t := by
  cases h with
  | object hnew => exact hi.addProg hnew
  | prog hnew hid => exact (hi.addProg hnew).markInstantiated _
  | event hnew hid => exact (hi.setPerfEvent _ _).markInstantiated _
  | touch id => exact hi.setPerfEvent _ _
  | attach hnew hid hpid hprog => exact hi.attach hnew hpid hprog

theorem Inv.changes (h : Changes e s t) : Inv t := by
  induction h with
  | refl => exact hi
  | tail _ hchange ih => exact ih.change hchange

theorem Inv.release {id : Nat} {link : Nat × Nat} (hid : s.instantiatedAttachLinks.lookup id = some link) :
    Inv (s.release id link) := by
  have hcases : ∀ {id' link'}, (s.release id link).instantiatedAttachLinks.lookup id' = some link' →
      id' ≠ id ∧ s.instantiatedAttachLinks.lookup id' = some link' := by
    intro id' link' h
    by_cases heq : id' = id
    · subst heq
      exact nomatch (lookup_erase id' _).symm.trans h
    · exact ⟨heq, (lookup_erase_ne heq).symm.trans h⟩
  have hlive : ∀ {a}, a ∈ (s.release id link).live → a ∈ s.live ∧ (a.attachId, a.impl) ≠ link := by
    intro a ha
    obtain ⟨hmem, hne⟩ := List.mem_filter.mp ha
    exact ⟨hmem, of_decide_eq_true hne⟩
  refine ⟨?_, ?_, ?_, ?_, ?_, ?_⟩
  · intro a ha
    obtain ⟨hmem, hne⟩ := hlive ha
    obtain ⟨id', hid'⟩ := hi.recorded a hmem
    have heq : id' ≠ id := fun heq => hne (Option.some.inj (hid'.symm.trans (heq ▸ hid)))
    exact ⟨id', (lookup_erase_ne heq).trans hid'⟩
  · intro a ha
    exact hi.program a (hlive ha).1
  · intro id' link' h
    obtain ⟨hne, hold⟩ := hcases h
    obtain ⟨a, ha, hlink⟩ := hi.attached id' link' hold
    refine ⟨a, List.mem_filter.mpr ⟨ha, decide_eq_true fun heq => hne ?_⟩, hlink⟩
    exact hi.injective id' id link ((hlink.symm.trans heq) ▸ hold) hid
  · intro id' link' h
    exact hi.fresh id' link' (hcases h).2
  · intro id₁ id₂ link' h₁ h₂
    exact hi.injective id₁ id₂ link' (hcases h₁).2 (hcases h₂).2
  · intro id' h
    exact hi.listed id' ((mem_erase).mp h).2

theorem Inv.destroyLink (detaches : Bool) (id : Nat) : Inv (s.destroyInstantiatedAttachLink detaches id).2 := by
  unfold Ctx.destroyInstantiatedAttachLink
  split
  · exact hi
  · next link hid =>
    split_ifs
    · exact hi.release hid
    · exact hi

theorem Inv.destroyLinks (detaches : Nat → Bool) (ids : List Nat) : Inv (s.destroyLinks detaches ids).2 := by
  induction ids generalizing s with
  | nil => exact hi
  | cons id ids ih =>
    have hone := hi.destroyLink (detaches id) id
    exact andThen_keeps Inv hone fun _ => ih hone

end

theorem destroyLinks_links (hdetaches : ∀ id, detaches id) (ids : List Nat) (hids : ids.Nodup)
    (hall : ∀ id, id ∈ ids ↔ id ∈ s.instantiatedAttachLinks) :
    ∀ id, id ∉ (s.destroyLinks detaches ids).2.instantiatedAttachLinks := by
  induction ids generalizing s with
  | nil =>
    intro id hid
    cases (hall id).mpr hid
  | cons id ids ih =>
    obtain ⟨hnot, hids⟩ := List.nodup_cons.mp hids
    obtain ⟨link, hlink⟩ := Option.isSome_iff_exists.mp (lookup_isSome.mpr ((hall id).mp List.mem_cons_self))
    have hstep : s.destroyInstantiatedAttachLink (detaches id) id = (.done, s.release id link) := by
      simp only [Ctx.destroyInstantiatedAttachLink, hlink, hdetaches id, if_true]
    rw [Ctx.destroyLinks, hstep]
    refine ih hids fun id' => ?_
    rw [Ctx.release, mem_erase, ← hall id', List.mem_cons]
    constructor
    · intro hmem
      exact ⟨fun heq => hnot (heq ▸ hmem), .inr hmem⟩
    · rintro ⟨hne, heq | hmem⟩
      · exact absurd heq hne
      · exact hmem

theorem Inv.live_eq_nil (hi : Inv s) (hnone : ∀ id, id ∉ s.instantiatedAttachLinks) : s.live = [] := by
  apply List.eq_nil_iff_forall_not_mem.mpr
  intro a ha
  obtain ⟨id, hid⟩ := hi.recorded a ha
  exact hnone id (lookup_isSome.mp (by rw [hid]; rfl))

theorem reset_inv (hlive : s.live = []) : Inv s.resetInstantiatedState where
  recorded a ha := by
    rw [Ctx.resetInstantiatedState, hlive] at ha
    cases ha
  program a ha := by
    rw [Ctx.resetInstantiatedState, hlive] at ha
    cases ha
  attached id link h := by cases h
  fresh id link h := by cases h
  injective id id' link h := by cases h
  listed id h := by cases h

theorem Inv.rebind (hi : Inv s) (hdetaches : ∀ id, detaches id) : Inv (s.rebind detaches) := by
  have hdestroy : Inv (s.destroyAllAttachLinks detaches).2 := hi.destroyLinks detaches _
  refine reset_inv (hdestroy.live_eq_nil (destroyLinks_links hdetaches _ ?_ fun id => ?_))
  · exact (List.perm_insertionSort _ _).nodup_iff.mpr (keys_nodup _)
  · rw [List.mem_insertionSort, mem_keys]

/-- The number that is recorded has no part in the bookkeeping. -/
theorem Inv.setLast (hi : Inv s) (seq : Nat) : Inv { s with lastEpochSeqSeen := seq } := { hi with }

theorem Inv.enter (hi : Inv s) (hdetaches : ∀ attempt after id, e.detaches attempt after id) (attempt : Nat) :
    Inv (s.enter e attempt) := by
  unfold Ctx.enter
  split_ifs
  · exact hi
  · exact (hi.rebind (hdetaches attempt false)).setLast _

/-- How an attempt ends: there is nothing to scan, or after the scan by an exception, with 0,
or with the next attempt on a context that has been reset. -/
theorem attempts_succ (impls : AttachImpls) (e : Env) (left attempt : Nat) (s : Ctx) :
    s.attempts impls e (left + 1) attempt = s.attempts impls e left (attempt + 1) ∨
      ∃ finished t, (s.enter e attempt).scan impls e attempt = (finished, t) ∧
        (s.attempts impls e (left + 1) attempt = (none, t) ∨
          finished = true ∧ s.attempts impls e (left + 1) attempt = (some 0, t) ∨
          ∃ seq, s.attempts impls e (left + 1) attempt =
            Ctx.attempts impls e left (attempt + 1)
              { t.rebind (e.detaches attempt true) with lastEpochSeqSeen := seq }) := by
  rw [Ctx.attempts]
  split
  · exact .inl rfl
  · refine .inr ?_
    split
    · next t ht => exact ⟨false, t, ht, .inl rfl⟩
    · next t ht =>
      refine ⟨true, t, ht, .inr ?_⟩
      split_ifs
      · exact .inl ⟨rfl, rfl⟩
      · exact .inr ⟨_, rfl⟩
      · exact .inl ⟨rfl, rfl⟩
      · exact .inr ⟨_, rfl⟩

theorem Inv.attempts (hi : Inv s) (impls : AttachImpls) (hprogs : ProgsHold e)
    (hdetaches : ∀ attempt after id, e.detaches attempt after id) (left attempt : Nat) :
    Inv (s.attempts impls e left attempt).2 := by
  induction left generalizing attempt s with
  | zero => exact hi
  | succ left ih =>
    obtain hnext | ⟨finished, t, ht, hcases⟩ := attempts_succ impls e left attempt s
    · rw [hnext]
      exact ih hi (attempt + 1)
    · have hscan := (hi.enter hdetaches attempt).changes (scan_changes impls hprogs attempt _)
      rw [ht] at hscan
      obtain hend | ⟨_, hend⟩ | ⟨seq, hnext⟩ := hcases
      · rw [hend]
        exact hscan
      · rw [hend]
        exact hscan
      · rw [hnext]
        exact ih ((hscan.rebind (hdetaches attempt true)).setLast seq) (attempt + 1)

theorem step_inv {s t : State} {a : Op} (hi : Inv s.ctx) (hok : Detaches s a) (h : step impls s a = some t) :
    Inv t.ctx := by
  cases a with
  | init e =>
    cases h
    exact hi.attempts impls hok.1 hok.2 _ _
  | instantiate e p id =>
    cases h
    exact hi.changes (instantiate_changes impls p hok _ _ _ _)
  | destroyLink id detaches =>
    cases h
    exact hi.destroyLink detaches id
  | destroyAll detaches =>
    cases h
    exact hi.destroyLinks detaches _
  | reset =>
    cases h
    exact reset_inv hok

end Bookkeeping

/-! ## Every link of the table -/

section Attach

variable {impls : AttachImpls} {e : Env} {p : Place} {s t : Ctx}

variable {id : Nat} {ev : PerfEventHandler}

theorem InstantiatedAs.mono {h : Handler} (hs : InstantiatedAs s id h)
    (hprogs : id ∈ s.instantiatedProgs → id ∈ t.instantiatedProgs)
    (hevents : ∀ event, s.instantiatedPerfEvents.lookup id = some event →
      t.instantiatedPerfEvents.lookup id = some event)
    (hlinks : id ∈ s.instantiatedAttachLinks → id ∈ t.instantiatedAttachLinks) : InstantiatedAs t id h := by
  cases h with
  | prog _ => exact hprogs hs
  | perfEvent ev => exact hevents _ hs
  | link l => exact hlinks hs
  | unused | map m | epoll | memfd flags name => trivial

theorem Consistent.change (hc : Consistent e s) (h : Change e s t) : Consistent e t := by
  cases h with
  | object hnew =>
    intro id hid
    exact (hc id hid).mono (fun h => (mem_insert _).mpr (.inr h)) (fun _ h => h) (fun h => h)
  | prog hnew hprog =>
    intro id hid
    obtain rfl | hid := List.mem_cons.mp hid
    · rw [hprog]
      exact (mem_insert _).mpr (.inl rfl)
    · exact (hc id hid).mono (fun h => (mem_insert _).mpr (.inr h)) (fun _ h => h) (fun h => h)
  | event hnew hevent =>
    intro id hid
    obtain rfl | hid := List.mem_cons.mp hid
    · rw [hevent]
      exact lookup_insert _
    · refine (hc id hid).mono (fun h => h) (fun event h => ?_) (fun h => h)
      exact (lookup_insert_ne (ne_of_mem_of_not_mem hid hnew)).trans h
  | touch target =>
    intro id hid
    refine (hc id hid).mono (fun h => h) (fun event h => ?_) (fun h => h)
    by_cases heq : id = target
    · subst heq
      exact (lookup_insert _).trans (by rw [Ctx.perfEventAt, h]; rfl)
    · exact (lookup_insert_ne heq).trans h
  | attach hnew hlink hpid hprog =>
    intro id hid
    obtain rfl | hid := List.mem_cons.mp hid
    · rw [hlink]
      exact (mem_insert _).mpr (.inl rfl)
    · exact (hc id hid).mono (fun h => h) (fun _ h => h) (fun h => (mem_insert _).mpr (.inr h))

theorem Consistent.changes (hc : Consistent e s) (h : Changes e s t) : Consistent e t := by
  induction h with
  | refl => exact hc
  | tail _ hchange ih => exact ih.change hchange

theorem prog_done (fuel : Nat) {stk : List Nat} {prog : HandlerTable.ProgHandler}
    (hid : e.handler id = .prog prog) (hstk : id ∉ stk) (hload : e.loads p id) :
    (s.instantiateHandlerAt impls e p (fuel + 1) stk id).1 = .done := by
  rw [Ctx.instantiateHandlerAt]
  split_ifs with hmem
  · rfl
  · simp only [hid, Ctx.instantiateProgHandlerAt, hload, if_true]

theorem event_done (fuel : Nat) {stk : List Nat} (hid : e.handler id = .perfEvent ev) (hstk : id ∉ stk)
    (htype : ev.type ≠ SOFTWARE) (himpl : impls ev.type ≠ none) (hfits : dataFits ev) (hparse : e.parses p id) :
    (s.instantiateHandlerAt impls e p (fuel + 1) stk id).1 = .done ∧
      id ∈ (s.instantiateHandlerAt impls e p (fuel + 1) stk id).2.instantiatedHandlers := by
  rw [Ctx.instantiateHandlerAt]
  split_ifs with hmem
  · exact ⟨rfl, hmem⟩
  · have hfits' : dataFits ev ≠ false := by simp [hfits]
    simp only [hid, Ctx.instantiatePerfEventHandlerAt, if_neg htype, if_neg himpl, if_neg hfits', hparse, if_true]
    exact ⟨trivial, List.mem_cons_self⟩

variable {l : LinkHandler}

theorem instantiateLink_attaches {prog : Nat} (hprog : s.instantiatedProgs.lookup l.progId.toNat = some prog)
    (hevent : s.instantiatedPerfEvents.lookup l.attachTargetId.toNat = some ⟨true, ev.type⟩)
    (himpl : impls ev.type ≠ none) (hattach : e.attaches p id) :
    id ∈ (s.instantiateBpfLinkHandlerAt impls e p id l).2.instantiatedAttachLinks := by
  obtain ⟨impl, himpl⟩ := Option.ne_none_iff_exists'.mp himpl
  have hat : s.perfEventAt l.attachTargetId.toNat = ⟨true, ev.type⟩ := by
    rw [Ctx.perfEventAt, hevent]
    rfl
  simp only [Ctx.instantiateBpfLinkHandlerAt, hat, himpl, Ctx.setPerfEvent, hprog, hattach, if_true]
  exact (mem_insert _).mpr (.inl rfl)

section

variable (hprogs : ProgsHold e) (hc : Consistent e s)
include hprogs hc

theorem link_attaches (p : Place) (fuel : Nat) (hid : e.handler id = .link l) (ha : Attaches impls e id l) :
    id ∈ (s.instantiateHandlerAt impls e p (fuel + 2) [] id).2.instantiatedAttachLinks := by
  rw [Ctx.instantiateHandlerAt]
  by_cases hmem : id ∈ s.instantiatedHandlers
  · rw [if_pos hmem]
    have hlink := hc id hmem
    rw [hid] at hlink
    exact hlink
  · rw [if_neg hmem, if_neg List.not_mem_nil]
    obtain ⟨prog, hprog⟩ := hprogs id l hid
    obtain ⟨ev, hev, htype, himpl, hfits⟩ := ha.target
    -- neither the program nor the target is the link itself
    have hne : l.progId.toNat ∉ [id] := by
      intro heq
      rw [List.mem_singleton.mp heq, hid] at hprog
      cases hprog
    have hne' : l.attachTargetId.toNat ∉ [id] := by
      intro heq
      rw [List.mem_singleton.mp heq, hid] at hev
      cases hev
    simp only [hid]
    have hdone : (s.instantiateHandlerAt impls e p (fuel + 1) [id] l.progId.toNat).1 = .done :=
      prog_done fuel hprog hne (ha.loads p)
    have hmemProg := mem_of_prog_done hprog hdone
    have hfirst := instantiate_changes impls p hprogs (fuel + 1) [id] s l.progId.toNat
    obtain ⟨s₁, hs₁⟩ : ∃ s₁, s.instantiateHandlerAt impls e p (fuel + 1) [id] l.progId.toNat = (.done, s₁) :=
      ⟨_, Prod.ext hdone rfl⟩
    rw [hs₁] at hmemProg hfirst ⊢
    obtain ⟨hdone', hmemEvent⟩ := event_done (s := s₁) fuel hev hne' htype himpl hfits (ha.parses p)
    have hsecond := instantiate_changes impls p hprogs (fuel + 1) [id] s₁ l.attachTargetId.toNat
    obtain ⟨s₂, hs₂⟩ : ∃ s₂, s₁.instantiateHandlerAt impls e p (fuel + 1) [id] l.attachTargetId.toNat = (.done, s₂) :=
      ⟨_, Prod.ext hdone' rfl⟩
    rw [hs₂] at hmemEvent hsecond
    have hc₂ : Consistent e s₂ := (hc.changes hfirst).changes hsecond
    have hhasProg := hc₂ _ (hsecond.mono.1 hmemProg)
    have hhasEvent := hc₂ _ hmemEvent
    rw [hprog] at hhasProg
    rw [hev] at hhasEvent
    obtain ⟨object, hobject⟩ := Option.isSome_iff_exists.mp (lookup_isSome.mpr hhasProg)
    simp only [andThen, hs₂]
    exact instantiateLink_attaches hobject hhasEvent himpl (ha.attaches p)

theorem scanFrom_attaches {attempt : Nat} {handleNv : Bool} (ids : List Nat)
    (hend : (s.scanFrom impls e attempt handleNv ids).1 = true) (hmem : id ∈ ids) (hid : e.handler id = .link l)
    (ha : Attaches impls e id l) : id ∈ (s.scanFrom impls e attempt handleNv ids).2.instantiatedAttachLinks := by
  induction ids generalizing s with
  | nil => cases hmem
  | cons i ids ih =>
    rw [Ctx.scanFrom] at hend ⊢
    by_cases hunused : e.handler i = .unused
    · rw [if_pos hunused] at hend ⊢
      obtain rfl | hmem := List.mem_cons.mp hmem
      · rw [hid] at hunused
        cases hunused
      · exact ih hc hend hmem
    · rw [if_neg hunused] at hend ⊢
      have hone := instantiate_changes impls ⟨attempt, handleNv, i⟩ hprogs (e.handlers.length + 2) [] s i
      split at hend
      · cases hend
      · next t _ ht =>
        simp only [ht] at hone ⊢
        obtain rfl | hmem := List.mem_cons.mp hmem
        · have hself := link_attaches hprogs hc ⟨attempt, handleNv, id⟩ e.handlers.length hid ha
          rw [ht] at hself
          exact (scanFrom_changes impls hprogs attempt handleNv ids t).mono.2 id hself
        · exact ih (hc.changes hone) hend hmem

theorem scan_attaches {attempt : Nat} (hend : (s.scan impls e attempt).1 = true) (hid : e.handler id = .link l)
    (ha : Attaches impls e id l) : id ∈ (s.scan impls e attempt).2.instantiatedAttachLinks := by
  have hmem : id ∈ List.range e.handlers.length := by
    rw [List.mem_range]
    by_contra hlong
    rw [Env.handler, List.getD_eq_default _ _ (by omega)] at hid
    cases hid
  unfold Ctx.scan at hend ⊢
  split at hend
  · next t ht =>
    have hfirst := scanFrom_attaches hprogs hc (List.range e.handlers.length) (by rw [ht]) hmem hid ha
    simp only [ht] at hfirst ⊢
    exact (scanFrom_changes impls hprogs attempt true _ t).mono.2 id hfirst
  · next hnot => exact (hnot _ (Prod.ext hend rfl)).elim

end

theorem consistent_of_none (hnone : s.instantiatedHandlers = []) : Consistent e s := by
  intro id hid
  rw [hnone] at hid
  cases hid

theorem Consistent.enter (hc : Consistent e s) (attempt : Nat) : Consistent e (s.enter e attempt) := by
  unfold Ctx.enter
  split_ifs
  · exact hc
  · exact consistent_of_none rfl

theorem attempts_attach (hprogs : ProgsHold e) (hc : Consistent e s) (left attempt : Nat)
    (hret : (s.attempts impls e left attempt).1 = some 0) (hid : e.handler id = .link l)
    (ha : Attaches impls e id l) : id ∈ (s.attempts impls e left attempt).2.instantiatedAttachLinks := by
  induction left generalizing attempt s with
  | zero => cases hret
  | succ left ih =>
    obtain hnext | ⟨finished, t, ht, hcases⟩ := attempts_succ impls e left attempt s
    · rw [hnext] at hret ⊢
      exact ih hc (attempt + 1) hret
    · obtain hend | ⟨hfinished, hend⟩ | ⟨seq, hnext⟩ := hcases
      · rw [hend] at hret
        cases hret
      · have hscan := scan_attaches hprogs (hc.enter attempt) (by rw [ht]; exact hfinished) hid ha
        rw [ht] at hscan
        rw [hend]
        exact hscan
      · rw [hnext] at hret ⊢
        exact ih (consistent_of_none rfl) (attempt + 1) hret

end Attach

/-- In a run that forgets nothing while it is live, every live attachment is recorded with
its program object, and an `init` that returns 0 has attached each link of its table
for which the calls to the outside succeed. -/
theorem attachments_recorded (impls : AttachImpls) (s : State) (h : Reaches (step impls) Detaches start s) :
    Recorded s.ctx ∧ ∀ e t, Detaches s (.init e) → Consistent e s.ctx → step impls s (.init e) = some t →
      t.returned = some 0 → ∀ id l, e.handler id = .link l → Attaches impls e id l → Attached t.ctx id := by
  have hi : Inv s.ctx := h.invariant (fun s => Inv s.ctx) ((reset_inv (s := empty) rfl).setLast 0)
    fun _ _ _ ht hok hstep => step_inv ht hok hstep
  refine ⟨hi.recordedAll, fun e t hok hc hstep hret id l hid ha => ?_⟩
  have ht : Inv t.ctx := step_inv hi hok hstep
  cases hstep
  have hmem := attempts_attach hok.1 hc _ _ hret hid ha
  obtain ⟨link, hlink⟩ := Option.isSome_iff_exists.mp (lookup_isSome.mpr hmem)
  obtain ⟨a, halive, rfl⟩ := ht.attached id link hlink
  exact ⟨a, halive, hlink⟩

/-- An implementation for uprobes. -/
def uprobesOnly : AttachImpls := fun type => if type = UPROBE then some 0 else none

/-- Two links of one program to one uprobe, in the session 2. Everything succeeds. -/
def twoLinks : Env where
  handlers := [.prog ⟨0, [], noName⟩, .perfEvent ⟨UPROBE, true, .uprobe 0 0 0 noName⟩,
    .link ⟨none, 0, 1, none⟩, .link ⟨none, 0, 1, none⟩]
  seqBefore _ := 2
  seqAfter _ := 2
  loads _ _ := true
  parses _ _ := true
  attaches _ _ := true
  detaches _ _ _ := true

/-- The session 4, with nothing in the table. The link at 2 does not detach. -/
def stuckLink : Env :=
  { twoLinks with
    handlers := List.replicate 4 .unused
    seqBefore := fun _ => 4
    seqAfter := fun _ => 4
    detaches := fun _ _ id => id ≠ 2 }

theorem two_links_recorded : ∃ t, step uprobesOnly start (.init twoLinks) = some t ∧ t.returned = some 0 ∧
    t.ctx.live = [⟨0, 2, 0⟩, ⟨0, 1, 0⟩] ∧ Recorded t.ctx ∧ Attached t.ctx 2 := by
  have hinit : (step uprobesOnly start (.init twoLinks)).map (fun t => (t.returned, t.ctx.live)) =
      some (some 0, [⟨0, 2, 0⟩, ⟨0, 1, 0⟩]) := by decide +kernel
  obtain ⟨t, ht, hpair⟩ := Option.map_eq_some_iff.mp hinit
  obtain ⟨hret, hlive⟩ := Prod.mk.inj hpair
  have hlink : ∀ id l, twoLinks.handler id = .link l → l = ⟨none, 0, 1, none⟩ := by
    intro id l h
    match id, h with
    | 2, h | 3, h => exact (Handler.link.inj h).symm
  have hok : Detaches start (.init twoLinks) := by
    refine ⟨fun id l h => ?_, fun _ _ _ => rfl⟩
    rw [hlink id l h]
    exact ⟨_, rfl⟩
  refine ⟨t, ht, hret, hlive, (attachments_recorded uprobesOnly t (.single hok ht)).1, ?_⟩
  refine (attachments_recorded uprobesOnly start .refl).2 twoLinks t hok ?_ ht hret 2 ⟨none, 0, 1, none⟩ rfl ?_
  · intro id hid
    cases hid
  · exact ⟨fun _ => rfl, ⟨_, rfl, by decide, by decide, rfl⟩, fun _ => rfl, fun _ => rfl⟩

theorem stuck_link_forgets_all : ∃ t,
    run (step uprobesOnly) (fun _ _ => True) start [.init twoLinks, .init stuckLink] = some t ∧ t.returned = some 0 ∧
      t.ctx.live = [⟨0, 2, 0⟩, ⟨0, 1, 0⟩] ∧ t.ctx.instantiatedAttachLinks.keys = [] ∧
      t.ctx.instantiatedProgs.keys = [] ∧ ¬ Recorded t.ctx := by
  have hrun : (run (step uprobesOnly) (fun _ _ => True) start [.init twoLinks, .init stuckLink]).map
      (fun t => (t.returned, t.ctx.live, t.ctx.instantiatedAttachLinks.keys, t.ctx.instantiatedProgs.keys)) =
      some (some 0, [⟨0, 2, 0⟩, ⟨0, 1, 0⟩], [], []) := by decide +kernel
  obtain ⟨t, ht, hpair⟩ := Option.map_eq_some_iff.mp hrun
  simp only [Prod.mk.injEq] at hpair
  obtain ⟨hret, hlive, hlinks, hprogs⟩ := hpair
  refine ⟨t, ht, hret, hlive, hlinks, hprogs, fun hrecorded => ?_⟩
  obtain ⟨⟨id, hid⟩, _⟩ := hrecorded ⟨0, 2, 0⟩ (by simp [hlive])
  have hmem : id ∈ t.ctx.instantiatedAttachLinks.keys := lookup_isSome.mp (by rw [hid]; rfl)
  rw [hlinks] at hmem
  cases hmem

end AttachCtx
