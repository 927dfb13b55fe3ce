import Ubpftrace.HandlerTable

/-!
# Links of the handler table

A link names the fds of its program and of its target. Closing or replacing either
fd clears the link, so along every run the program of a link is a program and the
target of a perf link is a perf event, as long as links are attached to perf events
in the first place. `add_bpf_prog_attach_target` leaves that to its caller.
-/

namespace HandlerTable

open Runs (Reaches run reaches_of_run)

/-- Links of the attach type for perf events, and those that an attach call makes. -/
def LinkHandler.isPerfLink (l : LinkHandler) : Bool :=
  match l.args with
  | none => true
  | some args => args.attachType = perfEventAttachType

/-- Every link refers to a program, and every perf link to a perf event. -/
structure LinksHold (s : Shm) : Prop where
  prog : ∀ fd l, s.slot fd = some (.link l) → s.isProgFd l.progId
  target : ∀ fd l, s.slot fd = some (.link l) → l.isPerfLink → s.isPerfFd l.attachTargetId

/-- The target of an attach call that is not made for the link's program alone. -/
def TargetChecked (s : Shm) : Op → Prop
  | .addBpfProgAttachTarget perfFd bpfFd _ fake =>
    s.isProgFd bpfFd → s.slot fake = some .unused → s.isPerfFd perfFd
  | _ => True

instance (s : Shm) : (a : Op) → Decidable (TargetChecked s a)
  | .addBpfProgAttachTarget _ _ _ _ => inferInstanceAs (Decidable (_ → _ → _))
  | .addBpfProg .. | .addBpfMap .. | .addUprobe .. | .addUprobeOverride .. | .addTracepoint .. | .addKprobe ..
  | .addSoftwarePerfEvent .. | .addCustomPerfEvent .. | .addEpoll .. | .epollCreate .. | .addMemfdHandler ..
  | .addBpfLink .. | .attachPerfToBpf .. | .perfEventEnable .. | .dupBpfMap .. | .closeFd .. => isTrue trivial

namespace Shm

variable {c : Config} {s s' : Shm} {a : Op} {fd fd' : CInt} {h h' : Handler} {l : LinkHandler}

theorem isProgFd_iff : s.isProgFd fd ↔ ∃ p, s.slot fd = some (.prog p) := by
  unfold isProgFd
  split
  · next p hp => exact iff_of_true rfl ⟨p, hp⟩
  · next hne => exact iff_of_false (by simp) fun ⟨p, hp⟩ => hne p hp

theorem isPerfFd_iff : s.isPerfFd fd ↔ ∃ e, s.slot fd = some (.perfEvent e) := by
  unfold isPerfFd
  split
  · next e he => exact iff_of_true rfl ⟨e, he⟩
  · next hne => exact iff_of_false (by simp) fun ⟨e, he⟩ => hne e he

theorem isPerfFd_congr (hs : s'.slot fd = s.slot fd) : s'.isPerfFd fd = s.isPerfFd fd := by
  rw [isPerfFd, isPerfFd, hs]

end Shm

open Shm

/-- A field of the links, the links in which it counts and the handlers it is to refer to.
Clearing the fd of such a handler clears the links that refer to it. -/
structure Reference where
  fd : LinkHandler → CInt
  counts : LinkHandler → Bool
  good : Handler → Bool
  free : good .unused = false
  enable : ∀ e enabled, good (.perfEvent { e with enabled := enabled }) = good (.perfEvent e)
  orphans : ∀ h fd' l, good h → orphaned h fd' l = decide (fd l = fd')

def Reference.Holds (r : Reference) (s : Shm) : Prop :=
  ∀ fd l, s.slot fd = some (.link l) → r.counts l → ∃ h, s.slot (r.fd l) = some h ∧ r.good h

def progRef : Reference where
  fd := (·.progId)
  counts _ := true
  good
    | .prog _ => true
    | _ => false
  free := rfl
  enable _ _ := rfl
  orphans h fd' l hgood := by
    cases h with
    | prog p => rfl
    | _ => cases hgood

def perfRef : Reference where
  fd := (·.attachTargetId)
  counts := LinkHandler.isPerfLink
  good
    | .perfEvent _ => true
    | _ => false
  free := rfl
  enable _ _ := rfl
  orphans h fd' l hgood := by
    cases h with
    | perfEvent e => rfl
    | _ => cases hgood

theorem progRef_good {s : Shm} {fd : CInt} : (∃ h, s.slot fd = some h ∧ progRef.good h) ↔ s.isProgFd fd := by
  rw [isProgFd_iff]
  constructor
  · rintro ⟨h, hs, hgood⟩
    cases h with
    | prog p => exact ⟨p, hs⟩
    | _ => cases hgood
  · rintro ⟨p, hs⟩
    exact ⟨_, hs, rfl⟩

theorem perfRef_good {s : Shm} {fd : CInt} : (∃ h, s.slot fd = some h ∧ perfRef.good h) ↔ s.isPerfFd fd := by
  rw [isPerfFd_iff]
  constructor
  · rintro ⟨h, hs, hgood⟩
    cases h with
    | perfEvent e => exact ⟨e, hs⟩
    | _ => cases hgood
  · rintro ⟨e, hs⟩
    exact ⟨_, hs, rfl⟩

theorem linksHold_iff {s : Shm} : LinksHold s ↔ progRef.Holds s ∧ perfRef.Holds s := by
  constructor
  · intro hs
    exact ⟨fun fd l hl _ => progRef_good.mpr (hs.prog fd l hl),
      fun fd l hl hkind => perfRef_good.mpr (hs.target fd l hl hkind)⟩
  · rintro ⟨hprog, hperf⟩
    exact ⟨fun fd l hl => progRef_good.mp (hprog fd l hl rfl),
      fun fd l hl hkind => perfRef_good.mp (hperf fd l hl hkind)⟩

namespace Reference.Holds

variable {r : Reference} {c : Config} {s s' : Shm} {a : Op} {fd fd' : CInt} {h h' : Handler} {l : LinkHandler}

/-- A free slot that is filled takes nothing from the links that are there. -/
theorem fill (hs : r.Holds s) (hfree : s.slot fd = some .unused) (hother : ∀ fd', fd' ≠ fd → s'.slot fd' = s.slot fd')
    (hnew : ∀ l, s'.slot fd = some (.link l) → r.counts l → ∃ h, s.slot (r.fd l) = some h ∧ r.good h) : r.Holds s' := by
  intro fd' l hl hcounts
  have hold : ∃ h, s.slot (r.fd l) = some h ∧ r.good h := by
    by_cases heq : fd' = fd
    · exact hnew l (heq ▸ hl) hcounts
    · rw [hother fd' heq] at hl
      exact hs fd' l hl hcounts
  obtain ⟨h, hslot, hgood⟩ := hold
  have hne : r.fd l ≠ fd := by
    intro heq
    rw [heq, hfree] at hslot
    cases hslot
    rw [r.free] at hgood
    cases hgood
  exact ⟨h, (hother _ hne).trans hslot, hgood⟩

theorem enable {e : PerfEventHandler} {enabled : Bool} (hs : r.Holds s) (he : s.slot fd = some (.perfEvent e)) :
    r.Holds (s.put fd (.perfEvent { e with enabled := enabled })) := by
  have hself := slot_put_self he (.perfEvent { e with enabled := enabled })
  intro fd' l hl hcounts
  have hold : s.slot fd' = some (.link l) := by
    by_cases heq : fd' = fd
    · rw [heq, hself] at hl
      cases hl
    · rwa [slot_put_of_ne heq] at hl
  obtain ⟨h, hslot, hgood⟩ := hs fd' l hold hcounts
  by_cases heq : r.fd l = fd
  · rw [heq] at hslot ⊢
    obtain rfl := Option.some.inj (he.symm.trans hslot)
    exact ⟨_, hself, (r.enable e enabled).trans hgood⟩
  · exact ⟨h, (slot_put_of_ne heq _).trans hslot, hgood⟩

theorem survivor (hs : s.slot fd = some h) (hl : (s.clearIdAt fd).slot fd' = some (.link l)) :
    s.slot fd' = some (.link l) ∧ orphaned h fd l = false := by
  have hne : fd' ≠ fd := by
    rintro rfl
    rw [slot_clearIdAt_self hs] at hl
    cases hl
  rw [slot_clearIdAt_of_ne hs hne] at hl
  obtain ⟨h', hslot, hsurvive⟩ := Option.map_eq_some_iff.mp hl
  cases h' with
  | link l' =>
    simp only [dropLink] at hsurvive
    split at hsurvive
    · cases hsurvive
    · next hkept =>
      obtain rfl := Handler.link.inj hsurvive
      exact ⟨hslot, by simpa using hkept⟩
  | _ => cases hsurvive

theorem clear (hs : r.Holds s) (hfd : s.slot fd = some h) : r.Holds (s.clearIdAt fd) := by
  intro fd' l hl hcounts
  obtain ⟨hold, hkept⟩ := survivor hfd hl
  obtain ⟨h', hslot, hgood⟩ := hs fd' l hold hcounts
  have hne : r.fd l ≠ fd := by
    intro heq
    rw [heq, hfd] at hslot
    cases hslot
    rw [r.orphans h fd l hgood, decide_eq_true heq] at hkept
    cases hkept
  -- no link is an orphan of a link, so that a good handler is not a link, and clearing leaves it
  have hkeep : dropLink (orphaned h fd) h' = h' := by
    cases h' with
    | link l' =>
      have horphan := r.orphans (.link l') (r.fd l) l hgood
      rw [decide_eq_true rfl] at horphan
      cases horphan
    | _ => rfl
  exact ⟨h', by rw [slot_clearIdAt_of_ne hfd hne, hslot, Option.map_some, hkeep], hgood⟩

/-- A slot that is cleared and then filled with a map. -/
theorem replace {m : MapHandler} (hs : r.Holds s) (hfd : s.slot fd = some h) :
    r.Holds ((s.clearIdAt fd).store c fd (.map m)) := by
  have hself := slot_clearIdAt_self hfd
  refine (hs.clear hfd).fill hself (fun fd' hne => slot_store_of_ne c hne _) ?_
  intro l hl
  obtain ⟨h'', hslot, hkind⟩ := slot_store_self c hself (.map m)
  rw [hslot] at hl
  cases hl
  cases hkind

theorem move (hs : r.Holds s) (hm : Move c s a s')
    (hmade : ∀ l, LinkMade s a l → r.counts l → ∃ h, s.slot (r.fd l) = some h ∧ r.good h) : r.Holds s' := by
  cases hm with
  | stay => exact hs
  | @install _ fd h _ hfree hinstalled =>
    refine hs.fill hfree (fun fd' hne => slot_put_of_ne hne _) ?_
    intro l hl
    rw [slot_put_self hfree] at hl
    cases hl
    exact hmade l hinstalled
  | enable he => exact hs.enable he
  | close hfd => exact hs.clear hfd
  | addMap _ hfd => exact hs.replace hfd
  | fallback _ _ hnew _ => exact hs.replace hnew
  | @share oldfd newfd fd fake handler h _ _ hnew _ _ =>
    have hself := (slot_congr (handlers_incMapRefcount _ handler) fd).trans (slot_clearIdAt_self hnew)
    have hcongr : ∀ fd', fd' ≠ fd → (((s.clearIdAt fd).incMapRefcount handler).put fd
        (.map { handler with id := fd })).slot fd' = (s.clearIdAt fd).slot fd' := by
      intro fd' hne
      exact (slot_put_of_ne hne _).trans (slot_congr (handlers_incMapRefcount _ handler) fd')
    refine (hs.clear hnew).fill (slot_clearIdAt_self hnew) hcongr ?_
    intro l hl
    rw [slot_put_self hself] at hl
    cases hl

end Reference.Holds

theorem progRef_move {c : Config} {s s' : Shm} {a : Op} (hs : progRef.Holds s) (hm : Move c s a s') :
    progRef.Holds s' :=
  hs.move hm fun _ hmade _ => progRef_good.mpr hmade.prog

theorem LinksHold.move {c : Config} {s s' : Shm} {a : Op} (hs : LinksHold s) (hm : Move c s a s')
    (hok : TargetChecked s a) : LinksHold s' := by
  obtain ⟨hprog, hperf⟩ := linksHold_iff.mp hs
  refine linksHold_iff.mpr ⟨progRef_move hprog hm, hperf.move hm fun l hmade hkind => perfRef_good.mpr ?_⟩
  obtain htarget | ⟨args, rfl, htype⟩ | ⟨cookie, fake, rfl, hfake⟩ := hmade.target
  · exact htarget
  · simp [perfRef, LinkHandler.isPerfLink, linkOfArgs, htype] at hkind
  · exact hok hmade.prog hfake

variable {c : Config} {s s' : Shm} {a : Op}

theorem create_slot {n : Nat} {fd : CInt} {h : Handler} (hs : (create n).slot fd = some h) : h = .unused := by
  have hget := (slot_eq_some hs).2
  exact List.eq_of_mem_replicate (List.mem_of_getElem? hget)

theorem Reference.holds_create (r : Reference) (n : Nat) : r.Holds (create n) := by
  intro fd l hl
  cases create_slot hl

theorem progRef_reaches {ok : Shm → Op → Prop} {n : Nat} (h : Reaches (step c) ok (create n) s) : progRef.Holds s :=
  h.invariant progRef.Holds (progRef.holds_create n) fun _ _ _ ht _ hstep => progRef_move ht (step_move hstep)

theorem linksHold_create (n : Nat) : LinksHold (create n) :=
  linksHold_iff.mpr ⟨progRef.holds_create n, perfRef.holds_create n⟩

theorem not_linksHold_of_unchecked (hstep : step c s a = some s') (hnot : ¬ TargetChecked s a) : ¬ LinksHold s' := by
  cases a with
  | addBpfProgAttachTarget perfFd bpfFd cookie fake =>
    simp only [TargetChecked, not_forall] at hnot
    obtain ⟨hprog, hfree, hperf⟩ := hnot
    have hpos := (slot_eq_some hfree).1
    simp only [step, call, addBpfProgAttachTarget, hprog, Bool.true_eq_false, if_false,
      if_neg (by omega : ¬ fake.toInt < 0), setHandler_free hfree (by simp : Handler.link _ ≠ .unused),
      Option.map_some, Option.some.injEq] at hstep
    have hself : s'.slot fake = some (.link ⟨none, bpfFd, perfFd, cookie⟩) := by
      rw [← hstep]
      exact slot_put_self hfree _
    intro hs
    have htarget := hs.target fake ⟨none, bpfFd, perfFd, cookie⟩ hself rfl
    by_cases heq : perfFd = fake
    · obtain ⟨e, he⟩ := isPerfFd_iff.mp htarget
      rw [heq, hself] at he
      cases he
    · apply hperf
      rwa [← hstep, isPerfFd_congr (slot_store_of_ne c heq _)] at htarget
  | _ => exact absurd trivial hnot

/-- In every run in which links are attached to perf events, every link refers to a
program and every perf link to a perf event; and the next operation keeps this
exactly if it checks its target too. -/
theorem links_hold_iff_targets_checked (c : Config) (n : Nat) (s : Shm)
    (h : Reaches (step c) TargetChecked (create n) s) :
    LinksHold s ∧ ∀ a s', step c s a = some s' → (LinksHold s' ↔ TargetChecked s a) := by
  have hs : LinksHold s :=
    h.invariant LinksHold (linksHold_create n) fun t a u ht hok hstep => ht.move (step_move hstep) hok
  refine ⟨hs, fun a s' hstep => ⟨fun hs' => ?_, hs.move (step_move hstep)⟩⟩
  by_contra hnot
  exact not_linksHold_of_unchecked hstep hnot hs'

/-- A program at 3, a uprobe at 4, and the link between them at 5. -/
def attachUprobe : List Op :=
  [.addBpfProg 3 0 [] noName 0 0, .addUprobe 4 0 (-1) noName 0 false 0, .attachPerfToBpf 4 3 none 5]

def tableOf (n : Nat) (ops : List Op) : Option Shm := run (step defaultConfig) TargetChecked (create n) ops

theorem links_hold_after_attach : ∃ s, tableOf 8 attachUprobe = some s ∧
    s.slot 5 = some (.link ⟨none, 3, 4, none⟩) ∧ LinksHold s := by
  have hrun : (tableOf 8 attachUprobe).map (·.slot 5) = some (some (.link ⟨none, 3, 4, none⟩)) := by decide +kernel
  obtain ⟨s, hs, hslot⟩ := Option.map_eq_some_iff.mp hrun
  exact ⟨s, hs, hslot, (links_hold_iff_targets_checked defaultConfig 8 s (reaches_of_run _ hs)).1⟩

/-- The program at 3 is attached to the fd 4 that holds nothing. -/
theorem attach_target_holds_nothing : ∃ s s', tableOf 8 [.addBpfProg 3 0 [] noName 0 0] = some s ∧
    step defaultConfig s (.addBpfProgAttachTarget 4 3 none 5) = some s' ∧
    s'.slot 5 = some (.link ⟨none, 3, 4, none⟩) ∧ s'.slot 4 = some .unused ∧ ¬ LinksHold s' := by
  have hrun : ((tableOf 8 [.addBpfProg 3 0 [] noName 0 0]).bind fun s =>
      (step defaultConfig s (.addBpfProgAttachTarget 4 3 none 5)).map fun s' => (s'.slot 5, s'.slot 4)) =
      some (some (.link ⟨none, 3, 4, none⟩), some .unused) := by decide +kernel
  obtain ⟨s, hs, hmap⟩ := Option.bind_eq_some_iff.mp hrun
  obtain ⟨s', hstep, hslots⟩ := Option.map_eq_some_iff.mp hmap
  obtain ⟨hlink, htarget⟩ := Prod.mk.inj hslots
  refine ⟨s, s', hs, hstep, hlink, htarget, fun hold => ?_⟩
  obtain ⟨e, he⟩ := isPerfFd_iff.mp (hold.target 5 _ hlink rfl)
  rw [htarget] at he
  cases he

end HandlerTable
