import Ubpftrace.HandlerLinks
import Ubpftrace.ShmJson

/-!
# Single handlers through JSON

Every handler is followed through the export and the import into a free slot, which
gives the condition under which it comes back.
-/

namespace ShmJson

open HandlerTable JsonValue
open HandlerTable.Shm
open HandlerTable.EventType
open Bytes (le readLe ofList)
open NumberStrings (toStr stoi)
open Runs (Reaches run reaches_of_run)

/-! ## Buffers -/

theorem stoi16_hexByte_of_lt : ∀ n < 256, stoi16 (hexByte (UInt8.ofNat n)) = some (n : Int) := by decide +kernel

theorem stoi16_hexByte (b : UInt8) : stoi16 (hexByte b) = some (b.toNat : Int) := by
  have h := stoi16_hexByte_of_lt b.toNat b.toNat_lt
  rwa [UInt8.ofNat_toNat] at h

theorem hexBytes_bufferToHexString (buffer : List UInt8) :
    hexBytes buffer.length (bufferToHexString buffer) = some buffer := by
  induction buffer with
  | nil => rfl
  | cons b buffer ih =>
    have htake : (bufferToHexString (b :: buffer)).take 2 = hexByte b := rfl
    have hdrop : (bufferToHexString (b :: buffer)).drop 2 = bufferToHexString buffer := rfl
    have hlow : ((b.toNat : Int) % 2 ^ 8).toNat = b.toNat := by
      have := b.toNat_lt
      omega
    have hback : UInt8.ofInt (b.toNat : Int) = b := by rw [UInt8.ofInt, hlow, UInt8.ofNat_toNat]
    rw [List.length_cons, hexBytes, htake, hdrop, stoi16_hexByte, ih, Option.bind_some, Option.map_some, hback]

theorem length_bufferToHexString (buffer : List UInt8) : (bufferToHexString buffer).length = buffer.length * 2 := by
  induction buffer with
  | nil => rfl
  | cons b buffer ih =>
    have hcons : bufferToHexString (b :: buffer) = hexByte b ++ bufferToHexString buffer := rfl
    rw [hcons, List.length_append, ih, List.length_cons]
    simp only [hexByte, List.length_cons, List.length_nil]
    omega

theorem length_insnBytes (insns : List (BitVec 64)) : (insnBytes insns).length = insns.length * 8 := by
  induction insns with
  | nil => rfl
  | cons insn insns ih =>
    have hcons : insnBytes (insn :: insns) = le 8 insn.toNat ++ insnBytes insns := rfl
    rw [hcons, List.length_append, ih, Bytes.length_le, List.length_cons]
    omega

theorem insnsOf_insnBytes (insns : List (BitVec 64)) : insnsOf insns.length (insnBytes insns) = insns := by
  induction insns with
  | nil => rfl
  | cons insn insns ih =>
    have hcons : insnBytes (insn :: insns) = le 8 insn.toNat ++ insnBytes insns := rfl
    have hholds := Bytes.holds_ofList [] (le 8 insn.toNat) (insnBytes insns)
    rw [List.nil_append, List.length_nil] at hholds
    have hdrop : (le 8 insn.toNat ++ insnBytes insns).drop 8 = insnBytes insns := by
      rw [List.drop_append_of_le_length (by simp), List.drop_of_length_le (by simp), List.nil_append]
    have hword : BitVec.ofNat 64 (insn.toNat % 256 ^ 8) = insn := by
      have hlt : insn.toNat < 256 ^ 8 := insn.isLt
      rw [Nat.mod_eq_of_lt hlt, BitVec.ofNat_toNat, BitVec.setWidth_eq]
    rw [List.length_cons, hcons, insnsOf, Bytes.readLe_of_holds _ _ _ _ hholds, hdrop, ih, hword]

/-! ## The calls for each handler -/

variable {p : ProgHandler}

section Calls

variable (env : Env) (fd : CInt)

/-- What `cnt` is read as. -/
def cntOf (p : ProgHandler) : CInt := BitVec.ofInt 32 p.insns.length

theorem importProg_exported (p : ProgHandler) :
    importHandler env (handlerToJson (.prog p)) fd =
      if (cntOf p).toInt < 0 then ⟨[], .thrown⟩
      else if (bufferToHexString (insnBytes p.insns)).length ≠ (cntOf p).toNat * 8 * 2 then ⟨[], .failed⟩
      else
        match hexBytes ((cntOf p).toNat * 8) (bufferToHexString (insnBytes p.insns)) with
        | none => ⟨[], .thrown⟩
        | some bytes =>
          ⟨[.addBpfProg fd 0 (insnsOf (cntOf p).toNat bytes) (cStr p.name.bytes) (BitVec.ofInt 32 p.type.toInt)
            (env.found fd)], .done⟩ := rfl

theorem import_prog (hlen : p.insns.length < 2 ^ 31) :
    importHandler env (handlerToJson (.prog p)) fd =
      ⟨[.addBpfProg fd 0 p.insns p.name p.type (env.found fd)], .done⟩ := by
  have hnat : (cntOf p).toNat = p.insns.length := by
    rw [cntOf, BitVec.ofInt_natCast, BitVec.toNat_ofNat, Nat.mod_eq_of_lt (by omega)]
  have hint : (cntOf p).toInt = p.insns.length := by
    rw [BitVec.toInt_eq_toNat_of_lt (by omega), hnat]
  have hbuffer := hexBytes_bufferToHexString (insnBytes p.insns)
  rw [length_insnBytes] at hbuffer
  rw [importProg_exported, if_neg (by omega), hnat, length_bufferToHexString, length_insnBytes, if_neg (by simp)]
  simp only [hbuffer, insnsOf_insnBytes, cStr_bytes, BitVec.ofInt_toInt]

theorem import_long_prog (hlen : ¬ p.insns.length < 2 ^ 31) :
    (importHandler env (handlerToJson (.prog p)) fd).ops = [] ∧
      (importHandler env (handlerToJson (.prog p)) fd).ending ≠ .done := by
  rw [importProg_exported]
  split_ifs with hneg hsize
  · exact ⟨rfl, by simp⟩
  · exact ⟨rfl, by simp⟩
  · rw [length_bufferToHexString, length_insnBytes] at hsize
    have hsmall : (cntOf p).toNat < 2 ^ 31 := by
      have := BitVec.toInt_eq_toNat_cond (cntOf p)
      split at this <;> omega
    omega

theorem jsonToAttr_attrToJson (attr : MapAttr) :
    jsonToAttr (attrToJson attr) = some { attr with gpuThreadCount := 1024 } := by
  have hcut : ∀ {w : Nat} (x : BitVec w), BitVec.ofInt w (x.toNat : Int) = x := by
    intro w x
    rw [BitVec.ofInt_natCast, BitVec.ofNat_toNat, BitVec.setWidth_eq]
  have hread : jsonToAttr (attrToJson attr) = some
      ⟨BitVec.ofInt 32 attr.type.toInt, BitVec.ofInt 32 attr.keySize.toNat, BitVec.ofInt 32 attr.valueSize.toNat,
        BitVec.ofInt 32 attr.maxEnts.toNat, BitVec.ofInt 64 attr.flags.toNat, BitVec.ofInt 32 attr.ifindex.toNat,
        BitVec.ofInt 32 attr.btfVmlinuxValueTypeId.toNat, BitVec.ofInt 32 attr.btfId.toNat,
        BitVec.ofInt 32 attr.btfKeyTypeId.toNat, BitVec.ofInt 32 attr.btfValueTypeId.toNat,
        BitVec.ofInt 64 attr.mapExtra.toNat, BitVec.ofInt 32 attr.kernelBpfMapId.toNat, 1024⟩ := rfl
  simp only [hread, BitVec.ofInt_toInt, hcut]

theorem import_map (m : MapHandler) :
    importHandler env (handlerToJson (.map m)) fd =
      ⟨[.addBpfMap fd 0 m.name { m.attr with gpuThreadCount := 1024 }], .done⟩ := by
  have hdispatch : importHandler env (handlerToJson (.map m)) fd = importMap (handlerToJson (.map m)) fd := rfl
  have hattr : (handlerToJson (.map m)).field "attr" = some (attrToJson m.attr) := rfl
  have hname : (handlerToJson (.map m)).text "name" = some m.name.bytes := rfl
  rw [hdispatch, importMap]
  simp only [hattr, hname, Option.bind_eq_bind, Option.bind_some, Option.pure_def, jsonToAttr_attrToJson, cStr_bytes]

theorem import_link (l : LinkHandler) :
    importHandler env (handlerToJson (.link l)) fd =
      ⟨[.addBpfLink fd 0 ⟨l.progId, l.attachTargetId, 0, 0⟩], .done⟩ := by
  show Import.mk [.addBpfLink fd 0 ⟨BitVec.ofInt 32 l.progId.toInt, BitVec.ofInt 32 l.attachTargetId.toInt, 0, 0⟩]
    .done = _
  rw [BitVec.ofInt_toInt, BitVec.ofInt_toInt]

theorem import_epoll : importHandler env (handlerToJson .epoll) fd = ⟨[.addEpoll fd 0], .done⟩ := rfl

theorem import_memfd (flags : CInt) (name : CString) :
    importHandler env (handlerToJson (.memfd flags name)) fd = ⟨[], .failed⟩ := rfl

/-- The calls that switch a new event on. -/
def enableOps (enabled : Bool) : List Op := if enabled then [.perfEventEnable fd true] else []

theorem import_tracepoint (enabled : Bool) (pid tracepointId : CInt) :
    importHandler env (handlerToJson (.perfEvent ⟨TRACEPOINT, enabled, .tracepoint pid tracepointId⟩)) fd =
      ⟨.addTracepoint fd 0 pid tracepointId :: enableOps fd enabled, .done⟩ := by
  show Import.mk (.addTracepoint fd 0 (BitVec.ofInt 32 pid.toInt) (BitVec.ofInt 32 tracepointId.toInt) ::
    enableOps fd enabled) .done = _
  rw [BitVec.ofInt_toInt, BitVec.ofInt_toInt]

variable (enabled : Bool) (pid : CInt) (name : CString) (offset refCtrOff : BitVec 64)

theorem import_uprobe (retprobe : Bool) :
    importHandler env (handlerToJson
        (.perfEvent ⟨if retprobe then URETPROBE else UPROBE, enabled, .uprobe offset pid refCtrOff name⟩)) fd =
      ⟨.addUprobe fd 0 pid name (widen (offset.setWidth 32)) retprobe (widen (refCtrOff.setWidth 32)) ::
        enableOps fd enabled, .done⟩ := by
  trans Import.mk (.addUprobe fd 0 (BitVec.ofInt 32 pid.toInt) (cStr name.bytes) (widen (BitVec.ofInt 32 offset.toNat))
    retprobe (widen (BitVec.ofInt 32 refCtrOff.toNat)) :: enableOps fd enabled) .done
  · cases retprobe <;> rfl
  · rw [BitVec.ofInt_toInt, cStr_bytes, BitVec.ofInt_natCast, BitVec.ofInt_natCast, BitVec.ofNat_toNat,
      BitVec.ofNat_toNat]

theorem import_override :
    importHandler env (handlerToJson (.perfEvent ⟨UPROBE_OVERRIDE, enabled, .uprobe offset pid refCtrOff name⟩)) fd =
      ⟨.addUprobeOverride fd 0 pid name (widen (offset.setWidth 32)) false :: enableOps fd enabled, .done⟩ := by
  show Import.mk (.addUprobeOverride fd 0 (BitVec.ofInt 32 pid.toInt) (cStr name.bytes)
    (widen (BitVec.ofInt 32 offset.toNat)) false :: enableOps fd enabled) .done = _
  rw [BitVec.ofInt_toInt, cStr_bytes, BitVec.ofInt_natCast, BitVec.ofNat_toNat]

set_option maxRecDepth 4000 in
theorem import_ureplace :
    importHandler env (handlerToJson (.perfEvent ⟨UREPLACE, enabled, .uprobe offset pid refCtrOff name⟩)) fd =
      ⟨[], .failed⟩ := rfl

end Calls

/-! ## What the calls put into a free slot -/

/-- The slot is filled with a handler, up to the implementation of a map, and no other
slot changes. -/
structure Filled (t t' : Shm) (fd : CInt) (h : Handler) : Prop where
  self : ∃ h', t'.slot fd = some h' ∧ SameKind h h'
  other : ∀ fd', fd' ≠ fd → t'.slot fd' = t.slot fd'

/-- An event as the import makes it, where it makes one. -/
def importedEvent (e : PerfEventHandler) : Option PerfEventHandler :=
  match e.data with
  | .uprobe offset pid refCtrOff name =>
    if e.type = UPROBE ∨ e.type = URETPROBE then
      some ⟨e.type, e.enabled, .uprobe (widen (offset.setWidth 32)) pid (widen (refCtrOff.setWidth 32)) name⟩
    else if e.type = UPROBE_OVERRIDE then some ⟨e.type, true, .uprobe (widen (offset.setWidth 32)) pid 0 name⟩
    else none
  | .tracepoint _ _ => some e
  | .software _ _ _ | .custom _ | .kprobe _ _ _ => none

/-- A handler as the import makes it. -/
def imported (found fd : CInt) : Handler → Option Handler
  | .prog p => if p.insns.length < 2 ^ 31 then some (.prog ⟨found, p.insns, p.name⟩) else none
  | .map m => some (.map (newMap fd m.name { m.attr with gpuThreadCount := 1024 }))
  | .perfEvent e => (importedEvent e).map .perfEvent
  | .link l => some (.link (linkOfArgs ⟨l.progId, l.attachTargetId, 0, 0⟩))
  | .epoll => some .epoll
  | .memfd _ _ | .unused => none

variable {e : PerfEventHandler}

section Slots

variable {c : Config} {env : Env} {t : Shm} {fd : CInt} {h : Handler}

theorem orFake_of_slot (hs : t.slot fd = some h) (fake : CInt) : orFake fd fake = fd :=
  if_neg (by have := (slot_eq_some hs).1; omega)

section

variable (hs : t.slot fd = some .unused)
include hs

theorem filled_put (hmap : ∀ m, h ≠ .map m) : Filled t (t.put fd h) fd h where
  self := ⟨h, slot_put_self hs h, by cases h <;> first | rfl | exact absurd rfl (hmap _)⟩
  other _ hne := slot_put_of_ne hne _

theorem add_put (hne : h ≠ .unused) (hmap : ∀ m, h ≠ .map m) :
    (t.add c (orFake fd 0) h).map Prod.snd = some (t.put fd h) := by
  have hstore : t.store c fd h = t.put fd h := by
    cases h <;> first | rfl | exact absurd rfl (hmap _)
  rw [orFake_of_slot hs, add, setHandler_free hs hne, Option.map_some, Option.map_some, hstore]

theorem runOps_add {op : Op} (hne : h ≠ .unused) (hmap : ∀ m, h ≠ .map m)
    (hop : call c t op = t.add c (orFake fd 0) h) : ∃ t', runOps c t [op] = some t' ∧ Filled t t' fd h := by
  have hstep : step c t op = some (t.put fd h) := by rw [step, hop, add_put hs hne hmap]
  exact ⟨_, by rw [runOps, hstep]; rfl, filled_put hs hmap⟩

end

theorem runOps_event (op : Op) (hs : t.slot fd = some .unused) (enabled : Bool)
    (hop : call c t op = t.add c (orFake fd 0) (.perfEvent e)) :
    ∃ t', runOps c t (op :: enableOps fd enabled) = some t' ∧
      Filled t t' fd (.perfEvent { e with enabled := e.enabled || enabled }) := by
  have hstep : step c t op = some (t.put fd (.perfEvent e)) := by rw [step, hop, add_put hs (by simp) (by simp)]
  have hself := slot_put_self hs (.perfEvent e)
  cases enabled with
  | false =>
    rw [Bool.or_false]
    exact ⟨_, by rw [runOps, hstep]; rfl, filled_put hs (by simp)⟩
  | true =>
    refine ⟨(t.put fd (.perfEvent e)).put fd (.perfEvent { e with enabled := true }), ?_,
      ⟨_, slot_put_self hself _, ?_⟩, ?_⟩
    · rw [runOps, hstep, enableOps, if_pos rfl, Option.bind_some, runOps, step, call, perfEventEnable, hself]
      rfl
    · rw [Bool.or_true]
      rfl
    · intro fd' hne
      rw [slot_put_of_ne hne, slot_put_of_ne hne]

theorem runOps_map {name : CString} {attr : MapAttr} (hs : t.slot fd = some .unused) :
    ∃ t', runOps c t [.addBpfMap fd 0 name attr] = some t' ∧ Filled t t' fd (.map (newMap fd name attr)) := by
  have hstep : step c t (.addBpfMap fd 0 name attr) = some (t.store c fd (.map (newMap fd name attr))) := by
    simp only [step, call, addBpfMap, orFake_of_slot hs, hs, if_true, add,
      setHandler_free hs (by simp : Handler.map _ ≠ _),
      Option.map_some]
  refine ⟨_, by rw [runOps, hstep]; rfl, slot_store_self c hs _, ?_⟩
  intro fd' hne
  exact slot_store_of_ne c hne _

theorem runOps_link {args : LinkArgs} (hs : t.slot fd = some .unused) (hprog : t.isProgFd args.progFd)
    (htype : args.attachType ≠ perfEventAttachType) :
    ∃ t', runOps c t [.addBpfLink fd 0 args] = some t' ∧ Filled t t' fd (.link (linkOfArgs args)) := by
  refine runOps_add hs (by simp) (by simp) ?_
  rw [call, addBpfLink, if_neg (by simp [hprog]), if_neg (by simp [htype])]

/-- What an import does with a free slot, by the handler that it makes. -/
inductive Landing (c : Config) (t : Shm) (fd : CInt) (i : Import) : Option Handler → Prop where
  | filled {h : Handler} {t' : Shm} (hend : i.ending = .done) (hrun : runOps c t i.ops = some t')
      (hfilled : Filled t t' fd h) : Landing c t fd i (some h)
  | stopped (hend : i.ending ≠ .done) (hops : i.ops = []) : Landing c t fd i none

theorem landing_of_run {ops : List Op} (hrun : ∃ t', runOps c t ops = some t' ∧ Filled t t' fd h) :
    Landing c t fd ⟨ops, .done⟩ (some h) := by
  obtain ⟨t', hrun, hfilled⟩ := hrun
  exact .filled rfl hrun hfilled

theorem uprobe_type {type : CInt} {enabled : Bool} {offset refCtrOff : BitVec 64} {pid : CInt} {name : CString}
    (he : WellTyped ⟨type, enabled, .uprobe offset pid refCtrOff name⟩) :
    (∃ retprobe : Bool, type = if retprobe then URETPROBE else UPROBE) ∨ type = UPROBE_OVERRIDE ∨ type = UREPLACE := by
  obtain htype | htype | ⟨htype, _⟩ := he
  · exact .inl ⟨false, htype⟩
  · exact .inl ⟨true, htype⟩
  · exact .inr htype

theorem landing_event (hs : t.slot fd = some .unused) (he : WellTyped e) :
    Landing c t fd (importHandler env (handlerToJson (.perfEvent e)) fd) ((importedEvent e).map .perfEvent) := by
  obtain ⟨type, enabled, data⟩ := e
  cases data with
  | tracepoint pid tracepointId =>
    obtain rfl : type = TRACEPOINT := he
    rw [import_tracepoint]
    have hrun := runOps_event (c := c) (.addTracepoint fd 0 pid tracepointId) hs enabled rfl
    exact landing_of_run hrun
  | uprobe offset pid refCtrOff name =>
    obtain ⟨retprobe, rfl⟩ | rfl | rfl := uprobe_type he
    · rw [import_uprobe]
      have hrun := runOps_event (c := c) (.addUprobe fd 0 pid name (widen (offset.setWidth 32)) retprobe
        (widen (refCtrOff.setWidth 32))) hs enabled rfl
      cases retprobe <;> exact landing_of_run hrun
    · rw [import_override]
      have hrun := runOps_event (c := c) (.addUprobeOverride fd 0 pid name (widen (offset.setWidth 32)) false)
        hs enabled rfl
      exact landing_of_run hrun
    · rw [import_ureplace]
      exact .stopped (by simp) rfl
  | software cpu config sampleType | custom arg | kprobe name addr refCtrOff =>
    -- these alternatives are exported without a pid
    exact .stopped (show Ending.thrown ≠ .done by simp) rfl

theorem landing (hs : t.slot fd = some .unused) (hne : h ≠ .unused) (htyped : ∀ e, h = .perfEvent e → WellTyped e)
    (hlink : ∀ l, h = .link l → t.isProgFd l.progId) :
    Landing c t fd (importHandler env (handlerToJson h) fd) (imported (env.found fd) fd h) := by
  cases h with
  | unused => exact absurd rfl hne
  | perfEvent e => exact landing_event hs (htyped e rfl)
  | map m =>
    rw [import_map]
    exact landing_of_run (runOps_map hs)
  | link l =>
    rw [import_link]
    exact landing_of_run (runOps_link hs (hlink l rfl) (by simp [perfEventAttachType]))
  | epoll =>
    rw [import_epoll]
    exact landing_of_run (runOps_add hs (by simp) (by simp) rfl)
  | memfd flags name =>
    rw [import_memfd]
    exact .stopped (by simp) rfl
  | prog p =>
    by_cases hlen : p.insns.length < 2 ^ 31
    · rw [import_prog env fd hlen, imported, if_pos hlen]
      exact landing_of_run (runOps_add hs (by simp) (by simp) rfl)
    · obtain ⟨hops, hend⟩ := import_long_prog env fd hlen
      rw [imported, if_neg hlen]
      exact .stopped hend hops

end Slots

/-! ## Which handlers come back -/

theorem hexDigit_lt : ∀ d < 16, (hexDigit d).toNat < 128 := by decide

theorem validUtf8_bufferToHexString (buffer : List UInt8) : validUtf8 (bufferToHexString buffer) := by
  apply validUtf8_of_ascii
  intro d hd
  obtain ⟨b, _, hmem⟩ := List.mem_flatMap.mp hd
  have hb := b.toNat_lt
  rw [hexByte, List.mem_pair] at hmem
  obtain rfl | rfl := hmem
  · exact hexDigit_lt _ (by omega)
  · exact hexDigit_lt _ (by omega)

theorem sameHandler_congr {h h' h'' : Handler} (hkind : SameKind h' h'') : SameHandler h h'' ↔ SameHandler h h' := by
  cases h' with
  | map m' =>
    cases h'' with
    | map m'' =>
      obtain ⟨_, hname, hattr⟩ := hkind
      cases h with
      | map m => simp only [SameHandler, hname, hattr]
      | _ => exact Iff.rfl
    | _ => cases hkind
  | _ =>
    obtain rfl := hkind
    exact Iff.rfl

/-- The handler is dumped, and the import makes the same again. -/
def Restored (found fd : CInt) (h : Handler) : Prop :=
  (handlerToJson h).dumps ∧ ∃ h', imported found fd h = some h' ∧ SameHandler h h'

section Restored

variable {found fd : CInt} {h h' : Handler}

theorem restored_of_some (himported : imported found fd h = some h') :
    Restored found fd h ↔ (handlerToJson h).dumps ∧ SameHandler h h' := by
  simp only [Restored, himported, Option.some.injEq, exists_eq_left']

theorem not_restored (himported : imported found fd h = none) : ¬ Restored found fd h := by
  rintro ⟨_, h', hsome, _⟩
  rw [himported] at hsome
  cases hsome

theorem dumps_eq (h : Handler) : (handlerToJson h).dumps =
    match h with
    | .prog ⟨_, _, name⟩ | .map ⟨_, name, _, _, _⟩ | .perfEvent ⟨_, _, .uprobe _ _ _ name⟩ | .memfd _ name =>
      validUtf8 name.bytes
    | _ => true := by
  rcases h with _ | _ | _ | _ | ⟨_, _, _ | _ | _ | _ | _⟩ | _ | _ <;>
    simp [handlerToJson, attrToJson, perfAttrToJson, dataFields, Json.dumps, Json.dumpsFields, validUtf8_ascii,
      validUtf8_bufferToHexString]

theorem restored_prog : Restored found fd (.prog p) ↔ Survives found (.prog p) := by
  by_cases hlen : p.insns.length < 2 ^ 31
  · have himported : imported found fd (.prog p) = some (.prog ⟨found, p.insns, p.name⟩) := if_pos hlen
    rw [restored_of_some himported, dumps_eq]
    constructor
    · rintro ⟨hname, hsame⟩
      exact ⟨congrArg ProgHandler.type hsame, hlen, hname⟩
    · rintro ⟨rfl, _, hname⟩
      exact ⟨hname, rfl⟩
  · exact iff_of_false (not_restored (if_neg hlen)) fun h => hlen h.2.1

theorem restored_map {m : MapHandler} : Restored found fd (.map m) ↔ Survives found (.map m) := by
  rw [restored_of_some rfl, dumps_eq]
  constructor
  · rintro ⟨hname, _, hattr⟩
    exact ⟨(congrArg MapAttr.gpuThreadCount hattr).symm, hname⟩
  · rintro ⟨hgpu, hname⟩
    refine ⟨hname, rfl, ?_⟩
    rw [← hgpu]
    rfl

theorem restored_link {l : LinkHandler} : Restored found fd (.link l) ↔ Survives found (.link l) := by
  rw [restored_of_some rfl]
  constructor
  · rintro ⟨_, _, _, hcookie⟩
    exact hcookie.symm
  · intro hcookie
    exact ⟨dumps_eq (.link l), rfl, rfl, Eq.symm hcookie⟩

theorem restored_uprobe {type : CInt} {enabled : Bool} {offset refCtrOff : BitVec 64} {pid : CInt} {name : CString}
    (he : WellTyped ⟨type, enabled, .uprobe offset pid refCtrOff name⟩) :
    Restored found fd (.perfEvent ⟨type, enabled, .uprobe offset pid refCtrOff name⟩) ↔
      Survives found (.perfEvent ⟨type, enabled, .uprobe offset pid refCtrOff name⟩) := by
  by_cases hprobe : type = UPROBE ∨ type = URETPROBE
  · have hover : type ≠ UPROBE_OVERRIDE := by
      obtain rfl | rfl := hprobe <;> decide
    have himported :
      imported found fd (.perfEvent ⟨type, enabled, .uprobe offset pid refCtrOff name⟩) = some (.perfEvent
        ⟨type, enabled, .uprobe (widen (offset.setWidth 32)) pid (widen (refCtrOff.setWidth 32)) name⟩) :=
      congrArg (Option.map _) (if_pos hprobe)
    rw [restored_of_some himported, dumps_eq]
    simp [SameHandler, Survives, FitsInt, hprobe, hover]
  · by_cases hover : type = UPROBE_OVERRIDE
    · have hzero : refCtrOff = 0 := by
        obtain htype | htype | ⟨_, hzero⟩ := he
        · exact absurd (.inl htype) hprobe
        · exact absurd (.inr htype) hprobe
        · exact hzero
      have himported : imported found fd (.perfEvent ⟨type, enabled, .uprobe offset pid refCtrOff name⟩) =
          some (.perfEvent ⟨type, true, .uprobe (widen (offset.setWidth 32)) pid 0 name⟩) :=
        congrArg (Option.map _) ((if_neg hprobe).trans (if_pos hover))
      rw [restored_of_some himported, dumps_eq]
      constructor
      · rintro ⟨hname, hsame⟩
        obtain ⟨_, henabled, hdata⟩ := PerfEventHandler.mk.inj hsame
        exact ⟨hname, (PerfEventData.uprobe.inj hdata).1, .inr ⟨hover, henabled.symm⟩⟩
      · rintro ⟨hname, hoffset, ⟨htype, _⟩ | ⟨_, henabled⟩⟩
        · exact absurd htype hprobe
        · refine ⟨hname, ?_⟩
          obtain rfl : enabled = true := henabled
          rw [SameHandler, hoffset, hzero]
    · have himported : importedEvent ⟨type, enabled, .uprobe offset pid refCtrOff name⟩ = none :=
        (if_neg hprobe).trans (if_neg hover)
      refine iff_of_false (not_restored (congrArg (Option.map _) himported)) ?_
      rintro ⟨_, _, ⟨htype, _⟩ | ⟨htype, _⟩⟩
      · exact hprobe htype
      · exact hover htype

theorem restored_event (he : WellTyped e) : Restored found fd (.perfEvent e) ↔ Survives found (.perfEvent e) := by
  obtain ⟨type, enabled, data⟩ := e
  cases data with
  | uprobe offset pid refCtrOff name => exact restored_uprobe he
  | tracepoint pid tracepointId =>
    rw [restored_of_some rfl, dumps_eq]
    exact iff_of_true ⟨rfl, rfl⟩ trivial
  | software cpu config sampleType | custom arg | kprobe name addr refCtrOff => exact iff_of_false (not_restored rfl) id

end Restored

theorem restored_iff {found fd : CInt} {h : Handler} (hne : h ≠ .unused)
    (htyped : ∀ e, h = .perfEvent e → WellTyped e) :
    Restored found fd h ↔ Survives found h := by
  cases h with
  | unused => exact absurd rfl hne
  | prog p => exact restored_prog
  | map m => exact restored_map
  | link l => exact restored_link
  | perfEvent e => exact restored_event (htyped e rfl)
  | epoll =>
    have himported : imported found fd .epoll = some .epoll := rfl
    exact iff_of_true ((restored_of_some himported).mpr ⟨dumps_eq .epoll, trivial⟩) trivial
  | memfd flags name => exact iff_of_false (not_restored rfl) id

/-! ## The two entry points -/

/-- What a caller gets of an import: the return code and the table. An exception gives no code. -/
def returned (r : Option (Ending × Shm)) : Option (Int × List Handler) :=
  r.bind fun (ending, s) =>
    match ending with
    | .done => some (0, s.handlers)
    | .failed => some (-1, s.handlers)
    | .thrown => none

theorem importShm_single (c : Config) (env : Env) (s : Shm) {key : NumberStrings.Str} {fd : CInt}
    (hkey : stoi key = some fd.toInt)
    (j : Json) : importShm c env s [(key, j)] =
      (runOps c (clearAll s) (importHandler env j fd).ops).map fun t => ((importHandler env j fd).ending, t) := by
  have hitems : sortedItems [(key, j)] = some [(fd, j)] := by
    simp [sortedItems, hkey, BitVec.ofInt_toInt]
  have hpass : ∀ t, importItems c env [(fd, j)] t =
      (runOps c t (importHandler env j fd).ops).map fun t => ((importHandler env j fd).ending, t) := by
    intro t
    rw [importItems]
    cases runOps c t (importHandler env j fd).ops with
    | none => rfl
    | some t =>
      simp only [Option.bind_some, Option.map_some, importItems]
      split
      · next hdone => rw [hdone]
      · rfl
  unfold importShm
  simp only [hitems]
  -- the handler is imported in one of the two passes
  cases hlink : isLinkItem (fd, j) with
  | true =>
    simp only [List.filter_cons, hlink, Bool.not_true, Bool.false_eq_true, if_false, if_true, List.filter_nil,
      importItems,
      Option.bind_some]
    rw [← hpass]
    rfl
  | false =>
    simp only [List.filter_cons, hlink, Bool.not_false, Bool.false_eq_true, if_false, if_true, List.filter_nil, hpass]
    cases runOps c (clearAll s) (importHandler env j fd).ops with
    | none => rfl
    | some t =>
      simp only [Option.map_some, Option.bind_some, importItems]
      split
      · next hdone => rw [hdone]
      · rfl

/-- A value that is no integer is not converted to an fd, and an fd has no fields. -/
theorem importShmHandler_thrown (c : Config) (env : Env) (s : Shm) (fd : CInt) (j : Json) :
    importShmHandler c env s fd j = some (.thrown, s) := by
  unfold importShmHandler
  cases j.toBits 32 with
  | none | some fd' => rfl

theorem importShm_handler {c : Config} {env : Env} {s : Shm} {key : NumberStrings.Str} {fd : CInt}
    (hkey : stoi key = some fd.toInt) (hs : (clearAll s).slot fd = some .unused) {h h' : Handler}
    (htyped : ∀ e, h = .perfEvent e → WellTyped e) (hlink : ∀ l, h ≠ .link l)
    (himported : imported (env.found fd) fd h = some h') :
    ∃ t, importShm c env s [(key, handlerToJson h)] = some (.done, t) ∧ Filled (clearAll s) t fd h' := by
  have hne : h ≠ .unused := by
    rintro rfl
    cases himported
  have hland : Landing c (clearAll s) fd (importHandler env (handlerToJson h) fd) (imported (env.found fd) fd h) :=
    landing hs hne htyped fun l hl => absurd hl (hlink l)
  rw [himported] at hland
  rw [importShm_single c env s hkey]
  cases hland with
  | filled hend hrun hfilled => exact ⟨_, by rw [hrun, hend]; rfl, hfilled⟩

/-- No return code and table come from both entry points, whatever the value is. For a handler that
is no link, the file gives 0 and the handler as the import makes it. -/
theorem entry_points_never_agree (c : Config) (env : Env) (s : Shm) {key : NumberStrings.Str} {fd : CInt}
    (hkey : stoi key = some fd.toInt) :
    (∀ j, ¬ ∃ r, returned (importShmHandler c env s fd j) = some r ∧ returned (importShm c env s [(key, j)]) = some r) ∧
      ((clearAll s).slot fd = some .unused → ∀ h h', (∀ e, h = .perfEvent e → WellTyped e) → (∀ l, h ≠ .link l) →
        imported (env.found fd) fd h = some h' → ∃ t, Filled (clearAll s) t fd h' ∧
          returned (importShm c env s [(key, handlerToJson h)]) = some (0, t.handlers)) := by
  constructor
  · rintro j ⟨r, hsingle, -⟩
    rw [importShmHandler_thrown] at hsingle
    cases hsingle
  · intro hs h h' htyped hlink himported
    obtain ⟨t, himport, hfilled⟩ := importShm_handler (c := c) hkey hs htyped hlink himported
    exact ⟨t, hfilled, by rw [himport]; rfl⟩

/-- Storage with zeros, and no fd for links. -/
def plainEnv : Env := ⟨fun _ => 0, fun _ _ => -1⟩

/-- An epoll handler, imported into an empty table. -/
theorem entry_points_never_agree_epoll :
    ∃ t, Filled (clearAll (create 4)) t 3 .epoll ∧
      returned (importShm defaultConfig plainEnv (create 4) [(['3'], handlerToJson .epoll)]) = some (0, t.handlers) :=
  (entry_points_never_agree defaultConfig plainEnv (create 4) (by decide)).2 (by decide) .epoll .epoll (by simp)
    (by simp) rfl

/-- A handler that the file brings into the table makes the other entry point throw. -/
theorem single_import_throws :
    importShmHandler defaultConfig plainEnv (create 4) 3 (handlerToJson .epoll) = some (.thrown, create 4) ∧
      returned (importShm defaultConfig plainEnv (create 4) [(['3'], handlerToJson .epoll)]) =
        some (0, [.unused, .unused, .unused, .epoll]) := by
  refine ⟨importShmHandler_thrown .., ?_⟩
  have hkey : stoi ['3'] = some (3 : CInt).toInt := by decide
  rw [importShm_single defaultConfig plainEnv (create 4) hkey, import_epoll]
  decide

end ShmJson
