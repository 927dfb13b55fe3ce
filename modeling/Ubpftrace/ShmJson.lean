import Mathlib.Data.List.Sort
import Ubpftrace.HandlerTable
import Ubpftrace.JsonValue
import Ubpftrace.NumberStrings

/-!
# Export and import of the handler table

`bpftime_shm_json.cpp` writes one JSON object for each allocated fd, and builds a table
again from such a file with the public operations of the shared memory: first all that
is not a link, then the links. The two directions are written apart from each other.
-/

namespace ShmJson

open HandlerTable
open HandlerTable.EventType
open Bytes (le readLe ofList)
open JsonValue (Json ascii)
open NumberStrings (Str toStr stoi)

/-! ## Buffers as hexadecimal strings -/

def hexDigit (d : Nat) : UInt8 := UInt8.ofNat (if d < 10 then 48 + d else 87 + d)

def hexByte (b : UInt8) : List UInt8 := [hexDigit (b.toNat / 16), hexDigit (b.toNat % 16)]

def bufferToHexString (buffer : List UInt8) : List UInt8 := buffer.flatMap hexByte

def hexValue (b : UInt8) : Option Nat :=
  if 48 ≤ b ∧ b ≤ 57 then some (b.toNat - 48)
  else if 97 ≤ b ∧ b ≤ 102 then some (b.toNat - 87)
  else if 65 ≤ b ∧ b ≤ 70 then some (b.toNat - 55)
  else none

def isSpace (b : UInt8) : Bool := b = 32 ∨ 9 ≤ b ∧ b ≤ 13

/-- `std::stoi` with the base 16, of a string too short to be out of range. -/
def stoi16 (s : List UInt8) : Option Int :=
  let (negative, s) :=
    match s.dropWhile isSpace with
    | 45 :: s => (true, s)
    | 43 :: s => (false, s)
    | s => (false, s)
  let s :=
    match s with
    | 48 :: x :: d :: rest => if (x = 120 ∨ x = 88) ∧ (hexValue d).isSome then d :: rest else s
    | _ => s
  let digits := (s.takeWhile fun b => (hexValue b).isSome).filterMap hexValue
  let n : Int := digits.foldl (fun n d => 16 * n + d) 0
  if digits = [] then none else some (if negative then -n else n)

/-- The loop of `hex_string_to_buffer`, without a buffer where it throws. -/
def hexBytes : Nat → List UInt8 → Option (List UInt8)
  | 0, _ => some []
  | n + 1, hex =>
    (stoi16 (hex.take 2)).bind fun b => (hexBytes n (hex.drop 2)).map (UInt8.ofInt b :: ·)

/-! ## The export -/

def attrToJson (attr : MapAttr) : Json :=
  .obj [("map_type", .num attr.type.toInt), ("key_size", .num attr.keySize.toNat),
    ("value_size", .num attr.valueSize.toNat), ("max_entries", .num attr.maxEnts.toNat),
    ("flags", .num attr.flags.toNat), ("ifindex", .num attr.ifindex.toNat),
    ("btf_vmlinux_value_type_id", .num attr.btfVmlinuxValueTypeId.toNat), ("btf_id", .num attr.btfId.toNat),
    ("btf_key_type_id", .num attr.btfKeyTypeId.toNat), ("btf_value_type_id", .num attr.btfValueTypeId.toNat),
    ("map_extra", .num attr.mapExtra.toNat), ("kernel_bpf_map_id", .num attr.kernelBpfMapId.toNat)]

/-- The fields for the alternatives of the data. Two of them have none. -/
def dataFields : PerfEventData → List (String × Json)
  | .uprobe offset pid refCtrOff moduleName =>
    [("data_type", .str (ascii "uprobe_perf_event_data")), ("offset", .num offset.toNat), ("pid", .num pid.toInt),
      ("ref_ctr_off", .num refCtrOff.toNat), ("_module_name", .str moduleName.bytes)]
  | .tracepoint pid tracepointId =>
    [("data_type", .str (ascii "tracepoint_perf_event_data")), ("pid", .num pid.toInt),
      ("tracepoint_id", .num tracepointId.toInt)]
  | .software cpu config sampleType =>
    [("data_type", .str (ascii "software_perf_event_shared_ptr")), ("cpu", .num cpu.toInt),
      ("config", .num config.toInt), ("sample_type", .num sampleType.toInt)]
  | .custom _ | .kprobe _ _ _ => []

/-- `bpf_perf_event_handler_attr_to_json`. -/
def perfAttrToJson (e : PerfEventHandler) : Json := .obj (("type", .num e.type.toInt) :: dataFields e.data)

/-- The instructions as they stand in memory. -/
def insnBytes (insns : List (BitVec 64)) : List UInt8 := insns.flatMap fun insn => le 8 insn.toNat

def handlerToJson : Handler → Json
  | .prog p =>
    .obj [("type", .str (ascii "bpf_prog_handler")),
      ("attr", .obj [("type", .num p.type.toInt), ("insns", .str (bufferToHexString (insnBytes p.insns))),
        ("cnt", .num p.insns.length)]),
      ("name", .str p.name.bytes)]
  | .map m =>
    .obj [("type", .str (ascii "bpf_map_handler")), ("name", .str m.name.bytes), ("attr", attrToJson m.attr)]
  | .perfEvent e =>
    .obj [("type", .str (ascii "bpf_perf_event_handler")), ("attr", perfAttrToJson e), ("enabled", .bool e.enabled)]
  | .epoll => .obj [("type", .str (ascii "epoll_handler"))]
  | .link l =>
    .obj [("type", .str (ascii "bpf_link_handler")),
      ("attr", .obj [("prog_fd", .num l.progId.toInt), ("target_fd", .num l.attachTargetId.toInt)])]
  | .memfd flags name =>
    .obj [("type", .str (ascii "memfd_handler")),
      ("attr", .obj [("flags", .num flags.toInt), ("name", .str name.bytes)])]
  | .unused => .null

/-- The fields of the document, by the fd in decimal. -/
abbrev Document := List (Str × Json)

/-- The allocated fds and what they hold. -/
def allocated (s : Shm) : List (Nat × Handler) :=
  s.handlers.zipIdx.filterMap fun p => if p.1 = .unused then none else some (p.2, p.1)

/-- `bpftime_export_shm_to_json`, without a document where `dump` throws. -/
def exportShm (s : Shm) : Option Document :=
  let doc := (allocated s).map fun p => (toStr p.1, handlerToJson p.2)
  if doc.all fun f => f.2.dumps then some doc else none

/-! ## The import -/

/-- How an import ends: it goes on, it returns -1, or it leaves by an exception. -/
inductive Ending where
  | done
  | failed
  | thrown
  deriving DecidableEq

/-- The calls that an import makes, and how it ends. -/
structure Import where
  ops : List Op
  ending : Ending

/-- What the import of a program meets: what the storage of its `type` holds, and the fds
that `open_fake_fd` returns for its links. -/
structure Env where
  found : CInt → CInt
  fake : CInt → Nat → CInt

def jsonToAttr (j : Json) : Option MapAttr := do
  let type ← j.bits 32 "map_type"
  let keySize ← j.bits 32 "key_size"
  let valueSize ← j.bits 32 "value_size"
  let maxEnts ← j.bits 32 "max_entries"
  let flags ← j.bits 64 "flags"
  let ifindex ← j.bits 32 "ifindex"
  let btfVmlinuxValueTypeId ← j.bits 32 "btf_vmlinux_value_type_id"
  let btfId ← j.bits 32 "btf_id"
  let btfKeyTypeId ← j.bits 32 "btf_key_type_id"
  let btfValueTypeId ← j.bits 32 "btf_value_type_id"
  let mapExtra ← j.bits 64 "map_extra"
  let kernelBpfMapId ← j.bits 32 "kernel_bpf_map_id"
  -- the default of `gpu_thread_count` stays
  return { type, keySize, valueSize, maxEnts, flags, ifindex, btfVmlinuxValueTypeId, btfId, btfKeyTypeId,
           btfValueTypeId, mapExtra, kernelBpfMapId }

/-- The instructions that stand in a buffer. -/
def insnsOf : Nat → List UInt8 → List (BitVec 64)
  | 0, _ => []
  | n + 1, bytes => BitVec.ofNat 64 (readLe (ofList bytes) 0 8) :: insnsOf n (bytes.drop 8)

/-- The calls for the `attach_fds` of a program, up to one that is not a number. -/
def attachOps (env : Env) (fd : CInt) : Nat → List Json → Import
  | _, [] => ⟨[], .done⟩
  | i, j :: js =>
    match j.toBits 32 with
    | none => ⟨[], .thrown⟩
    | some perfFd =>
      let rest := attachOps env fd (i + 1) js
      ⟨.addBpfProgAttachTarget perfFd fd none (env.fake fd i) :: rest.ops, rest.ending⟩

/-- The elements that a loop over a value sees. -/
def elements : Json → List Json
  | .null => []
  | .arr elems => elems
  | .obj fields => fields.map Prod.snd
  | j => [j]

def importProg (env : Env) (value : Json) (fd : CInt) : Import :=
  let parsed : Option (Json × List UInt8 × List UInt8 × CInt × CInt) := do
    let attr ← value.field "attr"
    let insns ← attr.text "insns"
    let name ← value.text "name"
    let type ← attr.bits 32 "type"
    let cnt ← attr.bits 32 "cnt"
    return (attr, insns, name, type, cnt)
  match parsed with
  | none => ⟨[], .thrown⟩
  | some (attr, insns, name, type, cnt) =>
    -- `resize` throws
    if cnt.toInt < 0 then ⟨[], .thrown⟩
    else if insns.length ≠ cnt.toNat * 8 * 2 then ⟨[], .failed⟩
    else
      match hexBytes (cnt.toNat * 8) insns with
      | none => ⟨[], .thrown⟩
      | some bytes =>
        let op := .addBpfProg fd 0 (insnsOf cnt.toNat bytes) (cStr name) type (env.found fd)
        match attr.field "attach_fds" with
        | none => ⟨[op], .thrown⟩
        | some attachFds =>
          let rest := attachOps env fd 0 (elements attachFds)
          ⟨op :: rest.ops, rest.ending⟩

def importMap (value : Json) (fd : CInt) : Import :=
  let parsed : Option (List UInt8 × MapAttr) := do
    let name ← value.text "name"
    let attr ← jsonToAttr (← value.field "attr")
    return (name, attr)
  match parsed with
  | none => ⟨[], .thrown⟩
  | some (name, attr) => ⟨[.addBpfMap fd 0 (cStr name) attr], .done⟩

/-- An `int` that is passed where a `uint64_t` is expected. -/
def widen (x : CInt) : BitVec 64 := x.signExtend 64

/-- The call for an event, without one where the type is not supported. -/
def eventOp (attr : Json) (fd type pid tracepointId : CInt) : Option (Option Op) :=
  if type = UPROBE ∨ type = URETPROBE then do
    let refCtrOff ← attr.bits 32 "ref_ctr_off"
    let offset ← attr.bits 32 "offset"
    let moduleName ← attr.text "_module_name"
    return some (.addUprobe fd 0 pid (cStr moduleName) (widen offset) (type = URETPROBE) (widen refCtrOff))
  else if type = TRACEPOINT then some (some (.addTracepoint fd 0 pid tracepointId))
  else if type = UPROBE_OVERRIDE then do
    let offset ← attr.bits 32 "offset"
    let moduleName ← attr.text "_module_name"
    return some (.addUprobeOverride fd 0 pid (cStr moduleName) (widen offset) false)
  else if type = SOFTWARE then do
    let cpu ← attr.bits 32 "cpu"
    let sampleType ← attr.bits 32 "sample_type"
    let config ← attr.bits 64 "config"
    return some (.addSoftwarePerfEvent fd cpu sampleType config)
  else some none

def importPerfEvent (value : Json) (fd : CInt) : Import :=
  let parsed : Option (Option Op) := do
    let attr ← value.field "attr"
    let type ← attr.bits 32 "type"
    -- every event is asked for its pid
    let pid ← attr.bits 32 "pid"
    let tracepointId ← if type = TRACEPOINT then attr.bits 32 "tracepoint_id" else some 0
    eventOp attr fd type pid tracepointId
  match parsed with
  | none => ⟨[], .thrown⟩
  | some none => ⟨[], .failed⟩
  | some (some op) =>
    match (value.field "enabled").bind Json.toBool with
    | none => ⟨[op], .thrown⟩
    | some enabled => ⟨op :: (if enabled then [.perfEventEnable fd true] else []), .done⟩

def importLink (value : Json) (fd : CInt) : Import :=
  let parsed : Option (BitVec 32 × BitVec 32) := do
    let attr ← value.field "attr"
    let progFd ← attr.bits 32 "prog_fd"
    let targetFd ← attr.bits 32 "target_fd"
    return (progFd, targetFd)
  match parsed with
  | none => ⟨[], .thrown⟩
  -- the other members of the arguments are zero
  | some (progFd, targetFd) => ⟨[.addBpfLink fd 0 ⟨progFd, targetFd, 0, 0⟩], .done⟩

/-- `import_shm_handler_from_json`. -/
def importHandler (env : Env) (value : Json) (fd : CInt) : Import :=
  match value.text "type" with
  | none => ⟨[], .thrown⟩
  | some type =>
    if type = ascii "bpf_prog_handler" then importProg env value fd
    else if type = ascii "bpf_map_handler" then importMap value fd
    else if type = ascii "bpf_perf_event_handler" then importPerfEvent value fd
    else if type = ascii "bpf_link_handler" then importLink value fd
    else if type = ascii "epoll_handler" then ⟨[.addEpoll fd 0], .done⟩
    else ⟨[], .failed⟩

/-- The calls one after the other. What they return is not looked at. -/
def runOps (c : Config) (s : Shm) : List Op → Option Shm
  | [] => some s
  | op :: ops => (step c s op).bind fun s => runOps c s ops

/-- A pass of the import over its items. -/
def importItems (c : Config) (env : Env) : List (CInt × Json) → Shm → Option (Ending × Shm)
  | [], s => some (.done, s)
  | (fd, value) :: items, s =>
    (runOps c s (importHandler env value fd).ops).bind fun s =>
      if (importHandler env value fd).ending = .done then importItems c env items s
      else some ((importHandler env value fd).ending, s)

def isLinkItem (item : CInt × Json) : Bool := item.2.text "type" = some (ascii "bpf_link_handler")

/-- The keys of the document as fds, in ascending order. -/
def sortedItems (doc : Document) : Option (List (CInt × Json)) :=
  (doc.mapM fun f => (stoi f.1).map fun fd => (BitVec.ofInt 32 fd, f.2)).map
    (List.insertionSort fun a b => a.1.toInt ≤ b.1.toInt)

/-- `handler_manager::clear_all`. -/
def clearAll (s : Shm) : Shm :=
  (List.range s.handlers.length).foldl
    (fun s i => if s.isAllocated (BitVec.ofNat 32 i) then s.clearIdAt (BitVec.ofNat 32 i) else s) s

/-- `bpftime_import_shm_from_json`. -/
def importShm (c : Config) (env : Env) (s : Shm) (doc : Document) : Option (Ending × Shm) :=
  match sortedItems doc with
  | none => some (.thrown, clearAll s)
  | some items =>
    (importItems c env (items.filter (!isLinkItem ·)) (clearAll s)).bind fun r =>
      if r.1 = .done then importItems c env (items.filter isLinkItem) r.2 else some r

/-- `bpftime_import_shm_handler_from_json`. It passes the fd where the value is expected and the
value where the fd is expected, and the conversions between integers and JSON accept both. -/
def importShmHandler (c : Config) (env : Env) (s : Shm) (fd : CInt) (j : Json) : Option (Ending × Shm) :=
  match j.toBits 32 with
  | none => some (.thrown, s)
  | some fd' =>
    let r := importHandler env (.num fd.toInt) fd'
    (runOps c s r.ops).map fun s => (r.ending, s)

/-- The table after an export of one memory and an import into another. Without a document
the import throws before it has changed anything. -/
def roundTrip (c : Config) (env : Env) (s t : Shm) : Option Shm :=
  match exportShm s with
  | none => some t
  | some doc => (importShm c env t doc).map Prod.snd

/-! ## What is to come back -/

/-- The same kind of handler with the same attributes. -/
def SameHandler : Handler → Handler → Prop
  | .unused, .unused | .epoll, .epoll => True
  | .prog p, .prog p' => p' = p
  | .map m, .map m' => m'.name = m.name ∧ m'.attr = m.attr
  | .perfEvent e, .perfEvent e' => e' = e
  | .link l, .link l' =>
    l'.progId = l.progId ∧ l'.attachTargetId = l.attachTargetId ∧ l'.attachCookie = l.attachCookie
  | .memfd flags name, .memfd flags' name' => flags' = flags ∧ name' = name
  | _, _ => False

/-- What an fd holds. -/
def handlerAt (s : Shm) (fd : CInt) : Handler := (s.slot fd).getD .unused

def SameTable (s t : Shm) : Prop := ∀ fd, SameHandler (handlerAt s fd) (handlerAt t fd)

/-- The number comes back through an `int`. -/
def FitsInt (x : BitVec 64) : Prop := widen (x.setWidth 32) = x

/-- The handlers that come back. `found` is what the storage of the `type` of a new
program handler holds. -/
def Survives (found : CInt) : Handler → Prop
  | .unused | .epoll => True
  | .prog p => found = p.type ∧ p.insns.length < 2 ^ 31 ∧ JsonValue.validUtf8 p.name.bytes
  | .map m => m.attr.gpuThreadCount = 1024 ∧ JsonValue.validUtf8 m.name.bytes
  | .perfEvent e =>
    match e.data with
    | .uprobe offset _ refCtrOff moduleName =>
      JsonValue.validUtf8 moduleName.bytes ∧ FitsInt offset ∧
        ((e.type = UPROBE ∨ e.type = URETPROBE) ∧ FitsInt refCtrOff ∨ e.type = UPROBE_OVERRIDE ∧ e.enabled)
    | .tracepoint _ _ => True
    | .software _ _ _ | .custom _ | .kprobe _ _ _ => False
  | .link l => l.attachCookie = none
  | .memfd _ _ => False

end ShmJson
