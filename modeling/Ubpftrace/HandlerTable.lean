import Mathlib.Data.List.TakeWhile
import Ubpftrace.Ringbuf

/-!
# The handler table of the shared memory

`handler_manager.cpp` keeps one slot for each fd. `bpftime_shm_internal.cpp` fills
the slots with programs, maps, perf events and links, and closing an fd clears its
slot and the slots of the links that refer to it. A slot outside the vector is
written without a check, and there the model has no next state.

The implementations of maps stand in shared memory. A map handler refers to one and
to the counter that was constructed with it, and a duplicated fd shares both.
-/

namespace HandlerTable

/-- `int`. -/
abbrev CInt := BitVec 32

scoped instance (a : CInt) (l : List CInt) : Decidable (a ∈ l) := List.instDecidableMemOfLawfulBEq a l

/-- What a `const char *` points to. -/
structure CString where
  bytes : List UInt8
  noNul : 0 ∉ bytes
  deriving DecidableEq

/-- `std::string::c_str`. -/
def cStr (bytes : List UInt8) : CString :=
  ⟨bytes.takeWhile (· ≠ 0), fun h => by simpa using List.mem_takeWhile_imp h⟩

theorem cStr_bytes (name : CString) : cStr name.bytes = name := by
  obtain ⟨bytes, hnul⟩ := name
  have hall : bytes.takeWhile (· ≠ 0) = bytes := by
    apply List.takeWhile_eq_self_iff.mpr
    intro b hb
    exact decide_eq_true fun h => hnul (h ▸ hb)
  simp only [cStr, hall]

/-- `bpf_map_attr`. -/
structure MapAttr where
  type : CInt := 0
  keySize : BitVec 32 := 0
  valueSize : BitVec 32 := 0
  maxEnts : BitVec 32 := 0
  flags : BitVec 64 := 0
  ifindex : BitVec 32 := 0
  btfVmlinuxValueTypeId : BitVec 32 := 0
  btfId : BitVec 32 := 0
  btfKeyTypeId : BitVec 32 := 0
  btfValueTypeId : BitVec 32 := 0
  mapExtra : BitVec 64 := 0
  kernelBpfMapId : BitVec 32 := 0
  gpuThreadCount : BitVec 64 := 1024
  deriving DecidableEq

/-- `bpf_map_handler`. The pointers are the numbers of the objects in the memory. -/
structure MapHandler where
  id : CInt
  name : CString
  attr : MapAttr
  mapImplPtr : Option Nat
  mapRefcntPtr : Option Nat
  deriving DecidableEq

/-- `bpf_prog_handler`. -/
structure ProgHandler where
  type : CInt
  insns : List (BitVec 64)
  name : CString
  deriving DecidableEq

/-- `perf_event_data_variant`. -/
inductive PerfEventData where
  | uprobe (offset : BitVec 64) (pid : CInt) (refCtrOff : BitVec 64) (moduleName : CString)
  | tracepoint (pid tracepointId : CInt)
  | software (cpu : CInt) (config : BitVec 64) (sampleType : CInt)
  | custom (attachArgument : CString)
  | kprobe (funcName : CString) (addr refCtrOff : BitVec 64)
  deriving DecidableEq

/-- `bpf_perf_event_handler`. -/
structure PerfEventHandler where
  type : CInt
  enabled : Bool
  data : PerfEventData
  deriving DecidableEq

/-- `bpf_link_create_args`. -/
structure LinkArgs where
  progFd : BitVec 32
  targetFd : BitVec 32
  attachType : BitVec 32
  bpfCookie : BitVec 64
  deriving DecidableEq

/-- `bpf_link_handler`. Only one of its constructors sets `args`. -/
structure LinkHandler where
  args : Option LinkArgs
  progId : CInt
  attachTargetId : CInt
  attachCookie : Option (BitVec 64)
  deriving DecidableEq

/-- `handler_variant`. -/
inductive Handler where
  | unused
  | map (m : MapHandler)
  | link (l : LinkHandler)
  | prog (p : ProgHandler)
  | perfEvent (e : PerfEventHandler)
  | epoll
  | memfd (flags : CInt) (name : CString)
  deriving DecidableEq

/-- The build, the runtime configuration and the map types with a registered `alloc_map`. -/
structure Config where
  buildWithLibbpf : Bool
  allowNonBuildinMapTypes : Bool
  allocMap : CInt → Bool

/-- The table, the implementations constructed so far and their counters, each with
whether it is still there, and the maps that a registered `alloc_map` holds. -/
structure Shm where
  handlers : List Handler
  impls : List Bool
  refcnts : List (Option Nat)
  externals : List (CInt × CInt)

/-- `handler_manager::handler_manager`, in a new shared memory. -/
def create (maxFdCount : Nat) : Shm := ⟨List.replicate maxFdCount .unused, [], [], []⟩

/-! ## Maps -/

namespace MapType

def HASH : CInt := 1
def ARRAY : CInt := 2
def PROG_ARRAY : CInt := 3
def PERF_EVENT_ARRAY : CInt := 4
def PERCPU_HASH : CInt := 5
def PERCPU_ARRAY : CInt := 6
def STACK_TRACE : CInt := 7
def LRU_HASH : CInt := 9
def LPM_TRIE : CInt := 11
def ARRAY_OF_MAPS : CInt := 12
def QUEUE : CInt := 22
def STACK : CInt := 23
def RINGBUF : CInt := 27
def BLOOM_FILTER : CInt := 30
def KERNEL_USER_HASH : CInt := 1001
def KERNEL_USER_ARRAY : CInt := 1002
def KERNEL_USER_PERF_EVENT_ARRAY : CInt := 1004
def KERNEL_USER_PERCPU_ARRAY : CInt := 1006

def plain : List CInt :=
  [HASH, ARRAY, PERF_EVENT_ARRAY, PERCPU_ARRAY, PERCPU_HASH, QUEUE, STACK, ARRAY_OF_MAPS, LRU_HASH, LPM_TRIE]

def libbpf : List CInt :=
  [KERNEL_USER_ARRAY, KERNEL_USER_HASH, KERNEL_USER_PERCPU_ARRAY, KERNEL_USER_PERF_EVENT_ARRAY, PROG_ARRAY, STACK_TRACE]

end MapType

/-- What the switch of `map_init` does for a map. -/
inductive InitCase where
  | construct
  | alloc
  | nothing
  | error
  deriving DecidableEq

def initCase (c : Config) (attr : MapAttr) : InitCase :=
  if attr.type ∈ MapType.plain then .construct
  else if attr.type = MapType.RINGBUF then
    if Ringbuf.popCnt 32 attr.maxEnts.toNat = 1 then .construct else .error
  else if attr.type = MapType.BLOOM_FILTER then
    if attr.keySize = 0 then .construct else .error
  else if c.buildWithLibbpf ∧ attr.type ∈ MapType.libbpf then .construct
  else if c.allowNonBuildinMapTypes then
    if c.allocMap attr.type then .alloc else .nothing
  else .error

namespace Shm

/-- `bpf_map_handler::map_init` of a handler without an implementation. -/
def mapInit (c : Config) (s : Shm) (m : MapHandler) : MapHandler × Shm :=
  match initCase c m.attr with
  | .construct =>
    ({ m with mapImplPtr := some s.impls.length, mapRefcntPtr := some s.refcnts.length },
      { s with impls := s.impls ++ [true], refcnts := s.refcnts ++ [some 1] })
  | .alloc => (m, { s with externals := (m.attr.type, m.id) :: s.externals })
  | .nothing | .error => (m, s)

def refcnt (s : Shm) (r : Nat) : Nat := (s.refcnts.getD r none).getD 0

/-- `bpf_map_handler::map_free`. -/
def mapFree (s : Shm) (m : MapHandler) : Shm :=
  match m.mapImplPtr with
  | none => s
  | some impl =>
    match m.mapRefcntPtr with
    | none => { s with impls := s.impls.set impl false }
    | some r =>
      if s.refcnt r > 1 then { s with refcnts := s.refcnts.set r (some (s.refcnt r - 1)) }
      else { s with impls := s.impls.set impl false, refcnts := s.refcnts.set r none }

/-! ## Slots -/

/-- `handlers[fd]`, if it is inside the vector. -/
def slot (s : Shm) (fd : CInt) : Option Handler := if fd.toInt < 0 then none else s.handlers[fd.toNat]?

def put (s : Shm) (fd : CInt) (h : Handler) : Shm := { s with handlers := s.handlers.set fd.toNat h }

def isAllocated (s : Shm) (fd : CInt) : Bool :=
  match s.slot fd with
  | none | some .unused => false
  | some _ => true

def isProgFd (s : Shm) (fd : CInt) : Bool :=
  match s.slot fd with
  | some (.prog _) => true
  | _ => false

def isPerfFd (s : Shm) (fd : CInt) : Bool :=
  match s.slot fd with
  | some (.perfEvent _) => true
  | _ => false

/-- A slot after one of the loops of `clear_id_at` over the links. -/
def dropLink (refers : LinkHandler → Bool) : Handler → Handler
  | .link l => if refers l then .unused else .link l
  | h => h

def clearLinks (s : Shm) (refers : LinkHandler → Bool) : Shm :=
  { s with handlers := s.handlers.map (dropLink refers) }

/-- `handler_manager::clear_id_at`. -/
def clearIdAt (s : Shm) (fd : CInt) : Shm :=
  match s.slot fd with
  | none => s
  | some (.map m) => (s.mapFree m).put fd .unused
  | some (.perfEvent _) => (s.clearLinks (·.attachTargetId = fd)).put fd .unused
  | some (.prog _) => (s.clearLinks (·.progId = fd)).put fd .unused
  | some _ => s.put fd .unused

def EEXIST : Int := 17
def ENOTSUP : Int := 95

/-- `handlers[fd] = handler`, and the initialisation of a map without an implementation. -/
def store (c : Config) (s : Shm) (fd : CInt) : Handler → Shm
  | .map m =>
    if m.mapImplPtr = none then
      let (m', s') := s.mapInit c m
      s'.put fd (.map m')
    else s.put fd (.map m)
  | h => s.put fd h

/-- `handler_manager::set_handler`. -/
def setHandler (c : Config) (s : Shm) (fd : CInt) (h : Handler) : Option (Int × Shm) :=
  if s.isAllocated fd then some (-EEXIST, s)
  else if h = .unused then some (-ENOTSUP, s)
  -- the vector is indexed without a check
  else if s.slot fd = none then none
  else some (fd.toInt, s.store c fd h)

end Shm

/-! ## Operations -/

inductive Errno where
  | EBADF
  | ENOENT
  deriving DecidableEq

def ENOSPC : Int := 28

/-- What an operation returns, or the `errno` it sets when it returns -1. -/
inductive Reply where
  | ret (r : Int)
  | errno (e : Errno)
  deriving DecidableEq

namespace EventType

def SOFTWARE : CInt := 1
def TRACEPOINT : CInt := 2
def UPROBE : CInt := 6
def URETPROBE : CInt := 7
def KPROBE : CInt := 8
def KRETPROBE : CInt := 9
def UPROBE_OVERRIDE : CInt := 1008
def UREPLACE : CInt := 1009

end EventType

/-- `BPFTIME_BPF_PERF_EVENT_ATTACH_TYPE`. -/
def perfEventAttachType : BitVec 32 := 41

/-- An fd, or what `open_fake_fd` returns for a negative one. -/
def orFake (fd fake : CInt) : CInt := if fd.toInt < 0 then fake else fd

namespace Shm

variable (c : Config) (s : Shm)

/-- The operations that put one handler at an fd. -/
def add (fd : CInt) (h : Handler) : Option (Reply × Shm) := (s.setHandler c fd h).map fun r => (.ret r.1, r.2)

/-- `add_bpf_prog`. The constructor of `bpf_prog_handler` leaves `type` as it finds it. -/
def addBpfProg (fd fake : CInt) (insns : List (BitVec 64)) (name : CString) (_progType found : CInt) :
    Option (Reply × Shm) :=
  s.add c (orFake fd fake) (.prog ⟨found, insns, name⟩)

def uprobe (pid : CInt) (name : CString) (offset : BitVec 64) (retprobe : Bool) (refCtrOff : BitVec 64) :
    PerfEventHandler :=
  ⟨if retprobe then EventType.URETPROBE else EventType.UPROBE, false, .uprobe offset pid refCtrOff name⟩

def addUprobe (fd fake pid : CInt) (name : CString) (offset : BitVec 64) (retprobe : Bool) (refCtrOff : BitVec 64) :
    Option (Reply × Shm) :=
  s.add c (orFake fd fake) (.perfEvent (uprobe pid name offset retprobe refCtrOff))

def uprobeOverride (pid : CInt) (name : CString) (offset : BitVec 64) (isReplace : Bool) : PerfEventHandler :=
  ⟨if isReplace then EventType.UREPLACE else EventType.UPROBE_OVERRIDE, true, .uprobe offset pid 0 name⟩

def addUprobeOverride (fd fake pid : CInt) (name : CString) (offset : BitVec 64) (isReplace : Bool) :
    Option (Reply × Shm) :=
  s.add c (orFake fd fake) (.perfEvent (uprobeOverride pid name offset isReplace))

def addTracepoint (fd fake pid tracepointId : CInt) : Option (Reply × Shm) :=
  s.add c (orFake fd fake) (.perfEvent ⟨EventType.TRACEPOINT, false, .tracepoint pid tracepointId⟩)

/-- `add_kprobe` takes any fd it is given, a negative one too. -/
def addKprobe (fd : Option CInt) (fake : CInt) (funcName : CString) (addr : BitVec 64) (retprobe : Bool)
    (refCtrOff : BitVec 64) : Option (Reply × Shm) :=
  s.add c (fd.getD fake)
    (.perfEvent ⟨if retprobe then EventType.KRETPROBE else EventType.KPROBE, false, .kprobe funcName addr refCtrOff⟩)

def addSoftwarePerfEvent (fd cpu sampleType : CInt) (config : BitVec 64) : Option (Reply × Shm) :=
  s.add c fd (.perfEvent ⟨EventType.SOFTWARE, false, .software cpu config sampleType⟩)

/-- `add_custom_perf_event` returns the fd whatever `set_handler` says. -/
def addCustomPerfEvent (fake type : CInt) (attachArgument : CString) : Option (Reply × Shm) :=
  if fake.toInt < 0 then some (.ret fake.toInt, s)
  else (s.setHandler c fake (.perfEvent ⟨type, false, .custom attachArgument⟩)).map fun r => (.ret fake.toInt, r.2)

def addEpoll (fd fake : CInt) : Option (Reply × Shm) := s.add c (orFake fd fake) .epoll

def epollCreate (fake : CInt) : Option (Reply × Shm) :=
  if s.isAllocated fake then some (.ret (-1), s) else s.add c fake .epoll

def addMemfdHandler (fake : CInt) (name : CString) (flags : CInt) : Option (Reply × Shm) :=
  s.add c fake (.memfd flags name)

/-- The constructor of `bpf_link_handler` that takes the arguments. -/
def linkOfArgs (args : LinkArgs) : LinkHandler :=
  ⟨some args, args.progFd, args.targetFd, if args.attachType = perfEventAttachType then some args.bpfCookie else none⟩

def addBpfLink (fd fake : CInt) (args : LinkArgs) : Option (Reply × Shm) :=
  if s.isProgFd args.progFd = false then some (.errno .EBADF, s)
  else if args.attachType = perfEventAttachType ∧ s.isPerfFd args.targetFd = false then some (.errno .EBADF, s)
  else s.add c (orFake fd fake) (.link (linkOfArgs args))

def addBpfProgAttachTarget (perfFd bpfFd : CInt) (cookie : Option (BitVec 64)) (fake : CInt) : Option (Reply × Shm) :=
  if s.isProgFd bpfFd = false then some (.errno .ENOENT, s)
  else if fake.toInt < 0 then some (.ret (-ENOSPC), s)
  else (s.setHandler c fake (.link ⟨none, bpfFd, perfFd, cookie⟩)).map fun r => (.ret fake.toInt, r.2)

def attachPerfToBpf (perfFd bpfFd : CInt) (cookie : Option (BitVec 64)) (fake : CInt) : Option (Reply × Shm) :=
  if s.isPerfFd perfFd = false then some (.errno .ENOENT, s)
  else s.addBpfProgAttachTarget c perfFd bpfFd cookie fake

def perfEventEnable (fd : CInt) (enabled : Bool) : Reply × Shm :=
  match s.slot fd with
  | some (.perfEvent e) => (.ret 0, s.put fd (.perfEvent { e with enabled := enabled }))
  | _ => (.errno .ENOENT, s)

/-- The handler that a new map gets, before `map_init`. -/
def newMap (fd : CInt) (name : CString) (attr : MapAttr) : MapHandler := ⟨fd, name, attr, none, none⟩

def addBpfMap (fd fake : CInt) (name : CString) (attr : MapAttr) : Option (Reply × Shm) :=
  let fd := orFake fd fake
  match s.slot fd with
  | none => none
  | some h =>
    let s := if h = .unused then s else s.clearIdAt fd
    s.add c fd (.map (newMap fd name attr))

/-- The bytes of `"dup_"`. -/
def dupBytes : List UInt8 := [0x64, 0x75, 0x70, 0x5f]

def fallbackName (name : CString) : CString :=
  ⟨dupBytes ++ name.bytes, by simp [dupBytes, name.noNul]⟩

/-- `inc_map_refcount`. -/
def incMapRefcount (m : MapHandler) : Shm :=
  match m.mapRefcntPtr with
  | none => s
  | some r => { s with refcnts := s.refcnts.set r (some (s.refcnt r + 1)) }

def canShareMapImpl (m : MapHandler) : Bool := m.mapImplPtr.isSome && m.mapRefcntPtr.isSome

def dupBpfMap (oldfd newfd fake : CInt) : Option (Reply × Shm) :=
  match s.slot oldfd with
  | some (.map handler) =>
    let newfd := orFake newfd fake
    match s.slot newfd with
    | none => none
    | some h =>
      let s := if h = .unused then s else s.clearIdAt newfd
      -- `handler` is a reference into the table. When its own slot has been cleared,
      -- `map_free` has taken its pointers.
      let handler := if newfd = oldfd then { handler with mapImplPtr := none, mapRefcntPtr := none } else handler
      if canShareMapImpl handler then
        let dupHandler := { handler with id := newfd }
        (s.incMapRefcount handler).add c newfd (.map dupHandler)
      else s.add c newfd (.map (newMap newfd (fallbackName handler.name) handler.attr))
  | _ => some (.errno .EBADF, s)

def closeFd (fd : CInt) : Reply × Shm := (.ret 0, s.clearIdAt fd)

end Shm

/-- A call into the table. `fake` is what `open_fake_fd` returns in it, and `found`
is what the storage of a new program handler's `type` holds. -/
inductive Op where
  | addBpfProg (fd fake : CInt) (insns : List (BitVec 64)) (name : CString) (progType found : CInt)
  | addBpfMap (fd fake : CInt) (name : CString) (attr : MapAttr)
  | addUprobe (fd fake pid : CInt) (name : CString) (offset : BitVec 64) (retprobe : Bool) (refCtrOff : BitVec 64)
  | addUprobeOverride (fd fake pid : CInt) (name : CString) (offset : BitVec 64) (isReplace : Bool)
  | addTracepoint (fd fake pid tracepointId : CInt)
  | addKprobe (fd : Option CInt) (fake : CInt) (funcName : CString) (addr : BitVec 64) (retprobe : Bool)
      (refCtrOff : BitVec 64)
  | addSoftwarePerfEvent (fd cpu sampleType : CInt) (config : BitVec 64)
  | addCustomPerfEvent (fake type : CInt) (attachArgument : CString)
  | addEpoll (fd fake : CInt)
  | epollCreate (fake : CInt)
  | addMemfdHandler (fake : CInt) (name : CString) (flags : CInt)
  | addBpfLink (fd fake : CInt) (args : LinkArgs)
  | addBpfProgAttachTarget (perfFd bpfFd : CInt) (cookie : Option (BitVec 64)) (fake : CInt)
  | attachPerfToBpf (perfFd bpfFd : CInt) (cookie : Option (BitVec 64)) (fake : CInt)
  | perfEventEnable (fd : CInt) (enabled : Bool)
  | dupBpfMap (oldfd newfd fake : CInt)
  | closeFd (fd : CInt)
  deriving DecidableEq

def call (c : Config) (s : Shm) : Op → Option (Reply × Shm)
  | .addBpfProg fd fake insns name progType found => s.addBpfProg c fd fake insns name progType found
  | .addBpfMap fd fake name attr => s.addBpfMap c fd fake name attr
  | .addUprobe fd fake pid name offset retprobe refCtrOff => s.addUprobe c fd fake pid name offset retprobe refCtrOff
  | .addUprobeOverride fd fake pid name offset isReplace => s.addUprobeOverride c fd fake pid name offset isReplace
  | .addTracepoint fd fake pid tracepointId => s.addTracepoint c fd fake pid tracepointId
  | .addKprobe fd fake funcName addr retprobe refCtrOff => s.addKprobe c fd fake funcName addr retprobe refCtrOff
  | .addSoftwarePerfEvent fd cpu sampleType config => s.addSoftwarePerfEvent c fd cpu sampleType config
  | .addCustomPerfEvent fake type attachArgument => s.addCustomPerfEvent c fake type attachArgument
  | .addEpoll fd fake => s.addEpoll c fd fake
  | .epollCreate fake => s.epollCreate c fake
  | .addMemfdHandler fake name flags => s.addMemfdHandler c fake name flags
  | .addBpfLink fd fake args => s.addBpfLink c fd fake args
  | .addBpfProgAttachTarget perfFd bpfFd cookie fake => s.addBpfProgAttachTarget c perfFd bpfFd cookie fake
  | .attachPerfToBpf perfFd bpfFd cookie fake => s.attachPerfToBpf c perfFd bpfFd cookie fake
  | .perfEventEnable fd enabled => some (s.perfEventEnable fd enabled)
  | .dupBpfMap oldfd newfd fake => s.dupBpfMap c oldfd newfd fake
  | .closeFd fd => some (s.closeFd fd)

def step (c : Config) (s : Shm) (a : Op) : Option Shm := (call c s a).map Prod.snd

/-- The build of the repository, with no map type but its own. -/
def defaultConfig : Config := ⟨true, false, fun _ => false⟩

def noName : CString := ⟨[], by simp⟩

/-! ## What an operation does to the table -/

namespace Shm

variable {c : Config} {s s' : Shm} {fd fd' : CInt} {h h' : Handler} {m : MapHandler}

theorem slot_eq_some (hs : s.slot fd = some h) : 0 ≤ fd.toInt ∧ s.handlers[fd.toNat]? = some h := by
  unfold slot at hs
  split at hs
  · cases hs
  · exact ⟨by omega, hs⟩

theorem lt_of_slot (hs : s.slot fd = some h) : fd.toNat < 2 ^ 31 := by
  have hpos := (slot_eq_some hs).1
  have hint := BitVec.toInt_eq_toNat_cond fd
  split at hint <;> omega

theorem slot_ofNat {i : Nat} (hi : i < 2 ^ 31) : s.slot (BitVec.ofNat 32 i) = s.handlers[i]? := by
  have hnat : (BitVec.ofNat 32 i).toNat = i := by rw [BitVec.toNat_ofNat, Nat.mod_eq_of_lt (by omega)]
  have hint : (BitVec.ofNat 32 i).toInt = i := by rw [BitVec.toInt_eq_toNat_of_lt (by omega), hnat]
  rw [slot, if_neg (by omega), hnat]

theorem slot_congr (hh : s'.handlers = s.handlers) (fd : CInt) : s'.slot fd = s.slot fd := by
  unfold slot
  rw [hh]

theorem slot_put_self (hs : s.slot fd = some h) (h' : Handler) : (s.put fd h').slot fd = some h' := by
  obtain ⟨hneg, hget⟩ := slot_eq_some hs
  have hlt : fd.toNat < s.handlers.length := List.getElem?_eq_some_iff.mp hget |>.1
  unfold slot put
  rw [if_neg (by omega), List.getElem?_set_self hlt]

theorem slot_put_of_ne (hne : fd' ≠ fd) (h : Handler) : (s.put fd h).slot fd' = s.slot fd' := by
  have hnat : fd.toNat ≠ fd'.toNat := fun heq => hne (BitVec.eq_of_toNat_eq heq.symm)
  unfold slot put
  rw [List.getElem?_set_ne hnat]

theorem put_slot (hs : s.slot fd = some h) : s.put fd h = s := by
  have hget := (slot_eq_some hs).2
  obtain ⟨hlt, hval⟩ := List.getElem?_eq_some_iff.mp hget
  unfold put
  rw [← hval, List.set_getElem_self]

@[simp] theorem handlers_mapFree (s : Shm) (m : MapHandler) : (s.mapFree m).handlers = s.handlers := by
  unfold mapFree
  repeat' split
  all_goals rfl

@[simp] theorem handlers_mapInit (c : Config) (s : Shm) (m : MapHandler) :
    (s.mapInit c m).2.handlers = s.handlers := by
  unfold mapInit
  split <;> rfl

@[simp] theorem handlers_incMapRefcount (s : Shm) (m : MapHandler) : (s.incMapRefcount m).handlers = s.handlers := by
  unfold incMapRefcount
  split <;> rfl

/-- The links that are cleared together with an fd. -/
def orphaned (h : Handler) (fd : CInt) (l : LinkHandler) : Bool :=
  match h with
  | .perfEvent _ => l.attachTargetId = fd
  | .prog _ => l.progId = fd
  | _ => false

theorem dropLink_none : dropLink (fun _ => false) = id := by
  funext h
  cases h <;> rfl

theorem slot_clearLinks (s : Shm) (refers : LinkHandler → Bool) (fd : CInt) :
    (s.clearLinks refers).slot fd = (s.slot fd).map (dropLink refers) := by
  unfold slot clearLinks
  split
  · rfl
  · simp only [List.getElem?_map]

theorem slot_clearIdAt_self (hs : s.slot fd = some h) : (s.clearIdAt fd).slot fd = some .unused := by
  unfold clearIdAt
  rw [hs]
  cases h with
  | map m => exact slot_put_self ((slot_congr (handlers_mapFree s m) fd).trans hs) _
  | perfEvent e | prog p => exact slot_put_self ((slot_clearLinks s _ fd).trans (by rw [hs]; rfl)) _
  | unused | link l | epoll | memfd flags name => exact slot_put_self hs _

theorem slot_clearIdAt_of_ne (hs : s.slot fd = some h) (hne : fd' ≠ fd) :
    (s.clearIdAt fd).slot fd' = (s.slot fd').map (dropLink (orphaned h fd)) := by
  have hkeep : (s.slot fd').map (dropLink fun _ => false) = s.slot fd' := by rw [dropLink_none, Option.map_id, id]
  unfold clearIdAt
  rw [hs]
  cases h with
  | map m => exact (slot_put_of_ne hne _).trans ((slot_congr (handlers_mapFree s m) fd').trans hkeep.symm)
  | perfEvent e | prog p => exact (slot_put_of_ne hne _).trans (slot_clearLinks s _ fd')
  | unused | link l | epoll | memfd flags name => exact (slot_put_of_ne hne _).trans hkeep.symm

theorem clearIdAt_unused (hs : s.slot fd = some .unused) : s.clearIdAt fd = s := by
  unfold clearIdAt
  rw [hs]
  exact put_slot hs

/-- A handler before and after it is stored differs at most in its implementation. -/
def SameKind : Handler → Handler → Prop
  | .map m, .map m' => m'.id = m.id ∧ m'.name = m.name ∧ m'.attr = m.attr
  | h, h' => h' = h

theorem mapInit_sameKind (c : Config) (s : Shm) (m : MapHandler) : SameKind (.map m) (.map (s.mapInit c m).1) := by
  unfold mapInit
  split <;> exact ⟨rfl, rfl, rfl⟩

theorem slot_store_self (c : Config) (hs : s.slot fd = some h) (h' : Handler) :
    ∃ h'', (s.store c fd h').slot fd = some h'' ∧ SameKind h' h'' := by
  cases h' with
  | map m =>
    by_cases hnone : m.mapImplPtr = none
    · refine ⟨.map (s.mapInit c m).1, ?_, mapInit_sameKind c s m⟩
      simp only [store, if_pos hnone]
      exact slot_put_self ((slot_congr (handlers_mapInit c s m) fd).trans hs) _
    · refine ⟨.map m, ?_, rfl, rfl, rfl⟩
      simp only [store, if_neg hnone]
      exact slot_put_self hs _
  | unused | link l | prog p | perfEvent e | epoll | memfd flags name => exact ⟨_, slot_put_self hs _, rfl⟩

theorem slot_store_of_ne (c : Config) (hne : fd' ≠ fd) (h : Handler) : (s.store c fd h).slot fd' = s.slot fd' := by
  cases h with
  | map m =>
    simp only [store]
    split
    · exact (slot_put_of_ne hne _).trans (slot_congr (handlers_mapInit c s m) fd')
    · exact slot_put_of_ne hne _
  | _ => exact slot_put_of_ne hne _

theorem setHandler_cases {r : Int × Shm} (hset : s.setHandler c fd h = some r) :
    r.2 = s ∨ s.slot fd = some .unused ∧ h ≠ .unused ∧ r.2 = s.store c fd h := by
  unfold setHandler at hset
  split at hset
  · cases hset
    exact .inl rfl
  · next halloc =>
    split at hset
    · cases hset
      exact .inl rfl
    · next hne =>
      split at hset
      · cases hset
      · next hslot =>
        cases hset
        unfold isAllocated at halloc
        split at halloc <;> simp_all

theorem setHandler_free (hs : s.slot fd = some .unused) (hne : h ≠ .unused) :
    s.setHandler c fd h = some (fd.toInt, s.store c fd h) := by
  have halloc : s.isAllocated fd = false := by
    unfold isAllocated
    rw [hs]
  unfold setHandler
  rw [if_neg (by simp [halloc]), if_neg hne, if_neg (by simp [hs])]

/-- The fd whose slot an operation clears. -/
def clears (s : Shm) : Op → Option CInt
  | .closeFd fd => (s.slot fd).map fun _ => fd
  | .addBpfMap fd fake _ _ => some (orFake fd fake)
  | .dupBpfMap oldfd newfd fake =>
    match s.slot oldfd with
    | some (.map _) => some (orFake newfd fake)
    | _ => none
  | _ => none

/-- What is known of a link that an operation puts into the table. -/
structure LinkMade (s : Shm) (a : Op) (l : LinkHandler) : Prop where
  prog : s.isProgFd l.progId
  -- the target is checked, by the caller or by the operation, except in one of them
  target : s.isPerfFd l.attachTargetId ∨ (∃ args, l = linkOfArgs args ∧ args.attachType ≠ perfEventAttachType) ∨
    ∃ cookie fake, a = .addBpfProgAttachTarget l.attachTargetId l.progId cookie fake ∧ s.slot fake = some .unused

/-- The data of an event is of the kind that its type calls for. An event of a custom type
may have any type. -/
def WellTyped (e : PerfEventHandler) : Prop :=
  match e.data with
  | .uprobe _ _ refCtrOff _ =>
    e.type = EventType.UPROBE ∨ e.type = EventType.URETPROBE ∨
      (e.type = EventType.UPROBE_OVERRIDE ∨ e.type = EventType.UREPLACE) ∧ refCtrOff = 0
  | .tracepoint _ _ => e.type = EventType.TRACEPOINT
  | .software _ _ _ => e.type = EventType.SOFTWARE
  | .kprobe _ _ _ => e.type = EventType.KPROBE ∨ e.type = EventType.KRETPROBE
  | .custom _ => True

/-- What is known of a handler, other than a map, that an operation puts into a free slot. -/
def Made (s : Shm) (a : Op) : Handler → Prop
  | .link l => LinkMade s a l
  | .perfEvent e => WellTyped e
  | .prog _ | .epoll | .memfd _ _ => True
  | .unused | .map _ => False

/-- What an operation can do. -/
inductive Move (c : Config) (s : Shm) : Op → Shm → Prop where
  | stay {a : Op} (hclears : s.clears a = none) : Move c s a s
  | install {a : Op} {fd : CInt} {h : Handler} (hclears : s.clears a = none) (hfree : s.slot fd = some .unused)
      (hmade : Made s a h) : Move c s a (s.put fd h)
  | enable {fd : CInt} {enabled : Bool} {e : PerfEventHandler} (hs : s.slot fd = some (.perfEvent e)) :
      Move c s (.perfEventEnable fd enabled) (s.put fd (.perfEvent { e with enabled := enabled }))
  | close {fd : CInt} {h : Handler} (hs : s.slot fd = some h) : Move c s (.closeFd fd) (s.clearIdAt fd)
  | addMap {fd fd' fake : CInt} {name : CString} {attr : MapAttr} {h : Handler} (hfd : orFake fd fake = fd')
      (hs : s.slot fd' = some h) :
      Move c s (.addBpfMap fd fake name attr) ((s.clearIdAt fd').store c fd' (.map (newMap fd' name attr)))
  | share {oldfd newfd fd fake : CInt} {handler : MapHandler} {h : Handler} (hfd : orFake newfd fake = fd)
      (hold : s.slot oldfd = some (.map handler)) (hnew : s.slot fd = some h) (hne : fd ≠ oldfd)
      (hshare : canShareMapImpl handler) :
      Move c s (.dupBpfMap oldfd newfd fake)
        (((s.clearIdAt fd).incMapRefcount handler).put fd (.map { handler with id := fd }))
  | fallback {oldfd newfd fd fake : CInt} {handler : MapHandler} {h : Handler} (hfd : orFake newfd fake = fd)
      (hold : s.slot oldfd = some (.map handler)) (hnew : s.slot fd = some h)
      (hnot : fd = oldfd ∨ canShareMapImpl handler = false) :
      Move c s (.dupBpfMap oldfd newfd fake)
        ((s.clearIdAt fd).store c fd (.map (newMap fd (fallbackName handler.name) handler.attr)))

theorem move_of_set {a : Op} {r : Int × Shm} (hclears : s.clears a = none)
    (hset : s.setHandler c fd h = some r) (hmade : s.slot fd = some .unused → Made s a h) : Move c s a r.2 := by
  obtain hsame | ⟨hfree, _, hr⟩ := setHandler_cases hset
  · rw [hsame]
    exact .stay hclears
  · have hput : s.store c fd h = s.put fd h := by
      cases h with
      | map m => exact (hmade hfree).elim
      | _ => rfl
    rw [hr, hput]
    exact .install hclears hfree (hmade hfree)

variable {r : Reply × Shm}

theorem move_of_add {a : Op} (hclears : s.clears a = none) (hadd : s.add c fd h = some r)
    (hmade : Made s a h) : Move c s a r.2 := by
  obtain ⟨q, hq, rfl⟩ := Option.map_eq_some_iff.mp hadd
  exact move_of_set hclears hq fun _ => hmade

theorem wellTyped_uprobe (pid : CInt) (name : CString) (offset : BitVec 64) (retprobe : Bool) (refCtrOff : BitVec 64) :
    WellTyped (uprobe pid name offset retprobe refCtrOff) := by
  cases retprobe
  · exact .inl rfl
  · exact .inr (.inl rfl)

theorem wellTyped_uprobeOverride (pid : CInt) (name : CString) (offset : BitVec 64) (isReplace : Bool) :
    WellTyped (uprobeOverride pid name offset isReplace) := by
  cases isReplace
  · exact .inr (.inr ⟨.inl rfl, rfl⟩)
  · exact .inr (.inr ⟨.inr rfl, rfl⟩)

variable {fake : CInt}

theorem addBpfMap_move {name : CString} {attr : MapAttr}
    (hadd : s.addBpfMap c fd fake name attr = some r) : Move c s (.addBpfMap fd fake name attr) r.2 := by
  unfold addBpfMap at hadd
  cases hs : s.slot (orFake fd fake) with
  | none => simp only [hs] at hadd; cases hadd
  | some h =>
    simp only [hs] at hadd
    have hclear : (if h = .unused then s else s.clearIdAt (orFake fd fake)) = s.clearIdAt (orFake fd fake) := by
      split
      · next hunused => exact (clearIdAt_unused (hunused ▸ hs)).symm
      · rfl
    rw [hclear, add, setHandler_free (slot_clearIdAt_self hs) (by simp), Option.map_some] at hadd
    cases hadd
    exact .addMap rfl hs

theorem dupBpfMap_move {oldfd newfd : CInt} (hdup : s.dupBpfMap c oldfd newfd fake = some r) :
    Move c s (.dupBpfMap oldfd newfd fake) r.2 := by
  by_cases hmap : ∃ handler, s.slot oldfd = some (.map handler)
  · obtain ⟨handler, hold⟩ := hmap
    unfold dupBpfMap at hdup
    simp only [hold] at hdup
    cases hnew : s.slot (orFake newfd fake) with
    | none => simp only [hnew] at hdup; cases hdup
    | some h =>
      have hclear : (if h = .unused then s else s.clearIdAt (orFake newfd fake)) = s.clearIdAt (orFake newfd fake) := by
        split
        · next hunused => exact (clearIdAt_unused (hunused ▸ hnew)).symm
        · rfl
      have hself := slot_clearIdAt_self hnew
      simp only [hnew, hclear] at hdup
      by_cases hsame : orFake newfd fake = oldfd
      · have hcannot : canShareMapImpl { handler with mapImplPtr := none, mapRefcntPtr := none } = false := rfl
        rw [if_pos hsame, hcannot, if_neg (by simp), add, setHandler_free hself (by simp), Option.map_some] at hdup
        cases hdup
        have hmove : Move c s _ _ := .fallback rfl hold hnew (.inl hsame)
        exact hmove
      · rw [if_neg hsame] at hdup
        by_cases hshare : canShareMapImpl handler
        · have hself' := (slot_congr (handlers_incMapRefcount _ handler) (orFake newfd fake)).trans hself
          rw [if_pos hshare, add, setHandler_free hself' (by simp), Option.map_some] at hdup
          cases hdup
          have hsome : handler.mapImplPtr ≠ none := by
            intro hnone
            simp [canShareMapImpl, hnone] at hshare
          simp only [store, hsome, if_false]
          exact .share rfl hold hnew hsame hshare
        · rw [if_neg hshare, add, setHandler_free hself (by simp), Option.map_some] at hdup
          cases hdup
          exact .fallback rfl hold hnew (.inr (by simpa using hshare))
  · have hother : s.clears (.dupBpfMap oldfd newfd fake) = none := by
      simp only [clears]
      split
      · next m hm => exact absurd ⟨m, hm⟩ hmap
      · rfl
    unfold dupBpfMap at hdup
    split at hdup
    · next m hm => exact absurd ⟨m, hm⟩ hmap
    · cases hdup
      exact .stay hother

theorem addBpfLink_move {args : LinkArgs}
    (hadd : s.addBpfLink c fd fake args = some r) : Move c s (.addBpfLink fd fake args) r.2 := by
  unfold addBpfLink at hadd
  split at hadd
  · cases hadd
    exact .stay rfl
  · next hprog =>
    split at hadd
    · cases hadd
      exact .stay rfl
    · next htarget =>
      obtain ⟨q, hq, rfl⟩ := Option.map_eq_some_iff.mp hadd
      refine move_of_set rfl hq fun _ => ?_
      refine ⟨by simpa [linkOfArgs] using hprog, ?_⟩
      by_cases htype : args.attachType = perfEventAttachType
      · exact .inl (by simpa [htype, linkOfArgs] using htarget)
      · exact .inr (.inl ⟨args, rfl, htype⟩)

variable {cookie : Option (BitVec 64)}

theorem attach_cases {perfFd bpfFd : CInt}
    (hadd : s.addBpfProgAttachTarget c perfFd bpfFd cookie fake = some r) :
    r.2 = s ∨ s.isProgFd bpfFd ∧ ∃ q : Int × Shm,
      s.setHandler c fake (.link ⟨none, bpfFd, perfFd, cookie⟩) = some q ∧ r.2 = q.2 := by
  unfold addBpfProgAttachTarget at hadd
  split at hadd
  · cases hadd
    exact .inl rfl
  · next hprog =>
    split at hadd
    · cases hadd
      exact .inl rfl
    · obtain ⟨q, hq, rfl⟩ := Option.map_eq_some_iff.mp hadd
      exact .inr ⟨by simpa using hprog, q, hq, rfl⟩

theorem addBpfProgAttachTarget_move {perfFd bpfFd : CInt}
    (hadd : s.addBpfProgAttachTarget c perfFd bpfFd cookie fake = some r) :
    Move c s (.addBpfProgAttachTarget perfFd bpfFd cookie fake) r.2 := by
  obtain hsame | ⟨hprog, q, hq, hr⟩ := attach_cases hadd
  · rw [hsame]
    exact .stay rfl
  · rw [hr]
    exact move_of_set rfl hq fun hfree => ⟨hprog, .inr (.inr ⟨cookie, fake, rfl, hfree⟩)⟩

theorem attachPerfToBpf_move {perfFd bpfFd : CInt}
    (hadd : s.attachPerfToBpf c perfFd bpfFd cookie fake = some r) :
    Move c s (.attachPerfToBpf perfFd bpfFd cookie fake) r.2 := by
  unfold attachPerfToBpf at hadd
  split at hadd
  · cases hadd
    exact .stay rfl
  · next hperf =>
    obtain hsame | ⟨hprog, q, hq, hr⟩ := attach_cases hadd
    · rw [hsame]
      exact .stay rfl
    · rw [hr]
      exact move_of_set rfl hq fun _ => ⟨hprog, .inl (by simpa using hperf)⟩

end Shm

theorem step_move {c : Config} {s s' : Shm} {a : Op} (hstep : step c s a = some s') : Shm.Move c s a s' := by
  obtain ⟨r, hr, rfl⟩ := Option.map_eq_some_iff.mp hstep
  cases a with
  | addBpfMap fd fake name attr => exact Shm.addBpfMap_move hr
  | addBpfLink fd fake args => exact Shm.addBpfLink_move hr
  | addBpfProgAttachTarget perfFd bpfFd cookie fake => exact Shm.addBpfProgAttachTarget_move hr
  | attachPerfToBpf perfFd bpfFd cookie fake => exact Shm.attachPerfToBpf_move hr
  | dupBpfMap oldfd newfd fake => exact Shm.dupBpfMap_move hr
  | perfEventEnable fd enabled =>
    cases hr
    unfold Shm.perfEventEnable
    split
    · next e hs => exact .enable hs
    · exact .stay rfl
  | closeFd fd =>
    cases hr
    cases hs : s.slot fd with
    | none =>
      have hsame : s.clearIdAt fd = s := by
        unfold Shm.clearIdAt
        rw [hs]
      rw [Shm.closeFd, hsame]
      exact .stay (by rw [Shm.clears, hs]; rfl)
    | some h => exact .close hs
  | addCustomPerfEvent fake type attachArgument =>
    simp only [call, Shm.addCustomPerfEvent] at hr
    split at hr
    · cases hr
      exact .stay rfl
    · obtain ⟨q, hq, rfl⟩ := Option.map_eq_some_iff.mp hr
      exact Shm.move_of_set rfl hq fun _ => trivial
  | epollCreate fake =>
    simp only [call, Shm.epollCreate] at hr
    split at hr
    · cases hr
      exact .stay rfl
    · exact Shm.move_of_add rfl hr trivial
  | addBpfProg fd fake insns name progType found | addEpoll fd fake | addMemfdHandler fake name flags =>
    exact Shm.move_of_add rfl hr trivial
  | addUprobe fd fake pid name offset retprobe refCtrOff =>
    exact Shm.move_of_add rfl hr (Shm.wellTyped_uprobe pid name offset retprobe refCtrOff)
  | addUprobeOverride fd fake pid name offset isReplace =>
    exact Shm.move_of_add rfl hr (Shm.wellTyped_uprobeOverride pid name offset isReplace)
  | addTracepoint fd fake pid tracepointId | addSoftwarePerfEvent fd cpu sampleType config =>
    exact Shm.move_of_add rfl hr rfl
  | addKprobe fd fake funcName addr retprobe refCtrOff =>
    refine Shm.move_of_add rfl hr ?_
    cases retprobe
    · exact .inl rfl
    · exact .inr rfl

end HandlerTable
