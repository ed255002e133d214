import AmlCommonlib.ServiceManager.BinderIo

/-! # The service manager

The service manager keeps the list of the registered services and answers the commands that the
binder driver delivers. What it writes back to the driver is part of its state. A record is never
freed; its place in memory is told apart by the number of records made before it.
-/

namespace AmlCommonlib.ServiceManager

def BINDER_SERVICE_MANAGER : ℕ := 0
def PING_TRANSACTION : ℕ := 0x5f504e47
def SVC_MGR_GET_SERVICE : ℕ := 1
def SVC_MGR_CHECK_SERVICE : ℕ := 2
def SVC_MGR_ADD_SERVICE : ℕ := 3
def SVC_MGR_LIST_SERVICES : ℕ := 4

/-- `android.os.IServiceManager`. -/
def svcmgrId : Units :=
  [97, 110, 100, 114, 111, 105, 100, 46, 111, 115, 46, 73, 83, 101, 114, 118, 105, 99, 101, 77, 97,
    110, 97, 103, 101, 114]

/-- `struct svcinfo`; `death` is the place of its `binder_death`, which points back to the record. -/
structure Svcinfo where
  handle : ℕ
  death : ℕ
  allowIsolated : Bool
  name : Units

/-- What is written to the driver. -/
inductive Command
  | acquire (handle : ℕ)
  | release (handle : ℕ)
  | requestDeathNotification (handle cookie : ℕ)
  | freeBuffer (buffer : ℕ)
  | reply (data : Bytes) (offsets : List ℕ)
  | replyStatus (status : ℤ)
  deriving DecidableEq

/-- `svclist`, the newest record first, and what `binder_write` has written. -/
structure Manager where
  svclist : List Svcinfo
  written : List Command

/-- The service manager before its first command. -/
def start : Manager := ⟨[], []⟩

def findSvc (svclist : List Svcinfo) (s : Units) : Option Svcinfo :=
  svclist.find? fun si => si.name == s

namespace Manager

def write (bs : Manager) (command : Command) : Manager :=
  { bs with written := bs.written ++ [command] }

/-- Stores a handle in the record at a place. -/
def setHandle (bs : Manager) (ptr handle : ℕ) : Manager :=
  { bs with svclist := bs.svclist.map fun si =>
      if si.death = ptr then { si with handle := handle } else si }

/-- `svcinfo_death` of the record at a place that the driver was given. -/
def svcinfoDeath (bs : Manager) (ptr : ℕ) : Manager :=
  match bs.svclist.find? fun si => si.death == ptr with
  | some si => if si.handle ≠ 0 then (bs.write (.release si.handle)).setHandle ptr 0 else bs
  | none => bs

/-- `do_find_service`. -/
def doFindService (bs : Manager) (s : Units) : ℕ :=
  match findSvc bs.svclist s with
  | some si => si.handle
  | none => 0

/-- `do_add_service`; `memory` tells whether `malloc` finds room. -/
def doAddService (bs : Manager) (s : Units) (handle : ℕ) (allowIsolated memory : Bool) :
    ℤ × Manager :=
  if handle = 0 ∨ s.length = 0 ∨ s.length > 127 then (-1, bs)
  else
    match findSvc bs.svclist s with
    | some si =>
      let bs := if si.handle ≠ 0 then bs.svcinfoDeath si.death else bs
      let bs := (bs.setHandle si.death handle).write (.acquire handle)
      (0, bs.write (.requestDeathNotification handle si.death))
    | none =>
      if memory then
        let si : Svcinfo := ⟨handle, bs.svclist.length, allowIsolated, s⟩
        let bs := { bs with svclist := si :: bs.svclist }.write (.acquire handle)
        (0, bs.write (.requestDeathNotification handle si.death))
      else (-1, bs)

/-- The `switch` of `svcmgr_handler` over the code of a message. -/
def svcmgrSwitch (bs : Manager) (code : ℕ) (msg reply : BinderIo) (memory : Bool) :
    ℤ × BinderIo × Manager :=
  if code = SVC_MGR_GET_SERVICE ∨ code = SVC_MGR_CHECK_SERVICE then
    match msg.getString16 with
    | (none, _) => (-1, reply, bs)
    | (some s, _) =>
      let handle := bs.doFindService s
      if handle = 0 then (0, reply.putUint32 0, bs)
      else (0, reply.putRef handle, bs)
  else if code = SVC_MGR_ADD_SERVICE then
    match msg.getString16 with
    | (none, _) => (-1, reply, bs)
    | (some s, msg) =>
      let (handle, msg) := msg.getRef
      let (isolated, _) := msg.getUint32
      let (failed, bs) := bs.doAddService s handle (isolated ≠ 0) memory
      if failed ≠ 0 then (-1, reply, bs)
      else (0, reply.putUint32 0, bs)
  else if code = SVC_MGR_LIST_SERVICES then
    let (n, _) := msg.getUint32
    match bs.svclist[n]? with
    | some si => (0, reply.putString16 si.name, bs)
    | none => (-1, reply, bs)
  else (-1, reply, bs)

/-- `svcmgr_handler`. -/
def svcmgrHandler (bs : Manager) (txn : Txn) (msg reply : BinderIo) (memory : Bool) :
    ℤ × BinderIo × Manager :=
  if txn.target ≠ BINDER_SERVICE_MANAGER then (-1, reply, bs)
  else if txn.code = PING_TRANSACTION then (0, reply, bs)
  else
    let (_, msg) := msg.getUint32
    match msg.getString16 with
    | (none, _) => (-1, reply, bs)
    | (some id, msg) =>
      if id ≠ svcmgrId then (-1, reply, bs)
      else bs.svcmgrSwitch txn.code msg reply memory

/-- `binder_send_reply`. -/
def sendReply (bs : Manager) (reply : BinderIo) (bufferToFree : ℕ) (status : ℤ) : Manager :=
  let bs := bs.write (.freeBuffer bufferToFree)
  if status ≠ 0 then bs.write (.replyStatus status)
  else bs.write (.reply (reply.data0.take reply.data) (reply.offs0.take reply.offs))

end Manager

/-- The buffer on the stack that a reply is made in; what it holds before is left over. -/
structure Stack where
  rdata : Bytes
  size : rdata.length = 256

/-- What the driver delivers. -/
inductive Return
  | noop
  | transactionComplete
  | references
  | transaction (txn : Txn) (stack : Stack) (memory : Bool)
  | reply
  | deadBinder (cookie : ℕ)
  | failedReply
  | deadReply
  | other

namespace Manager

/-- `BR_TRANSACTION` of `binder_parse`; also the result of the handler. -/
def transaction (bs : Manager) (txn : Txn) (stack : Stack) (memory : Bool) : ℤ × Manager :=
  let (res, reply, bs) :=
    bs.svcmgrHandler txn (bioInitFromTxn txn) (bioInit stack.rdata 256 4) memory
  (res, bs.sendReply reply txn.buffer res)

/-- `binder_parse`: its result and the state behind the commands. -/
def binderParse (bs : Manager) (r : ℤ) : List Return → ℤ × Manager
  | [] => (r, bs)
  | .noop :: rest => bs.binderParse r rest
  | .transactionComplete :: rest => bs.binderParse r rest
  | .references :: rest => bs.binderParse r rest
  | .transaction txn stack memory :: rest => (bs.transaction txn stack memory).2.binderParse r rest
  | .reply :: rest => bs.binderParse 0 rest
  | .deadBinder cookie :: rest => (bs.svcinfoDeath cookie).binderParse r rest
  | .failedReply :: rest => bs.binderParse (-1) rest
  | .deadReply :: rest => bs.binderParse (-1) rest
  | .other :: _ => (-1, bs)

/-- `binder_loop` over what the driver returns to its reads. -/
def binderLoop (bs : Manager) : List (List Return) → Manager
  | [] => bs
  | commands :: rest =>
    let (res, bs) := bs.binderParse 1 commands
    if res ≤ 0 then bs else bs.binderLoop rest

end Manager

end AmlCommonlib.ServiceManager
