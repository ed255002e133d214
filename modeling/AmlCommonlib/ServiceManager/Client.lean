import AmlCommonlib.ServiceManager.Deliveries
import AmlCommonlib.ServiceManager.Replies

/-! # The proxy of the service manager

The calls that a process makes to the service manager. The driver rewrites the objects in a message
on its way; how it does so is a parameter.
-/

namespace AmlCommonlib.ServiceManager

/-- What the driver makes of an object on its way to the service manager and back to a client. -/
structure Driver where
  toManager : FlatObject → FlatObject
  fromManager : FlatObject → FlatObject

/-- A message whose objects are rewritten. -/
def rewriteObjects (f : FlatObject → FlatObject) (data : Bytes) (offsets : List ℕ) : Bytes :=
  offsets.foldl (fun data o => overwrite data o (f (.decode (slice data o flatSize))).encode) data

/-- What a call does not choose: the strict mode policy of the thread, the stack and the memory of
the service manager and the buffer of the driver. -/
structure Call where
  policy : UInt32
  stack : Stack
  memory : Bool
  buffer : ℕ

/-- `transact` with the service manager: the status, the reply and the service manager after it. -/
def transact (d : Driver) (call : Call) (bs : Manager) (code : ℕ) (data : Parcel) :
    ℤ × Parcel × Manager :=
  if data.mError ≠ NO_ERROR then (data.mError, { mError := data.mError }, bs)
  else
    let txn : Txn := {
      target := BINDER_SERVICE_MANAGER
      code
      data := rewriteObjects d.toManager data.mData data.mObjects
      offsets := data.mObjects
      buffer := call.buffer }
    let bs := (bs.transaction txn call.stack call.memory).2
    match bs.written.getLast? with
    | some (.reply data offsets) =>
      (NO_ERROR, .ipcSetDataReference (rewriteObjects d.fromManager data offsets) offsets, bs)
    | some (.replyStatus status) => (status, { mError := status }, bs)
    | _ => (NO_ERROR, {}, bs)

def CHECK_SERVICE_TRANSACTION : ℕ := 2
def ADD_SERVICE_TRANSACTION : ℕ := 3
def LIST_SERVICES_TRANSACTION : ℕ := 4

/-- `BpServiceManager::checkService`. -/
def checkService (d : Driver) (call : Call) (bs : Manager) (name : Units) : Binder × Manager :=
  let data := ((({} : Parcel).writeInterfaceToken call.policy.toNat svcmgrId).2.writeString16 name).2
  let (_, reply, bs) := transact d call bs CHECK_SERVICE_TRANSACTION data
  (reply.readStrongBinder.1, bs)

/-- `BpServiceManager::addService`. -/
def addService (d : Driver) (call : Call) (bs : Manager) (name : Units) (service : Binder)
    (allowIsolated : Bool) : ℤ × Manager :=
  let data := ((({} : Parcel).writeInterfaceToken call.policy.toNat svcmgrId).2.writeString16 name).2
  let data := (data.writeStrongBinder service).2
  let data := (data.writeInt32 (if allowIsolated then 1 else 0)).2
  let (err, reply, bs) := transact d call bs ADD_SERVICE_TRANSACTION data
  (if err = NO_ERROR then reply.readExceptionCode else err, bs)

/-- One call of `BpServiceManager::listServices`; no name where the loop ends. -/
def listService (d : Driver) (call : Call) (bs : Manager) (n : ℕ) : Option Units × Manager :=
  let data := ((({} : Parcel).writeInterfaceToken call.policy.toNat svcmgrId).2.writeInt32 n).2
  let (err, reply, bs) := transact d call bs LIST_SERVICES_TRANSACTION data
  (if err = NO_ERROR then some reply.readString16.1 else none, bs)

/-! ### Messages -/

/-- The front of every message. -/
def token (policy : ℕ) : Bytes :=
  leBytes 4 (policy ||| STRICT_MODE_PENALTY_GATHER) ++ string16 svcmgrId

theorem length_token (policy : ℕ) : (token policy).length = 64 := by
  rw [token, List.length_append, length_leBytes]
  rfl

theorem rewriteObjects_one (f : FlatObject → FlatObject) (before after : Bytes) (obj : FlatObject) :
    rewriteObjects f (before ++ (obj.encode ++ after)) [before.length] =
      before ++ ((f obj).encode ++ after) := by
  have object : slice (before ++ (obj.encode ++ after)) before.length flatSize = obj.encode := by
    rw [slice, List.drop_left, List.take_left' (length_encode obj)]
  rw [rewriteObjects, List.foldl_cons, List.foldl_nil, object, decode_encode]
  exact overwrite_part rfl rfl (by simp)

theorem rewriteObjects_first (f : FlatObject → FlatObject) (obj : FlatObject) :
    rewriteObjects f obj.encode [0] = (f obj).encode := by
  simpa using rewriteObjects_one f [] [] obj

/-- The interface name of a message is read before its request. -/
theorem exists_reading {code policy : ℕ} (word : policy ||| STRICT_MODE_PENALTY_GATHER < 2 ^ 32)
    (known : code ≠ PING_TRANSACTION) (body : Bytes) (offsets : List ℕ) (buffer : ℕ) :
    ∃ bio : BinderIo, bio.Reading body ∧ bio.data = 64 ∧
      slice bio.offs0 bio.offs bio.offsAvail = offsets ∧
      Txn.request ⟨BINDER_SERVICE_MANAGER, code, token policy ++ body, offsets, buffer⟩ =
        .read code bio := by
  let txn : Txn := ⟨BINDER_SERVICE_MANAGER, code, token policy ++ body, offsets, buffer⟩
  have start : (bioInitFromTxn txn).Reading
      (leBytes 4 (policy ||| STRICT_MODE_PENALTY_GATHER) ++ (string16 svcmgrId ++ body)) := by
    rw [← List.append_assoc]
    exact ⟨rfl, rfl⟩
  obtain ⟨header, behind⟩ := start.getUint32 word
  obtain ⟨name, next⟩ := behind.getString16 (by decide)
  refine ⟨_, next, rfl, ?_, ?_⟩
  · exact List.take_length
  · rw [Txn.request, if_neg (by simp), if_neg known, header]
    simp only [name, if_true]

/-- What the client has written in front of every request. -/
theorem written_token {policy : ℕ} :
    (({} : Parcel).writeInterfaceToken policy svcmgrId).2.Written (token policy) [] := by
  obtain ⟨-, header⟩ := Parcel.written_empty.writeInt32 (policy ||| STRICT_MODE_PENALTY_GATHER)
    (by simp)
  rcases header.writeString16 svcmgrId (by simp) with full | ⟨-, long⟩
  · exact full
  · exact absurd long (by decide)

/-- The same with a name behind it. -/
theorem written_name (policy : ℕ) (name : Units) :
    ((({} : Parcel).writeInterfaceToken policy svcmgrId).2.writeString16 name).2.Written
        (token policy ++ string16 name) [] ∨
      ((({} : Parcel).writeInterfaceToken policy svcmgrId).2.writeString16 name).2.Written
        (token policy ++ leBytes 4 name.length) [] ∧ 2 ^ 28 ≤ name.length :=
  written_token.writeString16 name (by rw [length_token]; decide)

variable {policy : ℕ} {bio : BinderIo} {name : Units} {rest : Bytes}

theorem read_check (msg : BinderIo) : Request.read CHECK_SERVICE_TRANSACTION msg =
    match msg.getString16 with
    | (some s, _) => .find s
    | (none, _) => .refused := rfl

theorem read_add (msg : BinderIo) : Request.read ADD_SERVICE_TRANSACTION msg =
    match msg.getString16 with
    | (some s, msg) => .add s msg.getRef.1 (msg.getRef.2.getUint32.1 ≠ 0)
    | (none, _) => .refused := rfl

theorem read_list (msg : BinderIo) :
    Request.read LIST_SERVICES_TRANSACTION msg = .list msg.getUint32.1 := rfl

theorem read_find (reading : bio.Reading (string16 name ++ rest)) (word : name.length < 2 ^ 32) :
    Request.read CHECK_SERVICE_TRANSACTION bio = .find name := by
  rw [read_check, (reading.getString16 word).1]

/-- A name that found no room in the parcel. -/
theorem read_refused {n code : ℕ} (reading : bio.Reading (leBytes 4 n ++ rest)) (word : n < 2 ^ 32)
    (short : rest.length < (n + 1) * 2)
    (named : code = CHECK_SERVICE_TRANSACTION ∨ code = ADD_SERVICE_TRANSACTION) :
    Request.read code bio = .refused := by
  have missing := reading.getString16_none word short
  have shape : bio.getString16 = (none, bio.getString16.2) := Prod.ext missing rfl
  rcases named with rfl | rfl
  · rw [read_check, shape]
  · rw [read_add, shape]

theorem read_list_number {n : ℕ} (reading : bio.Reading (leBytes 4 n ++ rest))
    (word : n < 2 ^ 32) : Request.read LIST_SERVICES_TRANSACTION bio = .list n := by
  rw [read_list, (reading.getUint32 word).1]

theorem read_add_name (reading : bio.Reading (string16 name ++ rest))
    (word : name.length < 2 ^ 32) :
    ∃ handle isolated, Request.read ADD_SERVICE_TRANSACTION bio = .add name handle isolated := by
  rw [read_add, (reading.getString16 word).1]
  exact ⟨_, _, rfl⟩

theorem read_add_object {obj : FlatObject} {isolated : ℕ}
    (reading : bio.Reading (string16 name ++ (obj.encode ++ leBytes 4 isolated)))
    (word : name.length < 2 ^ 32) (flag : isolated < 2 ^ 32)
    (listed : bio.data + (string16 name).length ∈ slice bio.offs0 bio.offs bio.offsAvail) :
    Request.read ADD_SERVICE_TRANSACTION bio = .add name
      (if obj.type = BINDER_TYPE_HANDLE then obj.handle.toNat else 0) (isolated ≠ 0) := by
  obtain ⟨first, behind⟩ := reading.getString16 word
  obtain ⟨second, next⟩ := behind.getRef listed
  rw [← List.append_nil (leBytes 4 isolated)] at next
  obtain ⟨third, -⟩ := next.getUint32 flag
  rw [read_add, first]
  simp only [second, third]

/-! ### Calls -/

variable {d : Driver} {call : Call} {bs : Manager}

/-- The message of a call as the service manager gets it. -/
def Driver.message (d : Driver) (call : Call) (code : ℕ) (data : Bytes) (objects : List ℕ) : Txn where
  target := BINDER_SERVICE_MANAGER
  code := code
  data := rewriteObjects d.toManager data objects
  offsets := objects
  buffer := call.buffer

/-- What a client gets of a reply. -/
def Driver.received (d : Driver) (reply : BinderIo) : Parcel :=
  .ipcSetDataReference (rewriteObjects d.fromManager reply.sent.1 reply.sent.2) reply.sent.2

section Transact

variable {p : Parcel} {data : Bytes} {objects : List ℕ} {code : ℕ} {request : Request}
  {reply : BinderIo} {mid : Manager}

/-- The command that a call makes the driver deliver. -/
def Driver.delivery (d : Driver) (call : Call) (code : ℕ) (data : Bytes) (objects : List ℕ) :
    Return := .transaction (d.message call code data objects) call.stack call.memory

theorem transact_eq (written : p.Written data objects)
    (asked : (d.message call code data objects).request = request) {status : ℤ}
    (served : bs.serve call.stack.reply call.memory request = (status, reply, mid)) :
    ∃ bs', Deliver bs (d.delivery call code data objects, status) bs' ∧
      bs'.svclist = mid.svclist ∧ transact d call bs code p =
        if status ≠ 0 then (status, { mError := status }, bs')
        else (NO_ERROR, d.received reply, bs') := by
  obtain ⟨error, -, whole, listed⟩ := written
  have answer : bs.transaction (d.message call code data objects) call.stack call.memory =
      (status, mid.sendReply reply call.buffer status) := by
    rw [Manager.transaction, svcmgrHandler_eq, asked, ← Stack.reply, served]
    rfl
  refine ⟨mid.sendReply reply call.buffer status, answer, (sendReply_records ..).1, ?_⟩
  rw [transact, if_neg (by simp [error])]
  rw [Driver.message] at answer
  simp only [whole, listed, answer, Manager.sendReply]
  split_ifs with failed
  · simp [Manager.write]
  · simp [Manager.write, BinderIo.sent, Driver.received]

/-- A call that is refused. -/
theorem transact_refused (written : p.Written data objects)
    (asked : (d.message call code data objects).request = request)
    (served : bs.serve call.stack.reply call.memory request = (-1, reply, mid)) :
    ∃ bs', Deliver bs (d.delivery call code data objects, -1) bs' ∧ bs'.svclist = mid.svclist ∧
      transact d call bs code p = (-1, { mError := -1 }, bs') := transact_eq written asked served

/-- A call that is served. -/
theorem transact_served (written : p.Written data objects)
    (asked : (d.message call code data objects).request = request)
    (served : bs.serve call.stack.reply call.memory request = (0, reply, mid)) :
    ∃ bs', Deliver bs (d.delivery call code data objects, 0) bs' ∧ bs'.svclist = mid.svclist ∧
      transact d call bs code p = (NO_ERROR, d.received reply, bs') :=
  transact_eq written asked served

end Transact

theorem policy_word (call : Call) : call.policy.toNat ||| STRICT_MODE_PENALTY_GATHER < 2 ^ 32 :=
  Nat.or_lt_two_pow call.policy.toNat_lt (by decide)

/-- The message of a lookup. -/
theorem check_request (d : Driver) (call : Call) (word : name.length < 2 ^ 32) :
    (d.message call CHECK_SERVICE_TRANSACTION (token call.policy.toNat ++ string16 name)
      []).request = .find name := by
  obtain ⟨bio, reading, -, -, request⟩ := exists_reading (policy_word call)
    (show CHECK_SERVICE_TRANSACTION ≠ PING_TRANSACTION by decide) (string16 name) [] call.buffer
  rw [← List.append_nil (string16 name)] at reading
  exact request.trans (read_find reading word)

/-- The message of a lookup whose name found no room. -/
theorem check_refused (d : Driver) (call : Call) {n : ℕ} (word : n < 2 ^ 32) :
    (d.message call CHECK_SERVICE_TRANSACTION (token call.policy.toNat ++ leBytes 4 n)
      []).request = .refused := by
  obtain ⟨bio, reading, -, -, request⟩ := exists_reading (policy_word call)
    (show CHECK_SERVICE_TRANSACTION ≠ PING_TRANSACTION by decide) (leBytes 4 n) [] call.buffer
  rw [← List.append_nil (leBytes 4 n)] at reading
  exact request.trans (read_refused reading word (by rw [List.length_nil]; omega) (.inl rfl))

theorem list_request (d : Driver) (call : Call) {n : ℕ} (word : n < 2 ^ 32) :
    (d.message call LIST_SERVICES_TRANSACTION (token call.policy.toNat ++ leBytes 4 n)
      []).request = .list n := by
  obtain ⟨bio, reading, -, -, request⟩ := exists_reading (policy_word call)
    (show LIST_SERVICES_TRANSACTION ≠ PING_TRANSACTION by decide) (leBytes 4 n) [] call.buffer
  rw [← List.append_nil (leBytes 4 n)] at reading
  exact request.trans (read_list_number reading word)

/-- The message of a registration. -/
theorem add_request (d : Driver) (call : Call) (word : name.length < 2 ^ 32) (obj : FlatObject)
    (isolated : Bool) :
    (d.message call ADD_SERVICE_TRANSACTION (token call.policy.toNat ++ (string16 name ++
      (obj.encode ++ leBytes 4 (if isolated then 1 else 0)))) [64 + (string16 name).length]).request =
        .add name (if (d.toManager obj).type = BINDER_TYPE_HANDLE then
          (d.toManager obj).handle.toNat else 0) isolated := by
  have moved := rewriteObjects_one d.toManager (token call.policy.toNat ++ string16 name)
    (leBytes 4 (if isolated then 1 else 0)) obj
  rw [List.length_append, length_token, List.append_assoc, List.append_assoc] at moved
  obtain ⟨bio, reading, place, offsets, request⟩ := exists_reading (policy_word call)
    (show ADD_SERVICE_TRANSACTION ≠ PING_TRANSACTION by decide)
    (string16 name ++ ((d.toManager obj).encode ++ leBytes 4 (if isolated then 1 else 0)))
    [64 + (string16 name).length] call.buffer
  have flag : (if isolated then 1 else 0) < 2 ^ 32 := by split_ifs <;> decide
  have asked := read_add_object reading word flag (by rw [offsets, place]; simp)
  rw [Driver.message, moved, request, asked]
  cases isolated <;> rfl

/-- The message of a registration of no object. -/
theorem add_request_null (d : Driver) (call : Call) (word : name.length < 2 ^ 32) (body : Bytes) :
    ∃ isolated, (d.message call ADD_SERVICE_TRANSACTION (token call.policy.toNat ++
      (string16 name ++ body)) []).request = .add name 0 isolated := by
  obtain ⟨bio, reading, -, offsets, request⟩ := exists_reading (policy_word call)
    (show ADD_SERVICE_TRANSACTION ≠ PING_TRANSACTION by decide) (string16 name ++ body) [] call.buffer
  have unlisted : (bio.advance (string16 name).length).getRef.1 = 0 :=
    BinderIo.getRef_unlisted offsets
  rw [Driver.message, rewriteObjects, List.foldl_nil, request, read_add,
    (reading.getString16 word).1]
  exact ⟨_, congrArg (Request.add name · _) unlisted⟩

/-- The driver rewrites objects behind the front of a message only. -/
theorem rewriteObjects_tail (f : FlatObject → FlatObject) (before tail : Bytes) {listed : List ℕ}
    (behind : listed = [] ∨ listed = [before.length]) :
    ∃ tail', tail'.length = tail.length ∧
      rewriteObjects f (before ++ tail) listed = before ++ tail' := by
  rcases behind with rfl | rfl
  · exact ⟨tail, rfl, rfl⟩
  · let src := (f (.decode (slice (before ++ tail) before.length flatSize))).encode
    have shape : overwrite (before ++ tail) before.length src =
        before ++ (src.take tail.length ++ tail.drop src.length) := by
      rw [overwrite, List.take_left, List.length_append, Nat.add_sub_cancel_left, ← List.drop_drop,
        List.drop_left, List.append_assoc]
    have length := length_overwrite (before ++ tail) before.length src
    rw [shape, List.length_append, @List.length_append _ before tail] at length
    exact ⟨_, Nat.add_left_cancel length, shape⟩

/-- The message of a registration under a name that is too long. -/
theorem add_request_long (d : Driver) (call : Call) (word : name.length < 2 ^ 32)
    (long : 127 < name.length) {front tail : Bytes} {listed : List ℕ}
    (behind : listed = [] ∨ listed = [(token call.policy.toNat ++ front).length])
    (few : tail.length ≤ 28) (named : front = string16 name ∨ front = leBytes 4 name.length) :
    (∃ h isolated, (d.message call ADD_SERVICE_TRANSACTION
        (token call.policy.toNat ++ front ++ tail) listed).request = .add name h isolated) ∨
      (d.message call ADD_SERVICE_TRANSACTION
        (token call.policy.toNat ++ front ++ tail) listed).request = .refused := by
  obtain ⟨tail', length, moved⟩ := rewriteObjects_tail d.toManager _ tail behind
  obtain ⟨bio, reading, -, -, request⟩ := exists_reading (policy_word call)
    (show ADD_SERVICE_TRANSACTION ≠ PING_TRANSACTION by decide) (front ++ tail') listed call.buffer
  rw [Driver.message, moved, List.append_assoc, request]
  rcases named with rfl | rfl
  · exact .inl (read_add_name reading word)
  · exact .inr (read_refused reading word (by omega) (.inr rfl))

/-- The driver hands a client a service by the handle that the service manager has for it. -/
def Driver.Delivers (d : Driver) (view : ℕ → Binder) : Prop :=
  ∀ obj : FlatObject, obj.type = BINDER_TYPE_HANDLE →
    Parcel.unflattenBinder (some (d.fromManager obj)) = view obj.handle.toNat

end AmlCommonlib.ServiceManager
