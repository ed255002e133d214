import AmlCommonlib.Lib.Runs
import AmlCommonlib.WpaWifi.NetworkList

/-! # Connecting to networks and removing them

`aml_wpa_wifi_util.c` with the networks that wpa_supplicant has. The calls of one thread and any
number of monitor threads work under `sup_lock`; each locked section is a step, and so is the check
of an id, which is made before the lock. Every command to wpa_supplicant succeeds; those that change
no network's presence or ssid are left out.
-/

namespace AmlCommonlib.WpaWifi

/-- `WPA_WIFI_STATUS_TYPE`. -/
inductive WifiStatus where
  | invalid
  | success
  | connecting
  | disconnected
  | errorNotFound
  | errorInvalidCredentials
  | errorTimeoutExpired
  | errorDevDisconnect
  | errorUnknown
deriving DecidableEq

/-- `MAX_NEW_CONNECTION_TIMEOUT`. -/
def maxNewConnectionTimeout : ℕ := 24

/-- A network of wpa_supplicant. `addedBy` is no datum of the program: it is the connection attempt,
and so the monitor thread, of the `wpa_wifi_send_connect_cmd` that added the network. -/
structure Network where
  ssid : Bytes
  addedBy : Option ℕ
deriving DecidableEq

/-- Where a monitor thread is: in its loop, or behind it because the status was `WPA_WIFI_SUCCESS`. -/
inductive MonitorPc where
  | waiting (timer : ℕ)
  | connected
deriving DecidableEq

/-- What a call that has no lock is about to lock for: the network that `wpa_wifi_send_connect_cmd` has
added, or the id that `wpa_wifi_connect_with_network_id` or `wpa_wifi_send_remove_network` has
checked. -/
inductive Call where
  | added (networkId : ℕ)
  | connect (networkId : ℤ)
  | remove (networkId : ℤ)
deriving DecidableEq

/-- `WPA_WIFI_MANAGER`, the networks of wpa_supplicant by their ids, the connection attempts so far, and
the threads, the monitor threads by their attempts. -/
structure WpaManager extends NetworkTable where
  curNetworkId : ℤ
  previousConnectedNetworkId : ℤ
  pendingNetworkId : ℤ
  curWifiStatus : WifiStatus
  networks : List (ℕ × Network)
  attempts : ℕ
  monitors : List (ℕ × MonitorPc)
  call : Option Call

namespace WpaManager

/-- A call up to its lock, or for `wpa_wifi_send_connect_cmd` up to its unlocking, and the rest of it;
the event thread notes the network that is connected or a status; a monitor thread goes round its loop
or to its end. -/
inductive Action where
  | sendConnectCmd (ssid : Bytes)
  | connectAdded
  | connectWithNetworkId (networkId : ℤ)
  | connect
  | sendRemoveNetwork (networkId : ℤ)
  | remove
  | connectedId (networkId : ℕ)
  | status (status : WifiStatus)
  | poll (attempt : ℕ)
  | finish (attempt : ℕ)
deriving DecidableEq

/-- After `wpa_wifi_init`. -/
def start (listed : List Listed) (curNetworkId : ℤ) (status : WifiStatus) : WpaManager where
  toNetworkTable := initNetworkInfo (listNetworks listed)
  curNetworkId := curNetworkId
  previousConnectedNetworkId := -1
  pendingNetworkId := -1
  curWifiStatus := status
  networks := listed.zipIdx.map fun n => (n.2, ⟨n.1.ssid, none⟩)
  attempts := 0
  monitors := []
  call := none

/-- The id that `ADD_NETWORK` allocates: one more than the largest. -/
def nextId (networks : List (ℕ × Network)) : ℕ := (networks.map fun n => n.1 + 1).foldr max 0

def find (networks : List (ℕ × Network)) (networkId : ℤ) : Option Network :=
  (networks.find? fun n => (n.1 : ℤ) = networkId).map Prod.snd

/-- `REMOVE_NETWORK`. -/
def remove (networks : List (ℕ × Network)) (networkId : ℤ) : List (ℕ × Network) :=
  networks.filter fun n => (n.1 : ℤ) ≠ networkId

/-- The commands that give one network the settings of another. -/
def copy (networks : List (ℕ × Network)) (source target : ℤ) : List (ℕ × Network) :=
  match find networks source with
  | some network => networks.map fun n => if (n.1 : ℤ) = target then (n.1, network) else n
  | none => networks

/-- The locked section of `wpa_wifi_connect_with_network_id`, with the thread that it starts. -/
def connectLocked (s : WpaManager) (networkId : ℤ) : WpaManager :=
  { s with
    curWifiStatus := .invalid
    previousConnectedNetworkId := s.curNetworkId
    pendingNetworkId := networkId
    attempts := s.attempts + 1
    monitors := s.monitors ++ [(s.attempts, .waiting 0)]
    call := none }

/-- `wpa_wifi_connect_with_network_id`. -/
def connectWithNetworkId (s : WpaManager) (networkId : ℤ) : WpaManager :=
  if networkId < 0 ∨ s.networkNum ≤ networkId then { s with call := none }
  else { s with call := some (.connect networkId) }

/-- The locked section of `wpa_wifi_send_connect_cmd`. -/
def sendConnectCmd (s : WpaManager) (ssid : Bytes) : WpaManager :=
  let networkId := nextId s.networks
  { s with
    toNetworkTable :=
      { s.toNetworkTable with networkNum := s.networkNum + 1 }.setInfo networkId ⟨networkId, ssid⟩
    networks := s.networks ++ [(networkId, ⟨ssid, some s.attempts⟩)]
    call := some (.added networkId) }

/-- The locked section of `wpa_wifi_send_remove_network`. -/
def removeLocked (s : WpaManager) (networkId : ℤ) : WpaManager :=
  if networkId = -1 then { s with networkNum := 0, networks := [], call := none }
  else if s.networkNum - 1 = networkId then
    { s with
      networkNum := s.networkNum - 1
      networks := remove s.networks networkId
      call := none }
  else
    let maxNetworkId := s.networkNum - 1
    { s with
      toNetworkTable :=
        { s.toNetworkTable with networkNum := s.networkNum - 1 }.setInfo networkId.toNat
          { s.networkInfo networkId.toNat with ssid := (s.networkInfo maxNetworkId.toNat).ssid }
      networks := remove (copy s.networks maxNetworkId networkId) maxNetworkId
      call := none }

/-- `wpa_wifi_send_remove_network`. -/
def sendRemoveNetwork (s : WpaManager) (networkId : ℤ) : WpaManager :=
  if networkId < -1 ∨ s.networkNum ≤ networkId then s
  else { s with call := some (.remove networkId) }

/-- A monitor thread takes its network off the count, and removes it if it is the last. -/
def dropPending (s : WpaManager) : WpaManager :=
  { s with
    networkNum := s.networkNum - 1
    networks :=
      if s.pendingNetworkId = s.networkNum - 1 then remove s.networks s.pendingNetworkId
      else s.networks }

/-- `new_connection_monitor_thread_function` behind its loop. -/
def finish (s : WpaManager) : MonitorPc → WpaManager
  | .waiting _ =>
    { s.dropPending with
      pendingNetworkId := -1
      curNetworkId := -1
      previousConnectedNetworkId := -1
      curWifiStatus := .errorUnknown }
  | .connected =>
    if s.curNetworkId ≠ s.pendingNetworkId then
      { s.dropPending with previousConnectedNetworkId := -1, pendingNetworkId := -1 }
    else { s with previousConnectedNetworkId := -1, pendingNetworkId := -1 }

def setMonitor (s : WpaManager) (attempt : ℕ) (pc : MonitorPc) : WpaManager :=
  { s with monitors := s.monitors.map fun m => if m.1 = attempt then (attempt, pc) else m }

def monitor? (s : WpaManager) (attempt : ℕ) : Option MonitorPc :=
  (s.monitors.find? fun m => m.1 = attempt).map Prod.snd

def endMonitor (s : WpaManager) (attempt : ℕ) : WpaManager :=
  { s with monitors := s.monitors.filter fun m => m.1 ≠ attempt }

/-- One step. An ssid has at most 32 bytes. -/
def step (s : WpaManager) : Action → Option WpaManager
  | .sendConnectCmd ssid =>
    if s.call = none ∧ ssid.length ≤ 32 ∧ IsCString ssid then some (s.sendConnectCmd ssid) else none
  | .connectAdded =>
    match s.call with
    | some (.added networkId) => some (s.connectWithNetworkId networkId)
    | _ => none
  | .connectWithNetworkId networkId =>
    if s.call = none then some (s.connectWithNetworkId networkId) else none
  | .connect =>
    match s.call with
    | some (.connect networkId) => some (s.connectLocked networkId)
    | _ => none
  | .sendRemoveNetwork networkId =>
    if s.call = none then some (s.sendRemoveNetwork networkId) else none
  | .remove =>
    match s.call with
    | some (.remove networkId) => some (s.removeLocked networkId)
    | _ => none
  | .connectedId networkId => some { s with curNetworkId := networkId }
  | .status status => some { s with curWifiStatus := status }
  | .poll attempt =>
    match s.monitor? attempt with
    | some (.waiting timer) =>
      if timer < maxNewConnectionTimeout then
        some (s.setMonitor attempt
          (if s.curWifiStatus = .success then .connected else .waiting (timer + 1)))
      else none
    | _ => none
  | .finish attempt =>
    match s.monitor? attempt with
    | some (.waiting timer) =>
      if timer < maxNewConnectionTimeout then none
      else some ((s.finish (.waiting timer)).endMonitor attempt)
    | some .connected => some ((s.finish .connected).endMonitor attempt)
    | none => none

def Step (s : WpaManager) (a : Action) (s' : WpaManager) : Prop := s.step a = some s'

/-- The connection attempt has failed: it has taken too long, or another network is connected. -/
def failed (s : WpaManager) (attempt : ℕ) : Bool :=
  match s.monitor? attempt with
  | some (.waiting _) => true
  | some .connected => s.curNetworkId ≠ s.pendingNetworkId
  | none => false

/-- There is room for a new network, the id that is removed is still in the table, and an attempt
fails only while the pending network is the one it has added, which is the last. -/
def safe (s : WpaManager) : Action → Bool
  | .sendConnectCmd _ => nextId s.networks < maxNetworks
  | .remove =>
    match s.call with
    | some (.remove networkId) => networkId < s.networkNum
    | _ => true
  | .finish attempt =>
    s.failed attempt → s.pendingNetworkId = s.networkNum - 1 ∧
      (find s.networks s.pendingNetworkId).bind Network.addedBy = some attempt
  | _ => true

/-! ### What is to hold -/

/-- The table has the networks of wpa_supplicant, whose ids are contiguous. -/
structure Mirrors (t : NetworkTable) (networks : List (ℕ × Network)) : Prop where
  number : t.networkNum = networks.length
  ids : networks.map Prod.fst = List.range networks.length
  inside : t.overrun = false
  few : networks.length ≤ maxNetworks
  info : ∀ n ∈ networks, (t.networkInfo n.1).ssid = n.2.ssid

/-- The networks whatever their ids. -/
def contents (networks : List (ℕ × Network)) : List Network := networks.map Prod.snd

/-- The networks that an action may remove: those it is asked to, and the one that an attempt which
has failed had added. -/
def mayRemove (s : WpaManager) : Action → List Network
  | .remove =>
    match s.call with
    | some (.remove networkId) =>
      if networkId = -1 then contents s.networks else (find s.networks networkId).toList
    | _ => []
  | .finish attempt =>
    if s.failed attempt then
      (contents s.networks).filter fun network => network.addedBy = some attempt
    else []
  | _ => []

/-- Once no monitor thread is running the table has the networks of wpa_supplicant, and no step
removes a network that it may not remove. -/
structure Lawful (step : WpaManager → Action → WpaManager → Prop) (s : WpaManager) : Prop where
  mirrors : s.monitors = [] → Mirrors s.toNetworkTable s.networks
  keeps : ∀ a s', step s a s' →
    (contents s.networks).Subperm (contents s'.networks ++ s.mayRemove a)

end WpaManager

end AmlCommonlib.WpaWifi
