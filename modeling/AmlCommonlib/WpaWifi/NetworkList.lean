import AmlCommonlib.Lib.CString
import Mathlib.Data.Int.Notation
import Mathlib.Data.List.Infix
import Mathlib.Logic.Function.Basic

/-! # Loading the list of networks

`init_network_info` over the text that `LIST_NETWORKS` gives: a header, and for each network a line
with its id, its ssid, and more, separated by tabs.
-/

namespace AmlCommonlib.WpaWifi

/-- `WPA_WIFI_NETWORK_ID_INFO`. -/
structure NetworkIdInfo where
  networkId : ℤ
  ssid : Bytes
deriving DecidableEq

def maxNetworks : ℕ := 10

/-- `WPA_SSID_SIZE_MAX`. -/
def ssidSizeMax : ℕ := 64

/-- `network_info` with `network_num`; `overrun` is whether anything has been stored outside an
array. -/
structure NetworkTable where
  networkNum : ℤ
  networkInfo : ℕ → NetworkIdInfo
  overrun : Bool

namespace NetworkTable

def empty : NetworkTable := ⟨0, fun _ => ⟨0, []⟩, false⟩

/-- A store into `network_info[i]`, with the `strcpy` of its ssid. -/
def setInfo (t : NetworkTable) (i : ℕ) (info : NetworkIdInfo) : NetworkTable :=
  if i < maxNetworks ∧ info.ssid.length < ssidSizeMax then
    { t with networkInfo := Function.update t.networkInfo i info }
  else { t with overrun := true }

end NetworkTable

/-- `isspace`. -/
def isSpace (b : UInt8) : Bool := b = 32 ∨ 9 ≤ b ∧ b ≤ 13

def isDigit (b : UInt8) : Bool := 48 ≤ b ∧ b ≤ 57

/-- The conversion `%d` of `sscanf`, with what is left of the text. -/
def scanInt (s : Bytes) : Option (ℤ × Bytes) :=
  let s := s.dropWhile isSpace
  let negative := s.head? = some 45
  let s := if s.head? = some 45 ∨ s.head? = some 43 then s.tail else s
  let digits := s.takeWhile isDigit
  let value : ℤ := digits.foldl (fun n d => 10 * n + (d.toNat - 48)) 0
  if digits = [] then none else some (if negative then -value else value, s.dropWhile isDigit)

/-- `sscanf(token, "%d\t%[^\t\n]", &network_id, ssid) == 2`. -/
def scanNetwork (token : Bytes) : Option NetworkIdInfo :=
  (scanInt token).bind fun (networkId, rest) =>
    let ssid := (rest.dropWhile isSpace).takeWhile fun b => b ≠ 9 ∧ b ≠ 10
    if ssid = [] then none else some ⟨networkId, ssid⟩

/-- `network id`. -/
def networkIdText : Bytes := [110, 101, 116, 119, 111, 114, 107, 32, 105, 100]

/-- `---`. -/
def rule : Bytes := [45, 45, 45]

/-- The loop body of `init_network_info`. -/
def loadToken (t : NetworkTable) (token : Bytes) : NetworkTable :=
  if networkIdText <:+: token ∨ rule <:+: token then t
  else
    match scanNetwork token with
    | some info =>
      if t.networkNum < maxNetworks then
        { t.setInfo t.networkNum.toNat info with networkNum := t.networkNum + 1 }
      else t
    | none => t

/-- `init_network_info` when the command succeeds; `result` has room for 511 bytes of the reply. -/
def initNetworkInfo (reply : Bytes) : NetworkTable :=
  (((reply.take 511).splitOn 10).filter (· ≠ [])).foldl loadToken .empty

/-! ### The reply -/

/-- A network as `LIST_NETWORKS` shows it; `rest` is its bssid and its flags. -/
structure Listed where
  ssid : Bytes
  rest : Bytes

/-- The decimal digits of a number. -/
def decimal (n : ℕ) : Bytes := (Nat.toDigits 10 n).map fun c => UInt8.ofNat c.toNat

def Listed.text (listed : Listed) : Bytes := 9 :: listed.ssid ++ 9 :: listed.rest

/-- `id \t ssid \t bssid \t flags`. -/
def Listed.line (listed : Listed) (networkId : ℕ) : Bytes := decimal networkId ++ listed.text

/-- `network id / ssid / bssid / flags`. -/
def header : Bytes :=
  networkIdText ++ [32, 47, 32, 115, 115, 105, 100, 32, 47, 32, 98, 115, 115, 105, 100, 32, 47, 32,
    102, 108, 97, 103, 115]

/-- The reply to `LIST_NETWORKS` of a wpa_supplicant whose ids are contiguous. -/
def listNetworks (networks : List Listed) : Bytes :=
  [10].intercalate (header :: networks.zipIdx.map (fun n => n.1.line n.2) ++ [[]])

/-- A line that `init_network_info` does not take for another one, with an ssid it can read. -/
structure Listed.Readable (listed : Listed) : Prop where
  nonempty : listed.ssid ≠ []
  noBlank : ∀ b ∈ listed.ssid.head?, isSpace b = false
  noTab : 9 ∉ listed.ssid
  oneLine : 10 ∉ listed.ssid ++ listed.rest
  short : listed.ssid.length < ssidSizeMax
  noHeader : ¬networkIdText <:+: listed.text
  noRule : ¬rule <:+: listed.text

/-- The table holds these networks. -/
structure NetworkTable.Holds (t : NetworkTable) (ssids : List Bytes) : Prop where
  number : t.networkNum = ssids.length
  inside : t.overrun = false
  few : ssids.length ≤ maxNetworks
  each : ∀ i ssid, ssids[i]? = some ssid → (t.networkInfo i).ssid = ssid

end AmlCommonlib.WpaWifi
