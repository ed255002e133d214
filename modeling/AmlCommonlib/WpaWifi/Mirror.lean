import AmlCommonlib.WpaWifi.Manager
import Mathlib.Data.List.Nodup
import Mathlib.Data.List.Perm.Subperm
import Mathlib.Data.List.Range

/-! # The table of saved networks mirrors wpa_supplicant

Contiguous ids make the last network the one with the largest id, so that adding, removing the last
and moving the last over another one are all that can happen.
-/

namespace AmlCommonlib.WpaWifi.WpaManager

variable {networks init : List (ℕ × Network)} {last : ℕ × Network} {t : NetworkTable}

/-! ### Networks with contiguous ids -/

/-- The last network has the largest id. -/
theorem ids_snoc (ids : (init ++ [last]).map Prod.fst = List.range (init ++ [last]).length) :
    init.map Prod.fst = List.range init.length ∧ last.1 = init.length := by
  rw [List.length_append, List.length_singleton, List.range_succ, List.map_append,
    List.map_singleton] at ids
  obtain ⟨front, back⟩ := List.append_inj' ids rfl
  exact ⟨front, by simpa using back⟩

theorem lt_of_mem {n : ℕ × Network} (ids : networks.map Prod.fst = List.range networks.length)
    (member : n ∈ networks) : n.1 < networks.length := by
  have inRange : n.1 ∈ List.range networks.length := ids ▸ List.mem_map_of_mem member
  exact List.mem_range.mp inRange

theorem foldr_max_range (n : ℕ) : ∀ b, n ≤ b → ((List.range n).map (· + 1)).foldr max b = b := by
  induction n with
  | zero => simp
  | succ n ih =>
    intro b above
    simp only [List.range_succ, List.map_append, List.map_cons, List.map_nil, List.foldr_append,
      List.foldr_cons, List.foldr_nil, max_eq_right above]
    exact ih b (Nat.le_of_succ_le above)

/-- A new network gets the next id. -/
theorem nextId_eq (ids : networks.map Prod.fst = List.range networks.length) :
    nextId networks = networks.length := by
  have plain : networks.map (fun n => n.1 + 1) = (List.range networks.length).map (· + 1) := by
    rw [← ids, List.map_map]
    rfl
  rw [nextId, plain]
  rcases networks.length with _ | n
  · rfl
  · rw [List.range_succ, List.map_append, List.foldr_append]
    exact foldr_max_range n _ (Nat.le_succ n)

theorem find_of_mem {n : ℕ × Network} (ids : networks.map Prod.fst = List.range networks.length)
    (member : n ∈ networks) : find networks n.1 = some n.2 := by
  have distinct : (networks.map Prod.fst).Nodup := ids ▸ List.nodup_range
  cases found : networks.find? fun m => (m.1 : ℤ) = n.1 with
  | none => simpa using List.find?_eq_none.mp found n member
  | some m =>
    have cast : (m.1 : ℤ) = n.1 := by simpa using List.find?_some found
    have same : m.1 = n.1 := Int.ofNat_inj.mp cast
    have equal := List.inj_on_of_nodup_map distinct (List.mem_of_find?_eq_some found) member same
    rw [find, found, equal, Option.map_some]

/-- The table mirrors the networks, and there is room for each of their ssids. -/
structure Sound (t : NetworkTable) (networks : List (ℕ × Network)) : Prop
    extends Mirrors t networks where
  short : ∀ n ∈ networks, n.2.ssid.length < ssidSizeMax

/-- Adding a network. -/
theorem Sound.add (sound : Sound t networks) (room : nextId networks < maxNetworks) {ssid : Bytes}
    (short : ssid.length < ssidSizeMax) (addedBy : Option ℕ) :
    Sound
      ({ t with networkNum := t.networkNum + 1 }.setInfo (nextId networks) ⟨nextId networks, ssid⟩)
      (networks ++ [(nextId networks, ⟨ssid, addedBy⟩)]) := by
  rw [nextId_eq sound.ids] at room ⊢
  rw [NetworkTable.setInfo, if_pos ⟨room, short⟩]
  refine ⟨⟨?_, ?_, sound.inside, ?_, ?_⟩, ?_⟩
  · simp [sound.number]
  · simp [sound.ids, List.range_succ]
  · simpa using Nat.succ_le_of_lt room
  · intro n member
    rcases List.mem_append.mp member with old | new
    · have less := lt_of_mem sound.ids old
      simpa [Function.update_of_ne less.ne] using sound.info n old
    · obtain rfl := List.mem_singleton.mp new
      simp
  · intro n member
    rcases List.mem_append.mp member with old | new
    · exact sound.short n old
    · obtain rfl := List.mem_singleton.mp new
      exact short

/-- Removing the last network. -/
theorem Sound.dropLast (sound : Sound t (init ++ [last])) :
    Sound { t with networkNum := t.networkNum - 1 } init := by
  have number := sound.number
  have few := sound.few
  rw [List.length_append, List.length_singleton] at number few
  refine ⟨⟨?_, (ids_snoc sound.ids).1, sound.inside, by omega, ?_⟩, ?_⟩
  · show t.networkNum - 1 = init.length
    omega
  · intro n member
    exact sound.info n (List.mem_append_left _ member)
  · intro n member
    exact sound.short n (List.mem_append_left _ member)

/-- The network with this id gets the settings of another. -/
def replace (networks : List (ℕ × Network)) (target : ℕ) (network : Network) : List (ℕ × Network) :=
  networks.map fun n => if n.1 = target then (n.1, network) else n

theorem replace_ids (networks : List (ℕ × Network)) (target : ℕ) (network : Network) :
    (replace networks target network).map Prod.fst = networks.map Prod.fst := by
  rw [replace, List.map_map]
  apply List.map_congr_left
  intro n _
  simp only [Function.comp_apply]
  split_ifs <;> rfl

theorem mem_replace {target : ℕ} {network : Network} {n : ℕ × Network}
    (member : n ∈ replace networks target network) :
    (n.1 = target ∧ n.2 = network) ∨ (n.1 ≠ target ∧ n ∈ networks) := by
  obtain ⟨m, old, rfl⟩ := List.mem_map.mp member
  split_ifs with same
  · exact .inl ⟨same, rfl⟩
  · exact .inr ⟨same, old⟩

/-- Moving the last network over another one. -/
theorem Sound.move (sound : Sound t (init ++ [last])) {target : ℕ} (other : target < init.length) :
    Sound
      ({ t with networkNum := t.networkNum - 1 }.setInfo target
        { t.networkInfo target with ssid := (t.networkInfo init.length).ssid })
      (replace init target last.2) := by
  obtain ⟨front, atEnd⟩ := ids_snoc sound.ids
  have inList : last ∈ init ++ [last] := List.mem_append_right _ (List.mem_singleton_self _)
  have lastSsid : (t.networkInfo init.length).ssid = last.2.ssid := atEnd ▸ sound.info last inList
  have short := sound.short last inList
  have dropped := sound.dropLast
  have length : (replace init target last.2).length = init.length := List.length_map _
  rw [lastSsid, NetworkTable.setInfo, if_pos ⟨other.trans_le dropped.few, short⟩]
  refine ⟨⟨dropped.number.trans (congrArg _ length.symm), ?_, sound.inside, ?_, ?_⟩, ?_⟩
  · rw [replace_ids, front, length]
  · exact length ▸ dropped.few
  · intro n member
    rcases mem_replace member with ⟨atTarget, moved⟩ | ⟨elsewhere, old⟩
    · simp [atTarget, moved]
    · simpa [Function.update_of_ne elsewhere] using dropped.info n old
  · intro n member
    rcases mem_replace member with ⟨-, moved⟩ | ⟨-, old⟩
    · exact moved ▸ short
    · exact dropped.short n old

/-- The networks as a run leaves them. -/
def Upright (s : WpaManager) : Prop := Sound s.toNetworkTable s.networks

/-- The table mirrors the networks, and a removal that is about to lock has checked its id. -/
structure Kept (s : WpaManager) : Prop where
  upright : s.Upright
  checked : ∀ networkId, s.call = some (.remove networkId) → -1 ≤ networkId

/-- Two saved networks. -/
def saved : List Listed := [⟨[65, 66], [97, 110, 121]⟩, ⟨[67], []⟩]

end AmlCommonlib.WpaWifi.WpaManager
