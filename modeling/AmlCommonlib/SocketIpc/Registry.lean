import AmlCommonlib.Lib.Links
import AmlCommonlib.Lib.Runs
import Mathlib.Logic.Function.Basic

/-! # The registry of channels

`ipc_open` and `ipc_close` one call after the other, over an explicit heap: the list of channels
through `next_serv` and the service thread that `ipc_init` starts and `ipc_exit` joins. A null
pointer or one to freed memory that is followed, and a thread that is joined twice, is a crash.
-/

namespace AmlCommonlib.SocketIpc

/-- `SIPC_HandleInternal`: its pointers. -/
structure Handle where
  serv : Option ℕ
  next : Option ℕ
  nextServ : Option ℕ
deriving DecidableEq, Repr

/-- The handle after the `memset`. -/
def Handle.zero : Handle := ⟨none, none, none⟩

abbrev Heap := ℕ → Option Handle

/-- The globals of the library with the memory they point to. -/
structure Registry where
  heap : Heap
  servList : Option ℕ
  servStatus : Bool
  servPthreadId : ℕ
  /-- The threads that have been started and not joined. -/
  threads : List ℕ
  /-- No datum of the program: the peers that are open, each with its channel. -/
  opened : List (ℕ × Option ℕ)

namespace Registry

def start : Registry := ⟨fun _ => none, none, false, 0, [], []⟩

/-! ### Opening -/

/-- `ipc_create_channel` at the address that `malloc` returns. -/
def ipcCreateChannel (heap : Heap) (address : ℕ) : Heap :=
  Function.update heap address (some .zero)

/-- `ipc_open_peer` on a new channel, which has no peer to return, or on `NULL`. -/
def ipcOpenPeer (heap : Heap) (serv : Option ℕ) (ipc : ℕ) : Option Heap := do
  let heap := ipcCreateChannel heap ipc
  match serv with
  | none => some heap
  | some channel =>
    let handle ← heap channel
    let heap := Function.update heap ipc (some { Handle.zero with serv := serv, next := handle.next })
    some (Function.update heap channel (some { handle with next := some ipc }))

/-- `ipc_init`, with the thread that is started. -/
def ipcInit (r : Registry) (thread : ℕ) : Registry :=
  { r with servStatus := true, servPthreadId := thread, threads := thread :: r.threads }

/-- The section of `ipc_open` under `serv_mutex`. -/
def register (r : Registry) (serv : Option ℕ) (thread : ℕ) : Option Registry :=
  let r := if r.servList = none then r.ipcInit thread else r
  match serv with
  | none => some r
  | some channel => (r.heap channel).map fun handle =>
    { r with
      heap := Function.update r.heap channel (some { handle with nextServ := r.servList })
      servList := serv }

/-- `ipc_open`: `serv` is the new channel, or `NULL` where its `bind` fails. -/
def ipcOpen (r : Registry) (serv : Option ℕ) (ipc thread : ℕ) : Option Registry := do
  let heap := match serv with
    | none => r.heap
    | some channel => ipcCreateChannel r.heap channel
  let heap ← ipcOpenPeer heap serv ipc
  let r ← { r with heap := heap }.register serv thread
  return { r with opened := (ipc, serv) :: r.opened }

/-! ### Closing -/

/-- The loop of `ipc_close_peer` over the other peers of a channel. -/
def unlinkPeer (ipc : ℕ) (next : Option ℕ) : ℕ → Heap → ℕ → Option Heap
  | 0, _, _ => none
  | fuel + 1, heap, ch => do
    let handle ← heap ch
    match handle.next with
    | none => some heap
    | some following =>
      if following = ipc then some (Function.update heap ch (some { handle with next := next }))
      else unlinkPeer ipc next fuel heap following

/-- What `ipc_close_peer` does to the channel of the peer. -/
def detachPeer (fuel : ℕ) (heap : Heap) (ipc : ℕ) (handle : Handle) : Option Heap :=
  match handle.serv with
  | none => some heap
  | some serv => do
    let channel ← heap serv
    match channel.next with
    | none => some heap
    | some ch =>
      if ch = ipc then some (Function.update heap serv (some { channel with next := handle.next }))
      else unlinkPeer ipc handle.next fuel heap ch

/-- `ipc_close_peer`. -/
def ipcClosePeer (fuel : ℕ) (heap : Heap) (ipc : ℕ) : Option Heap := do
  let handle ← heap ipc
  let heap ← detachPeer fuel heap ipc handle
  return Function.update heap ipc none

/-- The loop of `ipc_close_channel`. -/
def closePeers (serv : ℕ) : ℕ → Heap → Option Heap
  | 0, _ => none
  | fuel + 1, heap => do
    let handle ← heap serv
    match handle.next with
    | none => some heap
    | some ipc =>
      let peer ← heap ipc
      let heap := Function.update heap serv (some { handle with next := peer.next })
      let heap ← ipcClosePeer fuel heap ipc
      closePeers serv fuel heap

/-- `ipc_close_channel`. -/
def ipcCloseChannel (fuel : ℕ) (heap : Heap) (serv : Option ℕ) : Option Heap := do
  let channel ← serv
  let heap ← closePeers channel fuel heap
  return Function.update heap channel none

/-- The loop of `ipc_close`: the new `serv_list`. An element behind the first is left where it is,
since what is assigned is the local variable. -/
def unlinkChannel (heap : Heap) (servList serv : Option ℕ) :
    ℕ → Option ℕ → Option ℕ → Option (Option ℕ)
  | _, _, none => some servList
  | 0, _, some _ => none
  | fuel + 1, tmpPrev, some tmp => do
    let handle ← heap tmp
    if some tmp = serv then
      some (if tmpPrev = none then handle.nextServ else servList)
    else unlinkChannel heap servList serv fuel (some tmp) handle.nextServ

/-- `ipc_exit`: the join returns when the thread has ended. -/
def ipcExit (r : Registry) : Option Registry :=
  if r.servPthreadId ∈ r.threads then
    some { r with servStatus := false, threads := r.threads.erase r.servPthreadId }
  else none

/-- `if (serv_list == NULL) ipc_exit();` -/
def exitIfEmpty (r : Registry) : Option Registry := if r.servList = none then r.ipcExit else some r

/-- `ipc_close` on an open peer; `tmpPrev` is what the variable holds before it is assigned. -/
def ipcClose (fuel : ℕ) (r : Registry) (ipc : ℕ) (tmpPrev : Option ℕ) : Option Registry := do
  let handle ← r.heap ipc
  let servList ← unlinkChannel r.heap r.servList handle.serv fuel tmpPrev r.servList
  let r ← { r with servList := servList }.exitIfEmpty
  let heap ← ipcCloseChannel fuel r.heap handle.serv
  return { r with heap := heap, opened := r.opened.filter (·.1 ≠ ipc) }

/-! ### Calls -/

inductive Call where
  /-- `thread` is the one that a `pthread_create` of the call would start. -/
  | ipcOpen (serv : Option ℕ) (ipc thread : ℕ)
  | ipcClose (ipc : ℕ) (tmpPrev : Option ℕ)

def apply (fuel : ℕ) (r : Registry) : Call → Option Registry
  | .ipcOpen serv ipc thread => r.ipcOpen serv ipc thread
  | .ipcClose ipc tmpPrev => r.ipcClose fuel ipc tmpPrev

/-- New memory and new threads are ones that are not in use, and what is closed is open. -/
def Legal (r : Registry) : Call → Prop
  | .ipcOpen serv ipc thread => r.heap ipc = none ∧ thread ∉ r.threads ∧
      ∀ channel ∈ serv, r.heap channel = none ∧ channel ≠ ipc
  | .ipcClose ipc _ => ∃ serv, (ipc, serv) ∈ r.opened

/-- One call, with fuel enough for its loops; after a crash there are no more. -/
def Step (s : Option Registry) (call : Call) (s' : Option Registry) : Prop :=
  ∃ r, s = some r ∧ r.Legal call ∧ ∃ enough, ∀ fuel, enough ≤ fuel → r.apply fuel call = s'

/-- `next_serv`. -/
def nextServ (r : Registry) (channel : ℕ) : Option (Option ℕ) := (r.heap channel).map Handle.nextServ

/-- The list has each open channel once and no other, and there is a thread exactly if there is a
channel. -/
def Registered (s : Option Registry) : Prop :=
  ∃ r, s = some r ∧ ∃ channels, Links r.nextServ r.servList channels ∧ channels.Nodup ∧
    (∀ channel, channel ∈ channels ↔ ∃ ipc, (ipc, some channel) ∈ r.opened) ∧
    r.threads.length = if channels = [] then 0 else 1

/-- The `bind` of an `ipc_open` does not fail while there is no channel, and the channel that is
closed is the first of the list, by a call that happens to find `NULL` in `tmp_prev`. -/
def Orderly (s : Option Registry) (call : Call) : Prop :=
  ∀ r, s = some r →
    match call with
    | .ipcOpen serv _ _ => serv = none → r.servList ≠ none
    | .ipcClose ipc tmpPrev =>
      tmpPrev = none ∧ ∃ channel, (ipc, some channel) ∈ r.opened ∧ r.servList = some channel

/-- Each open peer is the only one of its channel, and the channels are the list. -/
structure Sound (r : Registry) (channels : List ℕ) : Prop where
  links : Links r.nextServ r.servList channels
  isOpen : ∀ channel ∈ channels, ∃ ipc, (ipc, some channel) ∈ r.opened
  peers : ∀ ipc serv, (ipc, serv) ∈ r.opened → r.heap ipc = some ⟨serv, none, none⟩
  own : ∀ ipc channel, (ipc, some channel) ∈ r.opened →
    channel ∈ channels ∧ ∃ nextServ, r.heap channel = some ⟨none, some ipc, nextServ⟩
  threads : r.threads = if channels = [] then [] else [r.servPthreadId]

variable {r r' : Registry} {channels : List ℕ} {ipc thread : ℕ}

theorem sound_start : start.Sound [] :=
  ⟨.nil, by simp, by simp [start], by simp [start], rfl⟩

theorem Sound.servList_eq_none_iff (sound : r.Sound channels) : r.servList = none ↔ channels = [] := by
  cases channels with
  | nil => simpa using Links.nil_iff.mp sound.links
  | cons channel rest =>
    obtain ⟨first, -⟩ := Links.cons_iff.mp sound.links
    simp [first]

theorem Sound.registered (sound : r.Sound channels) : Registered (some r) := by
  refine ⟨r, rfl, channels, sound.links, sound.links.nodup, ?_, ?_⟩
  · intro channel
    constructor
    · exact sound.isOpen channel
    · rintro ⟨ipc, isOpen⟩
      exact (sound.own ipc channel isOpen).1
  · rw [sound.threads]
    split_ifs <;> rfl

/-- Free memory is no part of what is open. -/
theorem Sound.of_free {address : ℕ} (sound : r.Sound channels) (free : r.heap address = none) :
    address ∉ channels ∧ ∀ ipc serv, (ipc, serv) ∈ r.opened → ipc ≠ address ∧ serv ≠ some address := by
  have outside : address ∉ channels := by
    intro member
    have allocated := sound.links.allocated member
    rw [nextServ, free] at allocated
    cases allocated
  refine ⟨outside, ?_⟩
  intro ipc serv isOpen
  constructor
  · rintro rfl
    have here := sound.peers ipc serv isOpen
    rw [free] at here
    cases here
  · rintro rfl
    exact outside (sound.own ipc address isOpen).1

/-! ### What opening does -/

/-- The memory after a new channel with its peer. -/
theorem ipcOpenPeer_some {heap : Heap} {channel : ℕ} (ne : channel ≠ ipc) :
    ∃ heap', ipcOpenPeer (ipcCreateChannel heap channel) (some channel) ipc = some heap' ∧
      heap' channel = some ⟨none, some ipc, none⟩ ∧ heap' ipc = some ⟨some channel, none, none⟩ ∧
      ∀ other, other ≠ channel → other ≠ ipc → heap' other = heap other := by
  refine ⟨_, by simp [ipcOpenPeer, ipcCreateChannel, ne, Handle.zero]; rfl, ?_, ?_, ?_⟩
  · simp
  · simp [ne.symm]
  · intro other notChannel notPeer
    simp [notChannel, notPeer]

/-- The new channel is in front of the others. -/
theorem ipcOpen_some {channel : ℕ} (r : Registry) (ne : channel ≠ ipc) :
    ∃ r', r.ipcOpen (some channel) ipc thread = some r' ∧ r'.servList = some channel ∧
      r'.opened = (ipc, some channel) :: r.opened ∧
      (r.servList = none → r'.servPthreadId = thread ∧ r'.threads = thread :: r.threads) ∧
      (r.servList ≠ none → r'.servPthreadId = r.servPthreadId ∧ r'.threads = r.threads) ∧
      r'.heap channel = some ⟨none, some ipc, r.servList⟩ ∧
      r'.heap ipc = some ⟨some channel, none, none⟩ ∧
      ∀ other, other ≠ channel → other ≠ ipc → r'.heap other = r.heap other := by
  obtain ⟨heap, created, atChannel, atPeer, others⟩ := @ipcOpenPeer_some ipc r.heap channel ne
  by_cases empty : r.servList = none
  · refine ⟨_, by simp [ipcOpen, created, register, empty, ipcInit, atChannel]; rfl, ?_⟩
    simp [empty, ne.symm, atPeer]
    intro other notChannel notPeer
    simp [notChannel, others other notChannel notPeer]
  · refine ⟨_, by simp [ipcOpen, created, register, empty, atChannel]; rfl, ?_⟩
    simp [empty, ne.symm, atPeer]
    intro other notChannel notPeer
    simp [notChannel, others other notChannel notPeer]

/-- A `bind` that fails leaves a peer without a channel, and starts a thread if there is no channel
yet. -/
theorem ipcOpen_none (r : Registry) :
    ∃ r', r.ipcOpen none ipc thread = some r' ∧ r'.servList = r.servList ∧
      r'.opened = (ipc, none) :: r.opened ∧
      (r.servList = none → r'.threads = thread :: r.threads) ∧
      (r.servList ≠ none → r'.servPthreadId = r.servPthreadId ∧ r'.threads = r.threads) ∧
      r'.heap = Function.update r.heap ipc (some .zero) := by
  by_cases empty : r.servList = none
  · exact ⟨_, by simp [ipcOpen, ipcOpenPeer, ipcCreateChannel, register, empty, ipcInit]; rfl,
      by simp [empty]⟩
  · exact ⟨_, by simp [ipcOpen, ipcOpenPeer, ipcCreateChannel, register, empty]; rfl,
      by simp [empty]⟩

theorem Sound.ipcOpen_some {channel : ℕ} (sound : r.Sound channels) (freshPeer : r.heap ipc = none)
    (fresh : r.heap channel = none) (ne : channel ≠ ipc) :
    ∃ r', r.ipcOpen (some channel) ipc thread = some r' ∧ r'.Sound (channel :: channels) := by
  obtain ⟨r', opens, servList, opened, first, later, atChannel, atPeer, others⟩ :=
    @Registry.ipcOpen_some ipc thread channel r ne
  obtain ⟨outside, apart⟩ := sound.of_free fresh
  obtain ⟨outsidePeer, apartPeer⟩ := sound.of_free freshPeer
  have same : ∀ c ∈ channels, r'.heap c = r.heap c := by
    intro c member
    exact others c (ne_of_mem_of_not_mem member outside) (ne_of_mem_of_not_mem member outsidePeer)
  refine ⟨r', opens, ?_, ?_, ?_, ?_, ?_⟩
  · rw [servList]
    refine .cons (by rw [nextServ, atChannel]; rfl) (sound.links.frame ?_)
    intro c member
    rw [nextServ, nextServ, same c member]
  · intro c member
    rw [opened]
    rcases List.mem_cons.mp member with rfl | member
    · exact ⟨ipc, List.mem_cons_self ..⟩
    · obtain ⟨p, isOpen⟩ := sound.isOpen c member
      exact ⟨p, List.mem_cons_of_mem _ isOpen⟩
  · intro p serv isOpen
    rw [opened] at isOpen
    rcases List.mem_cons.mp isOpen with new | old
    · cases new
      exact atPeer
    · rw [others p (apart p serv old).1 (apartPeer p serv old).1]
      exact sound.peers p serv old
  · intro p c isOpen
    rw [opened] at isOpen
    rcases List.mem_cons.mp isOpen with new | old
    · cases new
      exact ⟨List.mem_cons_self .., _, atChannel⟩
    · obtain ⟨member, nextServ, here⟩ := sound.own p c old
      exact ⟨List.mem_cons_of_mem _ member, nextServ, (same c member).trans here⟩
  · rw [if_neg (by simp)]
    by_cases empty : r.servList = none
    · obtain ⟨id, threads⟩ := first empty
      rw [threads, id, sound.threads, if_pos (sound.servList_eq_none_iff.mp empty)]
    · obtain ⟨id, threads⟩ := later empty
      rw [threads, id, sound.threads, if_neg (mt sound.servList_eq_none_iff.mpr empty)]

theorem Sound.ipcOpen_none (sound : r.Sound channels) (freshPeer : r.heap ipc = none)
    (nonempty : r.servList ≠ none) :
    ∃ r', r.ipcOpen none ipc thread = some r' ∧ r'.Sound channels := by
  obtain ⟨r', opens, servList, opened, -, later, heap⟩ := @Registry.ipcOpen_none ipc thread r
  obtain ⟨outside, apart⟩ := sound.of_free freshPeer
  obtain ⟨id, threads⟩ := later nonempty
  have same : ∀ c ∈ channels, r'.heap c = r.heap c := by
    intro c member
    rw [heap, Function.update_of_ne (ne_of_mem_of_not_mem member outside)]
  refine ⟨r', opens, ?_, ?_, ?_, ?_, ?_⟩
  · rw [servList]
    apply sound.links.frame
    intro c member
    rw [nextServ, nextServ, same c member]
  · intro c member
    obtain ⟨p, isOpen⟩ := sound.isOpen c member
    exact ⟨p, opened ▸ List.mem_cons_of_mem _ isOpen⟩
  · intro p serv isOpen
    rw [opened] at isOpen
    rcases List.mem_cons.mp isOpen with new | old
    · cases new
      rw [heap, Function.update_self]
      rfl
    · rw [heap, Function.update_of_ne (apart p serv old).1]
      exact sound.peers p serv old
  · intro p c isOpen
    rw [opened] at isOpen
    rcases List.mem_cons.mp isOpen with new | old
    · cases new
    · obtain ⟨member, nextServ, here⟩ := sound.own p c old
      exact ⟨member, nextServ, (same c member).trans here⟩
  · rw [threads, id, sound.threads]

/-! ### What closing does -/

/-- The memory after a channel has been closed with its only peer. -/
theorem ipcCloseChannel_spec {heap : Heap} {channel : ℕ} {nextServ : Option ℕ}
    (atChannel : heap channel = some ⟨none, some ipc, nextServ⟩)
    (atPeer : heap ipc = some ⟨some channel, none, none⟩) (ne : channel ≠ ipc) :
    ∃ heap', (∀ fuel, 2 ≤ fuel → ipcCloseChannel fuel heap (some channel) = some heap') ∧
      heap' channel = none ∧ ∀ other, other ≠ channel → other ≠ ipc → heap' other = heap other := by
  refine ⟨Function.update (Function.update (Function.update heap channel
    (some ⟨none, none, nextServ⟩)) ipc none) channel none, ?_, ?_, ?_⟩
  · intro fuel enough
    obtain ⟨n, rfl⟩ := Nat.exists_eq_add_of_le' enough
    simp [ipcCloseChannel, closePeers, ipcClosePeer, detachPeer, atChannel, atPeer, ne, ne.symm]
  · simp
  · intro other notChannel notPeer
    simp [notChannel, notPeer]

/-- Once `tmp_prev` is not null the list stays as it is. -/
theorem unlinkChannel_of_prev {heap : Heap} {servList serv result : Option ℕ} {fuel prev : ℕ}
    {pointer : Option ℕ}
    (done : unlinkChannel heap servList serv fuel (some prev) pointer = some result) :
    result = servList := by
  induction fuel generalizing prev pointer with
  | zero =>
    cases pointer with
    | none => exact (Option.some.inj done).symm
    | some tmp => cases done
  | succ fuel ih =>
    cases pointer with
    | none => exact (Option.some.inj done).symm
    | some tmp =>
      rw [unlinkChannel, Option.bind_eq_bind, Option.bind_eq_some_iff] at done
      obtain ⟨handle, -, done⟩ := done
      simp only [reduceCtorEq, if_false] at done
      split_ifs at done
      · exact (Option.some.inj done).symm
      · exact ih done

/-- What is not found at the first element with `tmp_prev` null stays in the list. -/
theorem unlinkChannel_keeps {heap : Heap} {servList serv tmpPrev pointer result : Option ℕ}
    {fuel : ℕ} (done : unlinkChannel heap servList serv fuel tmpPrev pointer = some result)
    (missed : ¬(tmpPrev = none ∧ pointer = serv)) (isSome : pointer ≠ none) : result = servList := by
  cases tmpPrev with
  | some prev => exact unlinkChannel_of_prev done
  | none =>
    obtain ⟨tmp, rfl⟩ := Option.ne_none_iff_exists'.mp isSome
    cases fuel with
    | zero => cases done
    | succ fuel =>
      rw [unlinkChannel, Option.bind_eq_bind, Option.bind_eq_some_iff] at done
      obtain ⟨handle, -, done⟩ := done
      have other : some tmp ≠ serv := fun same => missed ⟨rfl, same⟩
      rw [if_neg other] at done
      exact unlinkChannel_of_prev done

/-- Closing a peer without a channel follows a null pointer. -/
theorem ipcClose_none {fuel : ℕ} {tmpPrev : Option ℕ} (atPeer : r.heap ipc = some ⟨none, none, none⟩) :
    r.ipcClose fuel ipc tmpPrev = none := by
  simp [ipcClose, ipcCloseChannel, atPeer]

section Closing

variable {channel : ℕ}

/-- A peer is no channel. -/
theorem Sound.peer_not_mem {serv : Option ℕ} (sound : r.Sound channels)
    (isOpen : (ipc, serv) ∈ r.opened) : ipc ∉ channels := by
  intro member
  obtain ⟨p, listed⟩ := sound.isOpen ipc member
  obtain ⟨-, nextServ, here⟩ := sound.own p ipc listed
  rw [sound.peers ipc serv isOpen] at here
  cases here

/-- Channel and peer are freed, and nothing else that is open is touched. -/
theorem Sound.close (sound : r.Sound channels) (isOpen : (ipc, some channel) ∈ r.opened) :
    ∃ heap, (∀ fuel, 2 ≤ fuel → ipcCloseChannel fuel r.heap (some channel) = some heap) ∧
      heap channel = none ∧ ∀ other, other ≠ channel → other ≠ ipc → heap other = r.heap other := by
  obtain ⟨member, nextServ, atChannel⟩ := sound.own ipc channel isOpen
  exact ipcCloseChannel_spec atChannel (sound.peers ipc _ isOpen)
    (ne_of_mem_of_not_mem member (sound.peer_not_mem isOpen))

/-- What is left once the first channel is gone from the list and freed. -/
theorem Sound.rest {rest : List ℕ} {pointer : Option ℕ} (sound : r.Sound (channel :: rest))
    (isOpen : (ipc, some channel) ∈ r.opened) (links : Links r.nextServ pointer rest)
    (servList : r'.servList = pointer) (opened : r'.opened = r.opened.filter (·.1 ≠ ipc))
    (others : ∀ other, other ≠ channel → other ≠ ipc → r'.heap other = r.heap other)
    (threads : r'.threads = if rest = [] then [] else [r'.servPthreadId]) : r'.Sound rest := by
  obtain ⟨-, nextServ, atChannel⟩ := sound.own ipc channel isOpen
  have notPeer := sound.peer_not_mem isOpen
  have distinct := sound.links.nodup
  rw [List.nodup_cons] at distinct
  have same : ∀ c ∈ rest, r'.heap c = r.heap c := by
    intro c member
    exact others c (ne_of_mem_of_not_mem member distinct.1)
      (ne_of_mem_of_not_mem (List.mem_cons_of_mem _ member) notPeer)
  have stays : ∀ p serv, (p, serv) ∈ r'.opened ↔ p ≠ ipc ∧ (p, serv) ∈ r.opened := by
    intro p serv
    rw [opened, List.mem_filter]
    simp [and_comm]
  refine ⟨?_, ?_, ?_, ?_, threads⟩
  · rw [servList]
    apply links.frame
    intro c member
    rw [Registry.nextServ, Registry.nextServ, same c member]
  · intro c member
    obtain ⟨p, listed⟩ := sound.isOpen c (List.mem_cons_of_mem _ member)
    refine ⟨p, (stays p _).mpr ⟨?_, listed⟩⟩
    rintro rfl
    have here := sound.peers p _ listed
    rw [sound.peers p _ isOpen] at here
    cases here
    exact distinct.1 member
  · intro p serv listed
    obtain ⟨ne, listed⟩ := (stays p serv).mp listed
    have notChannel : p ≠ channel :=
      fun eq => sound.peer_not_mem listed (eq ▸ List.mem_cons_self ..)
    rw [others p notChannel ne]
    exact sound.peers p serv listed
  · intro p c listed
    obtain ⟨ne, listed⟩ := (stays p (some c)).mp listed
    obtain ⟨member, nextServ', here⟩ := sound.own p c listed
    have inRest : c ∈ rest := by
      refine (List.mem_cons.mp member).resolve_left ?_
      rintro rfl
      rw [atChannel] at here
      cases here
      exact ne rfl
    exact ⟨inRest, nextServ', (same c inRest).trans here⟩

/-- Closing the first channel, with `tmp_prev` null. -/
theorem Sound.ipcClose_first {rest : List ℕ} (sound : r.Sound (channel :: rest))
    (isOpen : (ipc, some channel) ∈ r.opened) :
    ∃ r', (∀ fuel, 2 ≤ fuel → r.ipcClose fuel ipc none = some r') ∧ r'.Sound rest := by
  have atPeer := sound.peers ipc _ isOpen
  obtain ⟨-, nextServ, atChannel⟩ := sound.own ipc channel isOpen
  obtain ⟨heap, closed, -, others⟩ := sound.close isOpen
  obtain ⟨first, pointer, following, links⟩ := Links.cons_iff.mp sound.links
  obtain rfl : nextServ = pointer := by
    rw [Registry.nextServ, atChannel] at following
    exact Option.some.inj following
  have unlinked : ∀ fuel, 2 ≤ fuel →
      unlinkChannel r.heap r.servList (some channel) fuel none r.servList = some nextServ := by
    intro fuel enough
    obtain ⟨n, rfl⟩ := Nat.exists_eq_add_of_le' enough
    simp [first, unlinkChannel, atChannel]
  have running : r.threads = [r.servPthreadId] := by
    rw [sound.threads, if_neg (by simp)]
  cases rest with
  | nil =>
    obtain rfl := Links.nil_iff.mp links
    refine ⟨{ r with
      heap := heap, servList := none, servStatus := false, threads := []
      opened := r.opened.filter (·.1 ≠ ipc) }, ?_, sound.rest isOpen links rfl rfl others rfl⟩
    intro fuel enough
    simp [ipcClose, atPeer, unlinked fuel enough, exitIfEmpty, ipcExit, running, closed fuel enough]
  | cons second more =>
    obtain ⟨rfl, -⟩ := Links.cons_iff.mp links
    refine ⟨{ r with
      heap := heap, servList := some second, opened := r.opened.filter (·.1 ≠ ipc) }, ?_,
      sound.rest isOpen links rfl rfl others (by simpa using running)⟩
    intro fuel enough
    simp [ipcClose, atPeer, unlinked fuel enough, exitIfEmpty, closed fuel enough]

/-- Closing any other channel, or one while `tmp_prev` is not null, leaves freed memory in the
list. -/
theorem Sound.ipcClose_other {tmpPrev : Option ℕ} {fuel : ℕ} (sound : r.Sound channels)
    (isOpen : (ipc, some channel) ∈ r.opened)
    (disorderly : ¬(tmpPrev = none ∧ r.servList = some channel)) (enough : 2 ≤ fuel)
    (closes : r.ipcClose fuel ipc tmpPrev = some r') : ¬Registered (some r') := by
  have atPeer := sound.peers ipc _ isOpen
  obtain ⟨member, -⟩ := sound.own ipc channel isOpen
  obtain ⟨heap, closed, freed, others⟩ := sound.close isOpen
  have nonempty : r.servList ≠ none := by
    intro empty
    rw [sound.servList_eq_none_iff.mp empty] at member
    cases member
  simp only [ipcClose, atPeer, Option.bind_eq_bind, Option.bind_some, Option.bind_eq_some_iff] at closes
  obtain ⟨servList, unlinked, closes⟩ := closes
  obtain rfl := unlinkChannel_keeps unlinked disorderly nonempty
  rw [exitIfEmpty, if_neg nonempty] at closes
  obtain ⟨_, ⟨⟩, heap', closed', done⟩ := closes
  cases done
  obtain rfl := Option.some.inj ((closed fuel enough).symm.trans closed')
  rintro ⟨_, ⟨⟩, cells, links, -⟩
  refine sound.links.not_of_freed member ?_ ?_ links
  · simp only [nextServ, freed, Option.map_none]
  · intro other inList ne
    simp only [nextServ, others other ne (ne_of_mem_of_not_mem inList (sound.peer_not_mem isOpen))]

end Closing

/-! ### Fuel -/

section Fuel

variable {heap heap' : Heap} {fuel more : ℕ}

theorem unlinkPeer_mono {next : Option ℕ} {ch : ℕ} (le : fuel ≤ more)
    (done : unlinkPeer ipc next fuel heap ch = some heap') :
    unlinkPeer ipc next more heap ch = some heap' := by
  induction fuel generalizing more ch with
  | zero => cases done
  | succ fuel ih =>
    obtain ⟨more, rfl⟩ : ∃ n, more = n + 1 := ⟨more - 1, by omega⟩
    simp only [unlinkPeer, Option.bind_eq_bind, Option.bind_eq_some_iff] at done ⊢
    obtain ⟨handle, here, done⟩ := done
    refine ⟨handle, here, ?_⟩
    cases isNext : handle.next with
    | none => simpa [isNext] using done
    | some following =>
      simp only [isNext] at done ⊢
      split_ifs at done ⊢
      · exact done
      · exact ih (by omega) done

theorem detachPeer_mono {handle : Handle} (le : fuel ≤ more)
    (done : detachPeer fuel heap ipc handle = some heap') :
    detachPeer more heap ipc handle = some heap' := by
  obtain ⟨serv, next, nextServ⟩ := handle
  unfold detachPeer at done ⊢
  cases serv with
  | none => exact done
  | some serv =>
    simp only [Option.bind_eq_bind, Option.bind_eq_some_iff] at done ⊢
    obtain ⟨channel, here, done⟩ := done
    refine ⟨channel, here, ?_⟩
    cases isNext : channel.next with
    | none => simpa [isNext] using done
    | some ch =>
      simp only [isNext] at done ⊢
      split_ifs at done ⊢
      · exact done
      · exact unlinkPeer_mono le done

theorem ipcClosePeer_mono (le : fuel ≤ more) (done : ipcClosePeer fuel heap ipc = some heap') :
    ipcClosePeer more heap ipc = some heap' := by
  simp only [ipcClosePeer, Option.bind_eq_bind, Option.bind_eq_some_iff] at done ⊢
  obtain ⟨handle, here, heap'', detached, done⟩ := done
  exact ⟨handle, here, heap'', detachPeer_mono le detached, done⟩

theorem closePeers_mono {serv : ℕ} (le : fuel ≤ more) (done : closePeers serv fuel heap = some heap') :
    closePeers serv more heap = some heap' := by
  induction fuel generalizing more heap with
  | zero => cases done
  | succ fuel ih =>
    obtain ⟨more, rfl⟩ : ∃ n, more = n + 1 := ⟨more - 1, by omega⟩
    simp only [closePeers, Option.bind_eq_bind, Option.bind_eq_some_iff] at done ⊢
    obtain ⟨handle, here, done⟩ := done
    refine ⟨handle, here, ?_⟩
    cases isNext : handle.next with
    | none => simpa [isNext] using done
    | some ipc =>
      simp only [isNext, Option.bind_eq_some_iff] at done ⊢
      obtain ⟨peer, atPeer, heap'', closed, done⟩ := done
      exact ⟨peer, atPeer, heap'', ipcClosePeer_mono (by omega) closed, ih (by omega) done⟩

theorem unlinkChannel_mono {servList serv tmpPrev pointer result : Option ℕ} (le : fuel ≤ more)
    (done : unlinkChannel heap servList serv fuel tmpPrev pointer = some result) :
    unlinkChannel heap servList serv more tmpPrev pointer = some result := by
  induction fuel generalizing more tmpPrev pointer with
  | zero =>
    cases pointer with
    | none => simpa [unlinkChannel] using done
    | some tmp => cases done
  | succ fuel ih =>
    cases pointer with
    | none => simpa [unlinkChannel] using done
    | some tmp =>
      obtain ⟨more, rfl⟩ : ∃ n, more = n + 1 := ⟨more - 1, by omega⟩
      simp only [unlinkChannel, Option.bind_eq_bind, Option.bind_eq_some_iff] at done ⊢
      obtain ⟨handle, here, done⟩ := done
      refine ⟨handle, here, ?_⟩
      split_ifs at done ⊢
      · exact done
      · exact done
      · exact ih (by omega) done

theorem ipcCloseChannel_mono {serv : Option ℕ} (le : fuel ≤ more)
    (done : ipcCloseChannel fuel heap serv = some heap') :
    ipcCloseChannel more heap serv = some heap' := by
  simp only [ipcCloseChannel, Option.bind_eq_bind, Option.bind_eq_some_iff] at done ⊢
  obtain ⟨channel, isChannel, heap'', closed, done⟩ := done
  exact ⟨channel, isChannel, heap'', closePeers_mono le closed, done⟩

theorem ipcClose_mono {tmpPrev : Option ℕ} (le : fuel ≤ more)
    (done : r.ipcClose fuel ipc tmpPrev = some r') : r.ipcClose more ipc tmpPrev = some r' := by
  simp only [ipcClose, Option.bind_eq_bind, Option.bind_eq_some_iff] at done ⊢
  obtain ⟨handle, here, servList, unlinked, mid, exits, heap, closed, done⟩ := done
  exact ⟨handle, here, servList, unlinkChannel_mono le unlinked, mid, exits, heap,
    ipcCloseChannel_mono le closed, done⟩

end Fuel

/-- A call that returns, whatever the fuel. -/
theorem step_of_apply {fuel : ℕ} {call : Call} (legal : r.Legal call)
    (done : r.apply fuel call = some r') : Step (some r) call (some r') := by
  refine ⟨r, rfl, legal, fuel, ?_⟩
  intro more le
  cases call with
  | ipcOpen serv ipc thread => exact done
  | ipcClose ipc tmpPrev => exact ipcClose_mono le done

/-! ### Runs -/

theorem step_functional {s s' s'' : Option Registry} {call : Call} (step : Step s call s')
    (step' : Step s call s'') : s' = s'' := by
  obtain ⟨r, rfl, -, enough, done⟩ := step
  obtain ⟨_, ⟨⟩, -, enough', done'⟩ := step'
  exact (done _ (Nat.le_max_left ..)).symm.trans (done' _ (Nat.le_max_right ..))

/-- An orderly call keeps the registry sound. -/
theorem Sound.step {s' : Option Registry} {call : Call} (sound : r.Sound channels)
    (orderly : Orderly (some r) call) (step : Step (some r) call s') :
    ∃ r' channels', s' = some r' ∧ r'.Sound channels' := by
  obtain ⟨_, ⟨⟩, legal, enough, done⟩ := step
  have orderly := orderly r rfl
  cases call with
  | ipcOpen serv ipc thread =>
    obtain ⟨freshPeer, -, fresh⟩ := legal
    have opens := done enough (Nat.le_refl _)
    cases serv with
    | none =>
      obtain ⟨r', opens', sound'⟩ := @Sound.ipcOpen_none r channels ipc thread sound freshPeer
        (orderly rfl)
      exact ⟨r', channels, opens.symm.trans opens', sound'⟩
    | some channel =>
      obtain ⟨free, ne⟩ := fresh channel rfl
      obtain ⟨r', opens', sound'⟩ := @Sound.ipcOpen_some r channels ipc thread channel sound
        freshPeer free ne
      exact ⟨r', _, opens.symm.trans opens', sound'⟩
  | ipcClose ipc tmpPrev =>
    obtain ⟨rfl, channel, isOpen, first⟩ := orderly
    cases channels with
    | nil =>
      rw [sound.servList_eq_none_iff.mpr rfl] at first
      cases first
    | cons head rest =>
      obtain ⟨isHead, -⟩ := Links.cons_iff.mp sound.links
      obtain rfl := Option.some.inj (first.symm.trans isHead)
      obtain ⟨r', closes, sound'⟩ := sound.ipcClose_first isOpen
      refine ⟨r', rest, ?_, sound'⟩
      rw [← done (max enough 2) (Nat.le_max_left ..)]
      exact closes _ (Nat.le_max_right ..)

/-- Any other call breaks it. -/
theorem Sound.not_registered {s' : Option Registry} {call : Call} (sound : r.Sound channels)
    (step : Step (some r) call s') (disorderly : ¬Orderly (some r) call) : ¬Registered s' := by
  obtain ⟨_, ⟨⟩, legal, enough, done⟩ := step
  cases call with
  | ipcOpen serv ipc thread =>
    have failed : serv = none ∧ r.servList = none := by
      by_contra other
      apply disorderly
      rintro _ ⟨⟩
      exact fun isNone empty => other ⟨isNone, empty⟩
    obtain ⟨rfl, empty⟩ := failed
    obtain ⟨r', opens, servList, -, threads, -⟩ := @Registry.ipcOpen_none ipc thread r
    rw [← done enough (Nat.le_refl _)]
    rintro ⟨r'', opens', channels', links, -, -, count⟩
    obtain rfl := Option.some.inj (opens.symm.trans opens')
    rw [servList, empty] at links
    cases links
    rw [threads empty] at count
    simp at count
  | ipcClose ipc tmpPrev =>
    obtain ⟨serv, isOpen⟩ := legal
    have closes := done (max enough 2) (Nat.le_max_left ..)
    cases serv with
    | none =>
      have crash : r.apply (max enough 2) (.ipcClose ipc tmpPrev) = none :=
        ipcClose_none (sound.peers ipc none isOpen)
      rw [← closes, crash]
      rintro ⟨r', ⟨⟩, -⟩
    | some channel =>
      cases s' with
      | none => rintro ⟨r', ⟨⟩, -⟩
      | some r' =>
        refine sound.ipcClose_other isOpen ?_ (Nat.le_max_right ..) closes
        rintro ⟨isNull, first⟩
        apply disorderly
        rintro _ ⟨⟩
        exact ⟨isNull, channel, isOpen, first⟩

/-- The registry is right between all calls of a run exactly if these are orderly. -/
theorem registered_iff_orderly {s : Option Registry} {calls : List Call}
    (run : Run Step (some start) calls s) :
    Throughout Step Registered (some start) calls ↔ Run (Guarded Orderly Step) (some start) calls s := by
  refine @throughout_iff_of_invariant _ _ Step (fun s => ∃ r channels, s = some r ∧ r.Sound channels)
    Registered Orderly _ _ _ (fun _ _ _ _ => step_functional) ⟨start, [], rfl, sound_start⟩ ?_ ?_ ?_ run
  · rintro _ call s' ⟨r, channels, rfl, sound⟩ ⟨orderly, step⟩
    exact sound.step orderly step
  · rintro _ ⟨r, channels, rfl, sound⟩
    exact sound.registered
  · rintro _ call s' ⟨r, channels, rfl, sound⟩ step disorderly
    exact sound.not_registered step disorderly

/-- Two channels, closed in the reverse order. -/
theorem registered_iff_orderly_reverse :
    ∃ s calls, calls = [.ipcOpen (some 10) 11 1, .ipcOpen (some 20) 21 2, .ipcClose 21 none,
        .ipcClose 11 none] ∧ Run Step (some start) calls s ∧
      Throughout Step Registered (some start) calls := by
  have guarded : ∃ s, Run (Guarded Orderly Step) (some start) [.ipcOpen (some 10) 11 1,
      .ipcOpen (some 20) 21 2, .ipcClose 21 none, .ipcClose 11 none] s := by
    refine ⟨_, .cons ⟨?_, @step_of_apply _ _ 0 _ ?_ rfl⟩ <| .cons ⟨?_, @step_of_apply _ _ 0 _ ?_ rfl⟩ <|
      .cons ⟨?_, @step_of_apply _ _ 3 _ ?_ rfl⟩ <| .cons ⟨?_, @step_of_apply _ _ 3 _ ?_ rfl⟩ <| .nil _⟩
    · rintro _ ⟨⟩ ⟨⟩
    · simp [Legal, start]
    · rintro _ ⟨⟩ ⟨⟩
    · exact ⟨rfl, by decide, by rintro _ ⟨⟩; exact ⟨rfl, by decide⟩⟩
    · rintro _ ⟨⟩
      exact ⟨rfl, 20, by simp, rfl⟩
    · exact ⟨some 20, by simp⟩
    · rintro _ ⟨⟩
      exact ⟨rfl, 10, by simp, rfl⟩
    · exact ⟨some 10, by simp⟩
  obtain ⟨s, guarded⟩ := guarded
  have run := guarded.mono fun taken => taken.2
  exact ⟨s, _, rfl, run, (registered_iff_orderly run).mpr guarded⟩

/-- The channel that was opened first is closed first: it stays in the list after it is freed. -/
theorem not_registered_first : ¬∀ calls s, Run Step (some start) calls s → Registered s := by
  intro holds
  have run : ∃ r, Run Step (some start) [.ipcOpen (some 10) 11 1, .ipcOpen (some 20) 21 2,
      .ipcClose 11 none] (some r) ∧ r.servList = some 20 ∧ r.nextServ 20 = some (some 10) ∧
      r.nextServ 10 = none := by
    refine ⟨_, .cons (@step_of_apply _ _ 0 _ ?_ rfl) <| .cons (@step_of_apply _ _ 0 _ ?_ rfl) <|
      .cons (@step_of_apply _ _ 3 _ ?_ rfl) <| .nil _, rfl, rfl, rfl⟩
    · simp [Legal, start]
    · exact ⟨rfl, by decide, by rintro _ ⟨⟩; exact ⟨rfl, by decide⟩⟩
    · exact ⟨some 10, by simp⟩
  obtain ⟨r, run, first, second, freed⟩ := run
  obtain ⟨_, ⟨⟩, channels, links, -⟩ := holds _ _ run
  rw [first] at links
  cases links with
  | cons here later =>
    obtain rfl := Option.some.inj (second.symm.trans here)
    cases later with
    | cons here' later' =>
      rw [freed] at here'
      cases here'

end Registry

end AmlCommonlib.SocketIpc
