import AmlCommonlib.Lib.CString

/-! # Messages as typed value trees

What the templates use of a D-Bus message: a tree of nodes that carry their signature, written
through a stack of open containers and read through a stack of entered ones. A call on a message
that is being read returns 1 when it took a node, 0 at the end of the enclosing array and a negative
error otherwise; leaving a container with unread members is refused.
-/

namespace AmlCommonlib.Dbus

/-- `-ENXIO`: no such element here. -/
def enxio : ℤ := -6

/-- `-EBUSY`: unread members. -/
def ebusy : ℤ := -16

/-- `-EINVAL`: not a signature. -/
def einval : ℤ := -22

mutual

/-- The signature of one complete value. -/
inductive Sig
  | basic (code : Char)
  | array (elem : Sig)
  | struct (fields : Sigs)
  | entry (key value : Sig)
deriving DecidableEq

inductive Sigs
  | nil
  | cons (first : Sig) (rest : Sigs)
deriving DecidableEq

end

def Sig.isBasic : Sig → Bool
  | .basic _ => true
  | _ => false

def Sig.isArray : Sig → Bool
  | .array _ => true
  | _ => false

mutual

/-- The signatures a container may have: the key of a dictionary entry is basic. -/
def Sig.valid : Sig → Bool
  | .basic _ => true
  | .array elem => elem.valid
  | .struct fields => fields.valid
  | .entry key value => key.isBasic && value.valid

def Sigs.valid : Sigs → Bool
  | .nil => true
  | .cons first rest => first.valid && rest.valid

end

/-- A C string, as the message stores it. -/
abbrev CStr := {s : Bytes // IsCString s}

/-- A complete value in a message: the bytes of a number, a string or a container. -/
inductive Node
  | basic (code : Char) (ct : Bytes)
  | string (s : CStr)
  | container (sig : Sig) (items : List Node)

mutual

/-- The nodes of a tree. -/
def Node.count : Node → ℕ
  | .basic .. => 1
  | .string _ => 1
  | .container _ items => 1 + countAll items

def countAll : List Node → ℕ
  | [] => 0
  | node :: rest => node.count + countAll rest

end

@[simp] theorem countAll_cons (node : Node) (rest : List Node) :
    countAll (node :: rest) = node.count + countAll rest := by simp [countAll]

theorem Node.count_pos (node : Node) : 0 < node.count := by
  cases node with
  | container sig items =>
    rw [Node.count]
    omega
  | _ => simp [Node.count]

theorem length_le_countAll (nodes : List Node) : nodes.length ≤ countAll nodes := by
  induction nodes with
  | nil => simp
  | cons node rest ih =>
    have positive := node.count_pos
    simp only [List.length_cons, countAll_cons]
    omega

/-! ### Writing -/

/-- A message being written: the finished values and the open containers, innermost first. -/
structure Writer where
  root : List Node
  opened : List (Sig × List Node)

def Writer.new : Writer := ⟨[], []⟩

def Writer.append (node : Node) (w : Writer) : Writer :=
  match w.opened with
  | [] => { w with root := w.root ++ [node] }
  | (sig, items) :: below => { w with opened := (sig, items ++ [node]) :: below }

/-- `sd_bus_message_append_basic`. -/
def appendBasic (code : Char) (ct : Bytes) (w : Writer) : ℤ × Writer :=
  (0, w.append (.basic code ct))

/-- `sd_bus_message_append_basic` with type `s`. -/
def appendString (s : CStr) (w : Writer) : ℤ × Writer := (0, w.append (.string s))

/-- `sd_bus_message_open_container`. -/
def openContainer (sig : Sig) (w : Writer) : ℤ × Writer :=
  if sig.valid then (0, { w with opened := (sig, []) :: w.opened }) else (einval, w)

/-- `sd_bus_message_close_container`. -/
def closeContainer (w : Writer) : Writer :=
  match w.opened with
  | [] => w
  | (sig, items) :: below => Writer.append (.container sig items) { w with opened := below }

/-! ### Reading -/

/-- The unread part of a container that was entered. -/
structure Frame where
  inArray : Bool
  rest : List Node

/-- A message being read: the entered containers, innermost first, and last the message itself. -/
abbrev Reader := List Frame

/-- The nodes that are still to be read. -/
def Reader.size : Reader → ℕ
  | [] => 0
  | frame :: below => countAll frame.rest + Reader.size below

@[simp] theorem Reader.size_cons (frame : Frame) (below : Reader) :
    Reader.size (frame :: below) = countAll frame.rest + Reader.size below := rfl

/-- The message of a writer that closed all it opened, from its start. -/
def Writer.sealed (w : Writer) : Reader :=
  match w.opened with
  | [] => [⟨false, w.root⟩]
  | _ => []

/-- Take the next node if it is one that is asked for. -/
def take {α : Type} (select : Node → Option α) : Reader → ℤ × Option α × Reader
  | [] => (enxio, none, [])
  | ⟨inArray, []⟩ :: below => (if inArray then 0 else enxio, none, ⟨inArray, []⟩ :: below)
  | ⟨inArray, node :: rest⟩ :: below =>
    match select node with
    | some x => (1, some x, ⟨inArray, rest⟩ :: below)
    | none => (enxio, none, ⟨inArray, node :: rest⟩ :: below)

def Node.ct? (code : Char) : Node → Option Bytes
  | .basic c ct => if c = code then some ct else none
  | _ => none

def Node.text? : Node → Option CStr
  | .string s => some s
  | _ => none

def Node.items? (sig : Sig) : Node → Option (List Node)
  | .container s items => if s = sig ∧ sig.valid then some items else none
  | _ => none

/-- `sd_bus_message_read_basic`. -/
def readBasic (code : Char) (m : Reader) : ℤ × Option Bytes × Reader := take (Node.ct? code) m

/-- `sd_bus_message_read_basic` with type `s`. -/
def readString (m : Reader) : ℤ × Option CStr × Reader := take Node.text? m

/-- `sd_bus_message_enter_container`. -/
def enterContainer (sig : Sig) (m : Reader) : ℤ × Reader :=
  match take (Node.items? sig) m with
  | (_, some items, m') => (1, ⟨sig.isArray, items⟩ :: m')
  | (r, none, m') => (r, m')

/-- `sd_bus_message_exit_container`: the message itself is never left. -/
def exitContainer : Reader → ℤ × Reader
  | frame :: outer :: below =>
    if frame.rest = [] then (1, outer :: below) else (ebusy, frame :: outer :: below)
  | m => (enxio, m)

/-! ### What a call can do -/

/-- A node was taken, or the message is as before. -/
theorem take_cases {α : Type} (select : Node → Option α) (m : Reader) :
    (∃ inArray node rest below x, m = ⟨inArray, node :: rest⟩ :: below ∧ select node = some x ∧
      take select m = (1, some x, ⟨inArray, rest⟩ :: below)) ∨
    ∃ r ≤ 0, take select m = (r, none, m) := by
  match m with
  | [] => exact .inr ⟨enxio, by decide, rfl⟩
  | ⟨inArray, []⟩ :: below =>
    refine .inr ⟨if inArray then 0 else enxio, ?_, rfl⟩
    cases inArray <;> decide
  | ⟨inArray, node :: rest⟩ :: below =>
    cases chosen : select node with
    | none => exact .inr ⟨enxio, by decide, by simp [take, chosen]⟩
    | some x => exact .inl ⟨inArray, node, rest, below, x, rfl, chosen, by simp [take, chosen]⟩

theorem enterContainer_cases (sig : Sig) (m : Reader) :
    (∃ inArray items rest below, m = ⟨inArray, .container sig items :: rest⟩ :: below ∧ sig.valid ∧
      enterContainer sig m = (1, ⟨sig.isArray, items⟩ :: ⟨inArray, rest⟩ :: below)) ∨
    ∃ r ≤ 0, enterContainer sig m = (r, m) := by
  rcases take_cases (Node.items? sig) m with
    ⟨inArray, node, rest, below, items, rfl, chosen, taken⟩ | ⟨r, le, taken⟩
  · left
    cases node with
    | container s items' =>
      rw [Node.items?] at chosen
      split_ifs at chosen with matching
      obtain ⟨rfl, valid⟩ := matching
      cases chosen
      exact ⟨inArray, items, rest, below, rfl, valid, by rw [enterContainer, taken]⟩
    | _ => cases chosen
  · right
    exact ⟨r, le, by rw [enterContainer, taken]⟩

theorem exitContainer_cases (m : Reader) :
    (∃ inArray outer below, m = ⟨inArray, []⟩ :: outer :: below ∧
      exitContainer m = (1, outer :: below)) ∨ ∃ r < 0, exitContainer m = (r, m) := by
  match m with
  | [] => exact .inr ⟨enxio, by decide, rfl⟩
  | [frame] => exact .inr ⟨enxio, by decide, rfl⟩
  | ⟨inArray, []⟩ :: outer :: below => exact .inl ⟨inArray, outer, below, rfl, rfl⟩
  | ⟨inArray, node :: rest⟩ :: outer :: below =>
    exact .inr ⟨ebusy, by decide, by simp [exitContainer]⟩

end AmlCommonlib.Dbus
