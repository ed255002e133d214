import AmlCommonlib.Lib.CString

/-! # The variable list of one process

`gs_kv_header` is a node that is always present; its successors are allocated. A node's key is
the string in `key[256]` and its value is a heap string or `NULL`. Lookup and update walk the
list from the header and stop at the first node with the wanted key, so duplicates are possible
and the first one wins.
-/

namespace AmlCommonlib.Ubootenv

/-- `struct env_kv` without its link. -/
structure EnvKv where
  key : Bytes
  value : Option Bytes
deriving DecidableEq, Repr

/-- A node as `env_parse_kv` initialises it; also the zeroed `gs_kv_header`. -/
def EnvKv.fresh : EnvKv := ⟨[], none⟩

/-- `gs_kv_header` and the nodes reachable through `next`. -/
structure KvList where
  header : EnvKv
  next : List EnvKv
deriving DecidableEq, Repr

namespace KvList

/-- The list of a process that has not parsed anything yet. -/
def empty : KvList := ⟨.fresh, []⟩

def nodes (l : KvList) : List EnvKv := l.header :: l.next

@[simp] theorem nodes_mk (header : EnvKv) (next : List EnvKv) :
    nodes ⟨header, next⟩ = header :: next := rfl

end KvList

/-- The walk of `bootenv_get_value`: the value of the first node with the key, `NULL` otherwise. -/
def lookup (key : Bytes) : List EnvKv → Option Bytes
  | [] => none
  | attr :: rest => if key = attr.key then attr.value else lookup key rest

/-- `bootenv_get_value`, on an initialised process. -/
def bootenvGetValue (l : KvList) (key : Bytes) : Option Bytes := lookup key l.nodes

/-- The walk of `bootenv_set_value` with `creat_args_flag`: overwrite the first match, or append
a node whose key is cut to the 255 bytes of its field. -/
def assign (key value : Bytes) : List EnvKv → List EnvKv
  | [] => [⟨snprintf 256 key, some value⟩]
  | attr :: rest =>
    if key = attr.key then { attr with value := some value } :: rest
    else attr :: assign key value rest

/-- `bootenv_set_value(key, value, 1)`. The header is never removed. -/
def bootenvSetValue (l : KvList) (key value : Bytes) : KvList :=
  match assign key value l.nodes with
  | [] => l
  | header :: next => ⟨header, next⟩

/-- `env_release_kv` frees the values and the successors but keeps the header's key. -/
def envReleaseKv (l : KvList) : KvList := ⟨⟨l.header.key, none⟩, []⟩

theorem bootenvSetValue_nodes (l : KvList) (key value : Bytes) :
    (bootenvSetValue l key value).nodes = assign key value l.nodes := by
  simp only [bootenvSetValue, KvList.nodes]
  unfold assign
  split_ifs <;> rfl

/-- A key that fits its field is found again with the value just stored. -/
theorem lookup_assign_self {key : Bytes} (fits : key.length ≤ 255) (value : Bytes)
    (nodes : List EnvKv) : lookup key (assign key value nodes) = some value := by
  induction nodes with
  | nil => simp [assign, lookup, snprintf, List.take_of_length_le fits]
  | cons attr rest ih =>
    unfold assign
    split_ifs with same
    · simp only [lookup, same, if_true]
    · simp only [lookup, same, if_false, ih]

/-- Storing one key leaves the lookup of every other key alone. -/
theorem lookup_assign_other {key other : Bytes} (fits : key.length ≤ 255) (different : other ≠ key)
    (value : Bytes) (nodes : List EnvKv) :
    lookup other (assign key value nodes) = lookup other nodes := by
  induction nodes with
  | nil => simp [assign, lookup, snprintf, List.take_of_length_le fits, different]
  | cons attr rest ih =>
    unfold assign
    split_ifs with same
    · have miss : other ≠ attr.key := same ▸ different
      simp only [lookup, miss, if_false]
    · simp only [lookup, ih]

/-- Every node after an assignment is an old one, or carries the stored value under an old key
or under the cut key. -/
theorem mem_assign {key value : Bytes} {nodes : List EnvKv} {attr : EnvKv}
    (member : attr ∈ assign key value nodes) :
    attr ∈ nodes ∨ (attr.value = some value ∧
      (attr.key = snprintf 256 key ∨ ∃ old ∈ nodes, attr.key = old.key)) := by
  induction nodes with
  | nil =>
    simp only [assign, List.mem_singleton] at member
    exact .inr (by simp [member])
  | cons head rest ih =>
    unfold assign at member
    split_ifs at member with same
    · rcases List.mem_cons.mp member with rfl | tail
      · exact .inr ⟨rfl, .inr ⟨head, List.mem_cons_self .., rfl⟩⟩
      · exact .inl (List.mem_cons_of_mem _ tail)
    · rcases List.mem_cons.mp member with rfl | tail
      · exact .inl (List.mem_cons_self ..)
      · rcases ih tail with old | ⟨stored, named | ⟨old, present, named⟩⟩
        · exact .inl (List.mem_cons_of_mem _ old)
        · exact .inr ⟨stored, .inl named⟩
        · exact .inr ⟨stored, .inr ⟨old, List.mem_cons_of_mem _ present, named⟩⟩

end AmlCommonlib.Ubootenv
