import AmlCommonlib.SocketIpc.Sending

/-! # The handlers of incoming calls

The `_ipc_handle_` stubs that the export macros generate. A stub calls its `on_` function unless the
decoder returns something negative, which it does only where the announced lengths add up to more
than an `int` holds: what a truncated datagram does not hold, the `on_` function is given all the
same.
-/

namespace AmlCommonlib.SocketIpc

/-- An exported function: its arguments, whether it is a synchronous one, and what its `on_`
function returns. -/
structure Exported where
  argfmt : List TypeId
  sync : Bool
  on : List Var → ℤ

/-- What a stub has done: the arguments of its call of the `on_` function, the code of the response
it has sent itself, and what it returns. -/
structure Handled where
  called : Option (List Var)
  answered : Option ℤ
  ret : ℤ

/-- A read outside the buffer that `ipc_socket_handle` has received into is a fault. -/
def Event.inBuffer : Event → Bool
  | .read offset => offset < sipcMaxMessageSize
  | _ => true

/-- The `_ipc_handle_` stub of a function on `len` bytes at `pos`, with what its variables hold
before. -/
def ipcHandle (env : SocketEnv) (func : Exported) (mem : ℕ → UInt8) (pos : ℕ) (len : ℤ)
    (vars : List Var) : Option Handled :=
  let upacked := ipcUpackVa mem (func.argfmt.map TypeId.code) pos len
  if upacked.events.all Event.inBuffer then
    let params := storeAll vars upacked.writes
    let (called, r) :=
      if 0 ≤ upacked.ret then (some params, func.on params) else (none, upacked.ret)
    if func.sync ∧ r ≠ sipcNoErr then
      (ipcRespVaSend env none r []).map fun (ret, _) => ⟨called, some r, ret⟩
    else some ⟨called, none, r⟩
  else none

/-! ### Decoded arguments -/

/-- The decoder has stored every argument, and all it has read and handed out was received. -/
def Upacked.Assigned (mem : ℕ → UInt8) (n : ℕ) (types : List TypeId) (upacked : Upacked) : Prop :=
  upacked.Safe mem n ∧ upacked.writes.length = types.length

/-- The `on_` function is called on arguments from the message only; otherwise an error is reported,
by a synchronous function with a response. -/
def HandlesDecoded (env : SocketEnv) (func : Exported) (mem : ℕ → UInt8) (n pos : ℕ)
    (vars : List Var) : Prop :=
  ∃ handled, ipcHandle env func mem pos (n - pos) vars = some handled ∧
    let assigned :=
      (ipcUpackVa mem (func.argfmt.map TypeId.code) pos (n - pos)).Assigned mem n func.argfmt
    (handled.called.isSome → assigned) ∧
    (¬assigned → handled.called = none ∧
      if func.sync then ∃ r < 0, handled.answered = some r else handled.ret < 0)

/-- The bytes received up to `n` hold an argument of each type from `pos` on. -/
def Contained (mem : ℕ → UInt8) (n : ℕ) : List TypeId → ℕ → Prop
  | [], _ => True
  | type :: types, pos =>
    if type = .str ∨ type = .ptr then
      pos + 4 ≤ n ∧ 0 ≤ itemLength mem pos ∧ pos + 4 + (itemLength mem pos).toNat ≤ n ∧
        (type = .str → itemLength mem pos ≠ 0 →
          ∃ j < (itemLength mem pos).toNat, mem (pos + 4 + j) = 0) ∧
        Contained mem n types (pos + 4 + (itemLength mem pos).toNat)
    else pos + type.len ≤ n ∧ Contained mem n types (pos + type.len)

/-- The lengths in the buffer lead 2^31 bytes or more behind the first argument, `taken` of them in
front of `pos`, and nothing is read there: the sum of the decoder is negative. -/
def Overflows (mem : ℕ → UInt8) : List TypeId → ℕ → ℤ → ℕ → Prop
  | [], _, _, _ => False
  | type :: types, pos, len, taken =>
    if type = .str ∨ type = .ptr then
      let size := itemLength mem pos + 4
      pos + 4 ≤ sipcMaxMessageSize ∧ 0 < size ∧ size < 2 ^ 31 ∧ (4 ≤ size ∨ size ≤ len) ∧
        if taken + size < 2 ^ 31 then
          Overflows mem types (pos + size.toNat) (int32 (len - size)) (taken + size.toNat)
        else ∀ next ∈ types.head?, ¬(next = .str ∨ next = .ptr) ∧ int32 (len - size) < next.len
    else
      type.len ≤ len ∧ pos + type.len ≤ sipcMaxMessageSize ∧
        Overflows mem types (pos + type.len) (int32 (len - type.len)) (taken + type.len)

/-- An item that consumes `k` received bytes and is stored leaves the question to the others. -/
theorem assigned_cons_iff {mem : ℕ → UInt8} {n pos k : ℕ} {type : TypeId} {types : List TypeId}
    {write : Write} (small : n < 2 ^ 31) (ret : (upackItem type mem pos (n - pos)).ret = k) (some' : 0 < k)
    (bound : pos + k ≤ n) (stored : (upackItem type mem pos (n - pos)).write = some write) :
    (ipcUpackVa mem ((type :: types).map TypeId.code) pos (n - pos)).Assigned mem n (type :: types) ↔
      (∀ e ∈ (upackItem type mem pos (n - pos)).events, e.Inside mem n) ∧
        (ipcUpackVa mem (types.map TypeId.code) (pos + k) (n - (pos + k : ℕ))).Assigned mem n
          types := by
  have safe := @safe_cons_iff mem n pos k (fun _ => True) _ (types.map TypeId.code) _
    small (buildinType_code type) ret some' bound
  simp only [and_true] at safe
  have go : ¬(k : ℤ) ≤ 0 := by omega
  have left := left_behind small (k := k) (by omega) bound
  rw [Int.toNat_natCast] at left
  have writes : (ipcUpackVa mem (type.code :: types.map TypeId.code) pos (n - pos)).writes =
      write :: (ipcUpackVa mem (types.map TypeId.code) (pos + k) (n - (pos + k : ℕ))).writes := by
    simp only [ipcUpackVa, buildinType_code, ret, go, if_false, Int.toNat_natCast, left, stored,
      Option.toList_some, List.singleton_append]
  simp only [Upacked.Assigned, List.map_cons, safe, writes, List.length_cons,
    Nat.add_right_cancel_iff, and_assoc]

/-- The decoder assigns every argument from the message exactly if the message holds them all. -/
theorem assigned_iff_contained (mem : ℕ → UInt8) {n : ℕ} (small : n < 2 ^ 31) (types : List TypeId)
    (pos : ℕ) :
    (ipcUpackVa mem (types.map TypeId.code) pos (n - pos)).Assigned mem n types ↔
      Contained mem n types pos := by
  induction types generalizing pos with
  | nil => simp [ipcUpackVa, Upacked.Assigned, Upacked.Safe, Contained]
  | cons type types ih =>
    rw [Contained]
    split_ifs with kind
    · have framing := upackItem_pointer_inside kind mem n pos
      by_cases whole : ∀ e ∈ (upackItem type mem pos (n - pos)).events, e.Inside mem n
      · obtain ⟨header, positive, bound, text⟩ := framing.mp whole
        have stored : ∃ write, (upackItem type mem pos (n - pos)).write = some write := by
          have free : ¬(itemLength mem pos < 0 ∧ (n : ℤ) - pos < itemLength mem pos + 4) := by omega
          simp only [upackItem_pointer kind, ipcUpackPointer, free, if_false]
          exact ⟨_, rfl⟩
        obtain ⟨write, stored⟩ := stored
        have ret : (upackItem type mem pos (n - pos)).ret = (4 + (itemLength mem pos).toNat : ℕ) :=
          upackItem_pointer_ret kind positive (by omega)
        rw [assigned_cons_iff small ret (by omega) (by omega) stored, ← Nat.add_assoc, ih]
        constructor
        · rintro ⟨-, rest⟩
          exact ⟨header, positive, bound, text, rest⟩
        · rintro ⟨-, -, -, -, rest⟩
          exact ⟨whole, rest⟩
      · constructor
        · intro assigned
          exact absurd (assigned.1.first (buildinType_code type)) whole
        · rintro ⟨header, positive, bound, text, -⟩
          exact absurd (framing.mpr ⟨header, positive, bound, text⟩) whole
    · by_cases received : pos + type.len ≤ n
      · have room : ¬(n : ℤ) - pos < type.len := by omega
        have item : upackItem type mem pos (n - pos) = ⟨type.len,
            some (.number (window mem pos type.len).reverse), reads pos type.len⟩ := by
          rw [upackItem_number kind, ipcUpackNumber, if_neg room]
        rw [assigned_cons_iff small (congrArg ItemResult.ret item) type.len_pos received
          (congrArg ItemResult.write item), item, ih, reads_inside type.len_pos]
      · have room : (n : ℤ) - pos < type.len := by omega
        simp [received, ipcUpackVa, upackItem_number kind, ipcUpackNumber, room, sipcErrParam,
          Upacked.Assigned]

/-! ### Sums that wrap around -/

theorem Upacked.Safe.inBuffer {mem : ℕ → UInt8} {n : ℕ} {upacked : Upacked}
    (safe : upacked.Safe mem n) (received : n ≤ sipcMaxMessageSize) :
    upacked.events.all Event.inBuffer = true := by
  rw [List.all_eq_true]
  intro e member
  have inside := safe e member
  cases e with
  | read offset => exact decide_eq_true (lt_of_lt_of_le inside received)
  | handOut type start len => rfl
  | advance offset => rfl

theorem ipcUpackVa_ret_int32 (mem : ℕ → UInt8) (fmt : List ℤ) (pos : ℕ) (len : ℤ) :
    int32 (ipcUpackVa mem fmt pos len).ret = (ipcUpackVa mem fmt pos len).ret := by
  cases fmt with
  | nil => rfl
  | cons ch fmt =>
    unfold ipcUpackVa
    cases buildinType ch with
    | none => rfl
    | some type =>
      dsimp only
      split_ifs
      · rfl
      · exact int32_of_range (int32_range _).1 (int32_range _).2

theorem all_inBuffer_reads {pos count : ℕ} (some' : 0 < count) :
    (reads pos count).all Event.inBuffer = true ↔ pos + count ≤ sipcMaxMessageSize := by
  simp only [reads, List.all_map, List.all_eq_true, List.mem_range, Function.comp_apply,
    Event.inBuffer, decide_eq_true_eq]
  constructor
  · intro inside
    have last := inside (count - 1) (by omega)
    omega
  · intro bound i small
    omega

/-- What an item takes, where it is inside the buffer and not refused. -/
theorem upackItem_pointer_takes_iff {type : TypeId} (kind : type = .str ∨ type = .ptr)
    (mem : ℕ → UInt8) (pos : ℕ) (len : ℤ) :
    (upackItem type mem pos len).events.all Event.inBuffer = true ∧
        0 < (upackItem type mem pos len).ret ↔
      pos + 4 ≤ sipcMaxMessageSize ∧ 0 < itemLength mem pos + 4 ∧ itemLength mem pos + 4 < 2 ^ 31 ∧
        (4 ≤ itemLength mem pos + 4 ∨ itemLength mem pos + 4 ≤ len) := by
  have range : -2 ^ 31 ≤ itemLength mem pos ∧ itemLength mem pos < 2 ^ 31 := int32_range _
  have silent : ∀ start tlen, ([Event.handOut type start tlen]).all Event.inBuffer = true :=
    fun _ _ => rfl
  have wraps : 0 < int32 (itemLength mem pos + 4) ↔
      0 < itemLength mem pos + 4 ∧ itemLength mem pos + 4 < 2 ^ 31 := by
    by_cases big : itemLength mem pos + 4 < 2 ^ 31
    · rw [int32_of_range (by omega) big, and_iff_left big]
    · have negative := int32_le_sub (not_lt.mp big)
      constructor
      · omega
      · exact fun both => absurd both.2 big
  rw [upackItem_pointer kind, ipcUpackPointer]
  by_cases refused : itemLength mem pos < 0 ∧ len < itemLength mem pos + 4
  · rw [if_pos refused]
    constructor
    · exact fun both => absurd both.2 (show ¬0 < sipcErrParam by decide)
    · omega
  · have handed : (if itemLength mem pos ≠ 0 then [Event.handOut type (pos + 4) (itemLength mem pos)]
        else []).all Event.inBuffer = true := by
      split_ifs
      · exact silent _ _
      · rfl
    simp only [refused, if_false, List.all_append, handed, Bool.and_true,
      all_inBuffer_reads (show 0 < 4 by decide), wraps]
    constructor
    · rintro ⟨inside, positive, small⟩
      exact ⟨inside, positive, small, by omega⟩
    · rintro ⟨inside, positive, small, -⟩
      exact ⟨inside, positive, small⟩

/-- Behind the buffer the decoder goes on only if it reads nothing, and then it takes nothing. -/
theorem ipcUpackVa_behind (mem : ℕ → UInt8) (types : List TypeId) {pos : ℕ} (len : ℤ)
    (behind : sipcMaxMessageSize ≤ pos) :
    ((ipcUpackVa mem (types.map TypeId.code) pos len).events.all Event.inBuffer = true ↔
        ∀ next ∈ types.head?, ¬(next = .str ∨ next = .ptr) ∧ len < next.len) ∧
      ((∀ next ∈ types.head?, ¬(next = .str ∨ next = .ptr) ∧ len < next.len) →
        (ipcUpackVa mem (types.map TypeId.code) pos len).ret = 0) := by
  cases types with
  | nil => simp [ipcUpackVa]
  | cons type types =>
    simp only [List.head?_cons, Option.mem_def, Option.some.injEq, forall_eq']
    have faults : ∀ count, 0 < count → (reads pos count).all Event.inBuffer = false := by
      intro count some'
      rw [Bool.eq_false_iff, ne_eq, all_inBuffer_reads some']
      omega
    have first : (upackItem type mem pos len).events.all Event.inBuffer = false →
        ¬(ipcUpackVa mem ((type :: types).map TypeId.code) pos len).events.all Event.inBuffer =
          true := by
      intro fault
      rw [Bool.not_eq_true]
      simp only [List.map_cons, ipcUpackVa, buildinType_code]
      split_ifs
      · exact fault
      · rw [List.all_append, fault, Bool.false_and]
    by_cases kind : type = .str ∨ type = .ptr
    · have fault : (upackItem type mem pos len).events.all Event.inBuffer = false := by
        rw [upackItem_pointer kind, ipcUpackPointer_events, List.all_append,
          faults 4 (by decide), Bool.false_and]
      rw [iff_false_left (first fault)]
      simp [kind]
    · by_cases room : len < type.len
      · simp [ipcUpackVa, upackItem_number kind, ipcUpackNumber, room, sipcErrParam, kind]
      · have fault : (upackItem type mem pos len).events.all Event.inBuffer = false := by
          rw [upackItem_number kind, ipcUpackNumber, if_neg room]
          exact faults _ type.len_pos
        rw [iff_false_left (first fault)]
        simp [room]

/-- Without a fault the sum is negative exactly if it wraps around once. -/
theorem overflows_iff (mem : ℕ → UInt8) (types : List TypeId) {pos taken : ℕ} (len : ℤ)
    (within : taken ≤ pos) (small : taken < 2 ^ 31) :
    (ipcUpackVa mem (types.map TypeId.code) pos len).events.all Event.inBuffer = true ∧
        int32 (taken + (ipcUpackVa mem (types.map TypeId.code) pos len).ret) < 0 ↔
      Overflows mem types pos len taken := by
  induction types generalizing pos len taken with
  | nil =>
    have nonneg : ¬int32 taken < 0 := by
      rw [int32_of_range (by omega) (by omega)]
      omega
    simp [ipcUpackVa, Overflows, nonneg]
  | cons type types ih =>
    have stays : ¬int32 ((taken : ℤ) + 0) < 0 := by
      rw [int32_of_range (by omega) (by omega)]
      omega
    -- an item that takes nothing ends the loop
    have taking : (ipcUpackVa mem ((type :: types).map TypeId.code) pos len).events.all
          Event.inBuffer = true ∧
        int32 (taken + (ipcUpackVa mem ((type :: types).map TypeId.code) pos len).ret) < 0 ↔
        ((upackItem type mem pos len).events.all Event.inBuffer = true ∧
          0 < (upackItem type mem pos len).ret) ∧
        (ipcUpackVa mem (types.map TypeId.code) (pos + (upackItem type mem pos len).ret.toNat)
          (int32 (len - (upackItem type mem pos len).ret))).events.all Event.inBuffer = true ∧
        int32 (taken + (upackItem type mem pos len).ret +
          (ipcUpackVa mem (types.map TypeId.code) (pos + (upackItem type mem pos len).ret.toNat)
            (int32 (len - (upackItem type mem pos len).ret))).ret) < 0 := by
      simp only [List.map_cons, ipcUpackVa, buildinType_code]
      split_ifs with stop
      · simp only [stays, and_false, not_lt.mpr stop, false_and]
      · have sum : ∀ r : ℤ, int32 (taken + int32 ((upackItem type mem pos len).ret + r)) =
            int32 (taken + (upackItem type mem pos len).ret + r) := by
          intro r
          rw [add_comm, int32_int32_add]
          congr 1
          ring
        simp only [List.all_append, List.all_cons, Event.inBuffer, Bool.true_and, Bool.and_eq_true,
          sum, not_le.mp stop, and_true, and_assoc]
    rw [taking, Overflows]
    split_ifs with kind
    · rw [upackItem_pointer_takes_iff kind]
      simp only [and_assoc]
      refine and_congr_right fun header => and_congr_right fun positive => and_congr_right fun short =>
        and_congr_right fun accepted => ?_
      rw [upackItem_pointer_ret_eq kind positive short accepted]
      have sum : ((taken + (itemLength mem pos + 4).toNat : ℕ) : ℤ) =
          taken + (itemLength mem pos + 4) := by omega
      split_ifs with counted
      · rw [← ih _ (by omega) (by omega), sum]
      · have behind : sipcMaxMessageSize ≤ pos + (itemLength mem pos + 4).toNat := by
          simp only [sipcMaxMessageSize]
          omega
        obtain ⟨silent, nothing⟩ := ipcUpackVa_behind mem types
          (int32 (len - (itemLength mem pos + 4))) behind
        constructor
        · exact fun both => silent.mp both.1
        · intro stops
          refine ⟨silent.mpr stops, ?_⟩
          have wrapped := int32_le_sub (not_lt.mp counted)
          rw [nothing stops, add_zero]
          omega
    · by_cases room : len < type.len
      · have refused : ¬(type.len : ℤ) ≤ len := by omega
        have stop : ¬0 < sipcErrParam := by decide
        simp [upackItem_number kind, ipcUpackNumber, room, refused, stop]
      · have item : upackItem type mem pos len = ⟨type.len,
            some (.number (window mem pos type.len).reverse), reads pos type.len⟩ := by
          rw [upackItem_number kind, ipcUpackNumber, if_neg room]
        have positive : 0 < (type.len : ℤ) := Int.natCast_pos.mpr type.len_pos
        simp only [item, all_inBuffer_reads type.len_pos, positive, and_true, not_lt.mp room,
          true_and, Int.toNat_natCast]
        refine and_congr_right fun inside => ?_
        have below : taken + type.len < 2 ^ 31 := by
          simp only [sipcMaxMessageSize] at inside
          omega
        rw [← ih _ (by omega) below, Nat.cast_add]

/-- The `on_` function is called unless the sum is negative; then an error is reported. -/
theorem ipcHandle_eq (env : SocketEnv) (func : Exported) {mem : ℕ → UInt8} {pos : ℕ} {len : ℤ}
    (vars : List Var)
    (inside : (ipcUpackVa mem (func.argfmt.map TypeId.code) pos len).events.all Event.inBuffer) :
    ∃ handled, ipcHandle env func mem pos len vars = some handled ∧
      if 0 ≤ (ipcUpackVa mem (func.argfmt.map TypeId.code) pos len).ret then
        handled.called =
          some (storeAll vars (ipcUpackVa mem (func.argfmt.map TypeId.code) pos len).writes)
      else handled.called = none ∧
        if func.sync then ∃ r < 0, handled.answered = some r else handled.ret < 0 := by
  have answers : ∀ r, ∃ ret datagram, ipcRespVaSend env none r [] = some (ret, datagram) := by
    intro r
    rcases @ipcRespVaSend_sends env r [] none .nil with ⟨-, unfit⟩ | ⟨ret, datagram, sent, -⟩
    · exact absurd ⟨_, rfl, by simp [TypeId.len, sipcMaxMessageSize]⟩ unfit
    · exact ⟨ret, some datagram, sent⟩
  simp only [ipcHandle, inside, if_true]
  split_ifs with nonneg failed failed sync sync
  · obtain ⟨ret, datagram, sent⟩ := answers
      (func.on (storeAll vars (ipcUpackVa mem (func.argfmt.map TypeId.code) pos len).writes))
    rw [sent]
    exact ⟨_, rfl, rfl⟩
  · exact ⟨_, rfl, rfl⟩
  · obtain ⟨ret, datagram, sent⟩ := answers
      (ipcUpackVa mem (func.argfmt.map TypeId.code) pos len).ret
    rw [sent]
    exact ⟨_, rfl, rfl, _, by omega, rfl⟩
  · exact absurd failed.1 sync
  · exact absurd ⟨sync, by simp only [sipcNoErr]; omega⟩ failed
  · exact ⟨_, rfl, rfl, by simp only; omega⟩

/-- A stub keeps its `on_` function to decoded arguments exactly if there is one for each type in
what was received, or the announced lengths make the decoder's sum negative. -/
theorem handlesDecoded_iff (env : SocketEnv) (func : Exported) (mem : ℕ → UInt8) (n pos : ℕ)
    (vars : List Var) (received : n ≤ sipcMaxMessageSize) :
    HandlesDecoded env func mem n pos vars ↔
      Contained mem n func.argfmt pos ∨ Overflows mem func.argfmt pos (n - pos) 0 := by
  have small : n < 2 ^ 31 := by
    simp only [sipcMaxMessageSize] at received
    omega
  have wraps := @overflows_iff mem func.argfmt pos 0 (n - pos) (Nat.zero_le pos) (by decide)
  simp only [Nat.cast_zero, zero_add] at wraps
  rw [← assigned_iff_contained mem small, ← wraps]
  have range : int32 (ipcUpackVa mem (func.argfmt.map TypeId.code) pos (n - pos)).ret =
      (ipcUpackVa mem (func.argfmt.map TypeId.code) pos (n - pos)).ret :=
    ipcUpackVa_ret_int32 mem _ pos _
  rw [range]
  by_cases inside : (ipcUpackVa mem (func.argfmt.map TypeId.code) pos (n - pos)).events.all
      Event.inBuffer = true
  · obtain ⟨handled, done, outcome⟩ := ipcHandle_eq env func vars inside
    rw [and_iff_right inside]
    by_cases nonneg : 0 ≤ (ipcUpackVa mem (func.argfmt.map TypeId.code) pos (n - pos)).ret
    · rw [if_pos nonneg] at outcome
      rw [or_iff_left (not_lt.mpr nonneg)]
      constructor
      · rintro ⟨handled', done', only, -⟩
        obtain rfl := Option.some.inj (done.symm.trans done')
        apply only
        rw [outcome]
        rfl
      · intro assigned
        exact ⟨handled, done, fun _ => assigned, fun missing => absurd assigned missing⟩
    · rw [if_neg nonneg] at outcome
      obtain ⟨uncalled, reported⟩ := outcome
      refine iff_of_true ⟨handled, done, ?_, fun _ => ⟨uncalled, reported⟩⟩ (.inr (not_le.mp nonneg))
      intro called
      rw [uncalled] at called
      cases called
  · constructor
    · rintro ⟨handled, done, -⟩
      rw [ipcHandle, if_neg inside] at done
      cases done
    · rintro (assigned | wrapped)
      · exact absurd (assigned.1.inBuffer received) inside
      · exact absurd wrapped.1 inside

/-- "add" of two numbers behind a real header. -/
theorem handlesDecoded_iff_add : HandlesDecoded quietEnv ⟨[.i32, .i32], true, fun _ => 0⟩
    ([0, 0, 0, 1, 0, 0, 0, 5, 0, 0, 0, 2, 97, 0, 0, 0, 0, 3, 0, 0, 0, 4].getD · 0) 22 14
      [.number [9, 9, 9, 9], .number [9, 9, 9, 9]] := by
  apply (handlesDecoded_iff _ _ _ 22 14 _ (by decide)).mpr
  exact .inl (by simp [Contained, TypeId.len])

/-- A datagram that ends behind the header: the `on_` function of an `int` argument gets whatever
its variable held. -/
theorem not_handlesDecoded_truncated : ¬∀ (env : SocketEnv) (func : Exported) (mem : ℕ → UInt8)
    (n pos : ℕ) (vars : List Var), n ≤ sipcMaxMessageSize →
      HandlesDecoded env func mem n pos vars := by
  intro holds
  obtain ⟨handled, done, only, -⟩ := holds quietEnv ⟨[.i32], false, fun _ => 0⟩
    ([0, 0, 0, 1, 0, 0, 0, 5, 0, 0, 0, 2, 97, 0].getD · 0) 14 14 [.number [9, 9, 9, 9]] (by decide)
  cases done
  obtain ⟨-, stored⟩ := only rfl
  exact absurd stored (by decide)

end AmlCommonlib.SocketIpc
