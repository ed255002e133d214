import AmlCommonlib.Lib.Atoi
import AmlCommonlib.SocketIpcV2.IntList
import AmlCommonlib.SocketIpcV2.Server
import Mathlib.Data.Int.Bitwise

/-! # The registration of a client

`clientRegister2Server` prints the bitmap into a buffer of 10 bytes and sends as many of them as an
`int` has; `handleRegisterMessage` gives the body to `atoi`. What was in the buffer before and what
is in memory behind the body may be anything.
-/

namespace AmlCommonlib.SocketIpcV2

/-- `clientRegister2Server`: what it writes to the socket, or `none` when `sprintf` writes past the
end of `msg`. -/
def clientRegister2Server (registerBitmap : ℤ) (stale : ℕ → UInt8) : Option Bytes :=
  let msgLength := 4
  let text := decimalText registerBitmap ++ [0]
  if text.length ≤ 10 then
    let msg := fill 10 text stale
    clientWriteMsg2Server ⟨.register, msg.take msgLength⟩
  else none

/-- `handleRegisterMessage`, with the addresses that `malloc` returns. -/
def handleRegisterMessage (clientFdList : IntList) (address pointer : ℕ) (bitmapStr : Bytes)
    (fd : ℤ) : Option IntList := do
  let bitmap ← atoi? bitmapStr
  clientFdList.pushBack address pointer fd bitmap

/-- `(it->nodeTypeData & (1 << serverMsgType)) != 0` -/
def registeredFor (nodeTypeData : ℤ) (serverMsgType : ℕ) : Bool :=
  toUnsigned 4 nodeTypeData &&& 1 <<< serverMsgType != 0

/-- The loop of `messageSenderWorker` over the clients: the descriptors that a business message is
written to, in order. -/
def sendLoop (clientFdList : IntList) (serverMsgType : ℕ) : ℕ → Option ℕ → Option (List ℤ)
  | _, none => some []
  | 0, some _ => none
  | fuel + 1, some it => do
    let node ← clientFdList.list.heap it
    let fd ← clientFdList.ints node.data
    let later ← sendLoop clientFdList serverMsgType fuel node.next
    return if registeredFor node.nodeTypeData serverMsgType then fd :: later else later

def sendBusiness (fuel : ℕ) (clientFdList : IntList) (serverMsgType : ℕ) : Option (List ℤ) :=
  sendLoop clientFdList serverMsgType fuel clientFdList.list.head

/-! ### Whom a message is sent to -/

section Sending

variable {clients : IntList} {nodes : List (ℕ × ℤ × ℕ)} {s : Sequence} {elements : List Element}
  {head : Option ℕ} {serverMsgType fuel : ℕ}

theorem sendLoop_spec (chain : Chain clients.list.heap head nodes)
    (contents : List.Forall₂ (IntList.Stands clients.ints) nodes elements)
    (enough : nodes.length ≤ fuel) :
    sendLoop clients serverMsgType fuel head =
      some ((elements.filter (registeredFor ·.nodeTypeData serverMsgType)).map Element.value) := by
  induction contents generalizing head fuel with
  | nil =>
    obtain rfl := Chain.nil_iff.mp chain
    cases fuel <;> rfl
  | @cons node e rest later here _ ih =>
    obtain ⟨fuel, rfl⟩ : ∃ n, fuel = n + 1 := ⟨fuel - 1, by simp at enough; omega⟩
    obtain ⟨inner, rfl, atNode, same, chain⟩ := Chain.cons_iff.mp chain
    obtain ⟨-, isType, isValue⟩ := here
    simp only [same] at isType isValue
    have rest' := ih chain (by simpa using enough)
    simp only [sendLoop, atNode, isValue, isType, rest', Option.bind_eq_bind, Option.bind_some,
      Option.pure_def, List.filter_cons]
    split_ifs <;> rfl

/-- The message goes to the entries that are registered for its type. -/
theorem sendBusiness_spec (represents : clients.Represents nodes s) (enough : nodes.length ≤ fuel) :
    sendBusiness fuel clients serverMsgType =
      some ((s.elements.filter (registeredFor ·.nodeTypeData serverMsgType)).map Element.value) :=
  sendLoop_spec represents.held.consists.chain represents.contents enough

end Sending

/-- The sender tests the bit of the bitmap. -/
theorem registeredFor_eq_testBit {bitmap : ℤ} {t : ℕ} (low : -2 ^ 31 ≤ bitmap) (high : bitmap < 2 ^ 31)
    (bit : t < 32) : registeredFor bitmap t = bitmap.testBit t := by
  have tested : ∀ n : ℕ, (n &&& 1 <<< t != 0) = n.testBit t := by
    intro n
    rw [Nat.one_shiftLeft, Nat.and_two_pow]
    cases n.testBit t <;> simp
  rw [registeredFor, tested]
  cases bitmap with
  | ofNat n =>
    have same : toUnsigned 4 (Int.ofNat n) = n := by
      zify
      exact toUnsigned_of_range (by simp) (by omega)
    rw [same]
    rfl
  | negSucc n =>
    have same : toUnsigned 4 (Int.negSucc n) = 2 ^ 32 - (n + 1) := by
      rw [toUnsigned]
      omega
    rw [same, Nat.testBit_two_pow_sub_succ (by omega)]
    simp [bit, Int.testBit]

/-! ### What arrives -/

/-- The registration of a new connection with this bitmap is written within the buffer and recorded
as it is, so that the bits of the bitmap decide what the connection is sent. -/
def Transfers (registerBitmap : ℤ) : Prop :=
  ∀ (stale : ℕ → UInt8) (behind : Bytes) (clients : IntList) (nodes : List (ℕ × ℤ × ℕ))
    (s : Sequence) (address pointer : ℕ) (fd : ℤ), clients.Represents nodes s →
    clients.list.heap address = none → clients.ints pointer = none →
    (∀ e ∈ s.elements, e.value ≠ fd) →
    ∃ body clients' nodes',
      clientRegister2Server registerBitmap stale = some (Message.mk .register body).frame ∧
      handleRegisterMessage clients address pointer (body ++ behind) fd = some clients' ∧
      clients'.Represents nodes' (s.apply (.pushBack address pointer fd registerBitmap)) ∧
      ∀ t < 32, ∀ fuel, nodes'.length ≤ fuel →
        ∃ sent, sendBusiness fuel clients' t = some sent ∧ (fd ∈ sent ↔ registerBitmap.testBit t)

/-- The body that is sent, while the text fits in the buffer. -/
theorem clientRegister2Server_eq {registerBitmap : ℤ} (stale : ℕ → UInt8)
    (fits : (decimalText registerBitmap).length < 10) :
    clientRegister2Server registerBitmap stale =
      some (Message.mk .register
        ((fill 10 (decimalText registerBitmap ++ [0]) stale).take 4)).frame := by
  have short : (decimalText registerBitmap ++ [0]).length ≤ 10 := by
    rw [List.length_append, List.length_singleton]
    omega
  simp only [clientRegister2Server, if_pos short, clientWriteMsg2Server, or_true, if_true]

theorem payload_eq_of_frame_eq {type : MessageType} {body body' : Bytes}
    (same : (Message.mk type body).frame = (Message.mk type body').frame) : body = body' :=
  (List.append_inj same (by simp [MsgHeader.toBytes])).2

/-- It comes down to what `atoi` makes of the body and of what is behind it. -/
theorem transfers_iff {registerBitmap : ℤ} (low : -2 ^ 31 ≤ registerBitmap)
    (high : registerBitmap < 2 ^ 31) :
    Transfers registerBitmap ↔ (decimalText registerBitmap).length < 10 ∧ ∀ stale behind,
      atoi? ((fill 10 (decimalText registerBitmap ++ [0]) stale).take 4 ++ behind) =
        some registerBitmap := by
  constructor
  · intro transfers
    have arrives : ∀ stale behind, (decimalText registerBitmap).length < 10 ∧
        atoi? ((fill 10 (decimalText registerBitmap ++ [0]) stale).take 4 ++ behind) =
          some registerBitmap := by
      intro stale behind
      obtain ⟨body, clients, nodes, sent, handled, represents, -⟩ :=
        transfers stale behind .start [] .start 0 0 0 IntList.represents_start rfl rfl (by simp [Sequence.start])
      have fits : (decimalText registerBitmap).length < 10 := by
        by_contra long
        rw [clientRegister2Server, if_neg (by simp; omega)] at sent
        cases sent
      rw [clientRegister2Server_eq stale fits] at sent
      obtain rfl := payload_eq_of_frame_eq (Option.some.inj sent)
      refine ⟨fits, ?_⟩
      simp only [handleRegisterMessage, Option.bind_eq_bind, Option.bind_eq_some_iff] at handled
      obtain ⟨bitmap, read, pushed⟩ := handled
      obtain ⟨clients', pushed', represents'⟩ :=
        @IntList.Represents.pushBack _ _ _ 0 0 0 bitmap IntList.represents_start rfl rfl
      obtain rfl := Option.some.inj (pushed.symm.trans pushed')
      have same := represents.elements_unique represents'
      have recorded : registerBitmap = bitmap := by simpa [Sequence.apply, Sequence.start] using same
      exact read.trans (congrArg some recorded.symm)
    exact ⟨(arrives (fun _ => 0) []).1, fun stale behind => (arrives stale behind).2⟩
  · rintro ⟨fits, read⟩ stale behind clients nodes s address pointer fd represents fresh freshInt new
    obtain ⟨clients', pushed, represents'⟩ :=
      @IntList.Represents.pushBack _ _ _ fd address pointer registerBitmap represents fresh freshInt
    refine ⟨_, clients', _, clientRegister2Server_eq stale fits, ?_, represents', ?_⟩
    · rw [handleRegisterMessage, read stale behind]
      exact pushed
    · intro t bit fuel enough
      refine ⟨_, sendBusiness_spec represents' enough, ?_⟩
      rw [← registeredFor_eq_testBit low high bit, List.mem_map]
      constructor
      · rintro ⟨e, member, isFd⟩
        rw [List.mem_filter, Sequence.apply, List.mem_append, List.mem_singleton] at member
        rcases member with ⟨old | added, wanted⟩
        · exact absurd isFd (new e old)
        · rwa [added] at wanted
      · intro wanted
        exact ⟨⟨address, registerBitmap, fd⟩, by simp [Sequence.apply, wanted], rfl⟩

/-- A text of four characters or more loses its terminator, and what is behind the body counts. -/
theorem not_transfers_of_long {n : ℤ} (long : 4 ≤ (decimalText n).length)
    (read : ∀ behind, atoi? ((decimalText n).take 4 ++ behind) = some n) : False := by
  obtain ⟨-, digits, value⟩ := @numeral_spec 10 (by omega) (by omega) n.natAbs
  obtain ⟨k, atLeast, split⟩ : ∃ k, 3 ≤ k ∧ (decimalText n).take 4 =
      (if decide (n < 0) = true then [45] else []) ++ (numeral 10 n.natAbs).take k := by
    by_cases negative : n < 0
    · exact ⟨3, le_rfl, by simp [decimalText, negative]⟩
    · exact ⟨4, by omega, by simp [decimalText, negative]⟩
  have enough : 3 ≤ (numeral 10 n.natAbs).length := by
    rw [decimalText, List.length_append] at long
    split_ifs at long <;> simp at long <;> omega
  have nonempty : (numeral 10 n.natAbs).take k ≠ [] := by
    intro empty
    have length := congrArg List.length empty
    rw [List.length_take, List.length_nil] at length
    omega
  have inside : ∀ b ∈ (numeral 10 n.natAbs).take k, isDigit 10 b = true := by
    intro b member
    exact digits b (List.mem_of_mem_take member)
  -- with a terminator behind the body, its digits are the whole number
  have whole : digitsValue 10 ((numeral 10 n.natAbs).take k) = n.natAbs := by
    have first := read [0]
    rw [split] at first
    exact digitsValue_of_atoi? inside nonempty rfl first
  -- with a digit behind the body, so are they with the digit
  have more : digitsValue 10 ((numeral 10 n.natAbs).take k ++ [48]) = n.natAbs := by
    have second := read [48, 0]
    rw [split, show ([48, 0] : Bytes) = [48] ++ [0] from rfl, ← List.append_assoc,
      List.append_assoc _ _ [48]] at second
    refine digitsValue_of_atoi? ?_ (by simp) rfl second
    intro b member
    rcases List.mem_append.mp member with front | last
    · exact inside b front
    · rw [List.mem_singleton.mp last]
      rfl
  rw [digitsValue_append, whole, show (digit? 10 48).getD 0 = 0 from rfl] at more
  have zero : n.natAbs = 0 := by omega
  rw [zero] at enough
  exact absurd enough (by decide)

/-- A registration arrives if its text has at most three characters. -/
theorem transfers_iff_short {registerBitmap : ℤ} (low : -2 ^ 31 ≤ registerBitmap)
    (high : registerBitmap < 2 ^ 31) :
    Transfers registerBitmap ↔ -99 ≤ registerBitmap ∧ registerBitmap ≤ 999 := by
  rw [transfers_iff low high]
  have width := @length_decimalText_le_iff registerBitmap 3 (by omega)
  have short : -99 ≤ registerBitmap ∧ registerBitmap ≤ 999 ↔ (decimalText registerBitmap).length ≤ 3 := by
    rw [width]
    omega
  rw [short]
  constructor
  · rintro ⟨fits, read⟩
    by_contra long
    apply @not_transfers_of_long registerBitmap (by omega)
    intro behind
    have first := read (fun _ => 0) behind
    rw [fill, List.append_assoc, List.take_append_of_le_length (by omega)] at first
    exact first
  · intro three
    refine ⟨by omega, ?_⟩
    intro stale behind
    rw [fill, List.append_assoc, List.take_append, List.take_of_length_le (by omega), List.append_assoc]
    obtain ⟨m, isM⟩ : ∃ m, 4 - (decimalText registerBitmap).length = m + 1 :=
      ⟨3 - (decimalText registerBitmap).length, by omega⟩
    rw [isM, List.singleton_append, List.take_succ_cons, List.cons_append]
    exact atoi?_decimalText low high _

theorem transfers_negative : Transfers (-99) :=
  (transfers_iff_short (by decide) (by decide)).mpr (by decide)

/-- Of five digits the server gets the first four. -/
theorem not_transfers_five_digits : ¬Transfers 12345 := by
  intro transfers
  have read := ((transfers_iff (by decide) (by decide)).mp transfers).2 (fun _ => 0) [0]
  have stopped : atoi? ((fill 10 (decimalText 12345 ++ [0]) fun _ => 0).take 4 ++ [0]) =
      some 1234 := by decide +kernel
  rw [stopped] at read
  exact absurd read (by decide)

end AmlCommonlib.SocketIpcV2
