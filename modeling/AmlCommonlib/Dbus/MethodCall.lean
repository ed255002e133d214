import AmlCommonlib.Dbus.Aligned

/-! # Method calls through the C++ templates

A proxy packs the inputs of a function, the handler of the service unpacks them into new objects,
calls the function and packs its result and its outputs, and the proxy unpacks these into its own
objects. The handler goes on after each argument whose `unpack` does not fail, where the proxy waits
for a positive number.
-/

namespace AmlCommonlib.Dbus

/-- `ambus_data_pack<Args...>::unpack` on the arguments of the handler. -/
def Tys.unpack : (ts : Tys) → (selected : ℕ → Bool) → Reader → ts.Val → Unpacked ts.Val
  | .nil, _, m, vals => ⟨0, vals, m⟩
  | .cons first rest, selected, m, vals =>
    let u := if selected 0 then first.unpack m vals.1 else ⟨0, vals.1, m⟩
    let us :=
      if 0 ≤ u.ret then rest.unpack (fun i => selected (i + 1)) u.msg vals.2
      else ⟨u.ret, vals.2, u.msg⟩
    ⟨us.ret, (u.val, us.val), us.msg⟩

/-- Some argument is selected, so that their signature is not empty. -/
def Tys.occupied : Tys → (ℕ → Bool) → Bool
  | .nil, _ => false
  | .cons _ rest, selected => selected 0 || rest.occupied fun i => selected (i + 1)

/-- `RET (*)(Args...)`: the arguments that are references to non-const are outputs. -/
structure MethodType where
  ret : Ty
  args : Tys
  isOutput : ℕ → Bool

namespace MethodType

/-- The arguments that travel with a call. -/
def isInput (f : MethodType) (i : ℕ) : Bool := !f.isOutput i

/-- `ambus_data_pack<RET &, Args...>`: what travels with a reply. -/
def results (f : MethodType) : Tys := .cons f.ret f.args

def inReply (f : MethodType) : ℕ → Bool
  | 0 => true
  | i + 1 => f.isOutput i

variable {S : Type*}

/-- What a function returns, leaves in its arguments and does to the state of its service. -/
abbrev Callback (f : MethodType) (S : Type*) := f.args.Val → S → (f.ret.Val × f.args.Val) × S

/-- What `sd_bus_message_new_method_return` and `sd_bus_send` return. -/
structure ServerIo where
  newReturn : ℤ
  sent : ℤ

/-- `ambus_method_call<RET (*)(Args...)>::call`: its return value, the reply that was sent, and the
state of the service. -/
def handler (f : MethodType) (callback : f.Callback S) (io : ServerIo) (m : Reader) (s : S) :
    ℤ × Option Writer × S :=
  let val :=
    if f.args.occupied f.isInput then f.args.unpack f.isInput m f.args.empty
    else ⟨0, f.args.empty, m⟩
  if 0 ≤ val.ret then
    let (results, s) := callback val.val s
    if 0 ≤ io.newReturn then
      let (r, reply) := f.ret.pack results.1 .new
      let (r, reply) := if 0 ≤ r then f.args.packall f.isOutput results.2 reply else (r, reply)
      if 0 ≤ r then (io.sent, if 0 ≤ io.sent then some reply else none, s) else (r, none, s)
    else (io.newReturn, none, s)
  else (val.ret, none, s)

/-- What `sd_bus_message_new_method_call` and `sd_bus_call_async` return, and the error reply that
the bus makes up where the handler sends none. -/
structure CallIo where
  newCall : ℤ
  called : ℤ
  server : ServerIo
  error : Reader

/-- `ambus_method_proxy<RET (*)(Args...)>::call` with a service behind it: the returned object, the
arguments of the caller, and the state of the service. -/
def proxyCall (f : MethodType) (callback : f.Callback S) (io : CallIo) (args : f.args.Val) (s : S) :
    (f.ret.Val × f.args.Val) × S :=
  if 0 ≤ io.newCall then
    let (r, msg) := f.args.packall f.isInput args .new
    if 0 ≤ r ∧ 0 ≤ io.called then
      let (_, reply, s) := f.handler callback io.server msg.sealed s
      let m := (reply.map Writer.sealed).getD io.error
      ((f.results.unpackall f.inReply m (f.ret.empty, args)).val, s)
    else ((f.ret.empty, args), s)
  else ((f.ret.empty, args), s)

end MethodType

/-! ### What the handler reads -/

/-- The types a handler can take as an input at any position. -/
def Ty.Input : Ty → Prop
  | .seq elem => elem.Flat
  | t => t.Aligned

def Tys.Input : Tys → (ℕ → Bool) → Prop
  | .nil, _ => True
  | .cons first rest, selected =>
    (selected 0 → first.Input) ∧ rest.Input fun i => selected (i + 1)

theorem Ty.Input.restorable {t : Ty} (input : t.Input) : t.Restorable := by
  cases t with
  | seq elem => exact input
  | _ => exact Ty.Aligned.restorable _ input

theorem Drained.exit_root {inArray : Bool} {f : Frame} {m : Reader}
    (drained : Drained [⟨inArray, []⟩, f] m) : (exitContainer m).2 = [f] := by
  cases drained with
  | refl => rfl
  | leave further =>
    cases further
    rfl

/-- The message itself is never left, so a container too many does not matter there. -/
theorem Ty.Input.takes {t : Ty} (input : t.Input) {v : t.Val} (plain : t.NulFree v)
    (rest : List Node) :
    0 ≤ (t.unpack [⟨false, t.node v :: rest⟩] t.empty).ret ∧
    (t.unpack [⟨false, t.node v :: rest⟩] t.empty).val = v ∧
    (t.unpack [⟨false, t.node v :: rest⟩] t.empty).msg = [⟨false, rest⟩] := by
  cases t with
  | seq elem =>
    have valid := Ty.Restorable.valid (.seq elem) input
    rw [Ty.signature] at valid
    have enough : v.length < Reader.size [⟨true, v.map elem.node⟩, ⟨false, rest⟩] + 1 := by
      have length := length_le_countAll (v.map elem.node)
      simp only [List.length_map] at length
      simp only [Reader.size_cons]
      omega
    obtain ⟨same, drained⟩ := unpackEach_spec input plain enough [⟨false, rest⟩] elem.empty []
    simp only [Ty.unpack, Ty.node, Ty.empty, enterContainer_next valid, Sig.isArray]
    refine ⟨le_rfl, same, ?_⟩
    exact drained.exit_root
  | _ => exact Ty.Aligned.takes _ input v plain false rest []

theorem Tys.packall_input : (ts : Tys) → {selected : ℕ → Bool} → ts.Input selected →
    (v : ts.Val) → (w : Writer) → ts.packall selected v w = (0, w.appendAll (ts.nodes selected v))
  | .nil, _, _, _, _ => by simp [Tys.packall, Tys.nodes]
  | .cons first rest, selected, input, v, w => by
    cases chosen : selected 0 with
    | true =>
      simp only [Tys.packall, Tys.nodes, chosen, if_true, first.pack_eq (input.1 chosen).restorable,
        le_refl, rest.packall_input input.2, Writer.appendAll_cons]
    | false =>
      simp only [Tys.packall, Tys.nodes, chosen, Bool.false_eq_true, if_false, le_refl, if_true,
        rest.packall_input input.2]

/-- The handler gets the inputs of the caller, and new objects for its outputs. -/
theorem Tys.unpack_input : (ts : Tys) → {selected : ℕ → Bool} → ts.Input selected →
    {v : ts.Val} → ts.NulFree selected v →
    0 ≤ (ts.unpack selected [⟨false, ts.nodes selected v⟩] ts.empty).ret ∧
    ts.Agree selected (ts.unpack selected [⟨false, ts.nodes selected v⟩] ts.empty).val v ∧
    ts.Agree (fun i => !selected i) (ts.unpack selected [⟨false, ts.nodes selected v⟩] ts.empty).val
      ts.empty
  | .nil, _, _, _, _ => ⟨le_rfl, trivial, trivial⟩
  | .cons first rest, selected, input, v, plain => by
    obtain ⟨ret, agree, fresh⟩ := rest.unpack_input input.2 plain.2
    cases chosen : selected 0 with
    | true =>
      obtain ⟨ret', same, msg⟩ := (input.1 chosen).takes (plain.1 chosen)
        (rest.nodes (fun i => selected (i + 1)) v.2)
      simp only [Tys.unpack, Tys.nodes, Tys.empty, chosen, if_true, ret', same, msg]
      exact ⟨ret, ⟨fun _ => rfl, agree⟩, fun unchosen => absurd unchosen (by simp [chosen]), fresh⟩
    | false =>
      simp only [Tys.unpack, Tys.nodes, Tys.empty, chosen, Bool.false_eq_true, if_false, le_refl,
        if_true]
      exact ⟨ret, ⟨fun chosen' => absurd chosen' (by simp [chosen]), agree⟩, fun _ => rfl, fresh⟩

/-- A map whose values are sequences of structs leaves its array before it has looked for another
entry, and fails. -/
example :
    let ts : Tys := .cons (.map .string (.seq (.struct (.simple .int32) .nil))) .nil
    let v : ts.Val := (⟨[([97], [(⟨7, by decide⟩, ())])], by decide⟩, ())
    (ts.unpack (fun _ => true) [⟨false, ts.nodes (fun _ => true) v⟩] ts.empty).ret = enxio := by
  decide +kernel

/-- Without a selected argument there is nothing to read. -/
theorem Tys.unpack_vacant : (ts : Tys) → {selected : ℕ → Bool} → ts.occupied selected = false →
    (m : Reader) → (vals : ts.Val) → ts.unpack selected m vals = ⟨0, vals, m⟩
  | .nil, _, _, _, _ => rfl
  | .cons first rest, selected, vacant, m, vals => by
    simp only [occupied, Bool.or_eq_false_iff] at vacant
    simp [Tys.unpack, vacant.1, rest.unpack_vacant vacant.2]

/-- What is read does not depend on the objects of the other arguments, which stay as they are. -/
theorem Tys.unpackall_congr : (ts : Tys) → {selected : ℕ → Bool} → {vals vals' : ts.Val} →
    ts.Agree selected vals vals' → (m : Reader) →
    ts.Agree selected (ts.unpackall selected m vals).val (ts.unpackall selected m vals').val ∧
      ts.Agree (fun i => !selected i) (ts.unpackall selected m vals).val vals
  | .nil, _, _, _, _, _ => ⟨trivial, trivial⟩
  | .cons first rest, selected, vals, vals', agree, m => by
    cases chosen : selected 0 with
    | true =>
      rw [Tys.unpackall, Tys.unpackall]
      simp only [chosen, if_true, agree.1 chosen]
      split_ifs with positive
      · obtain ⟨same, kept⟩ := rest.unpackall_congr agree.2 (first.unpack m vals'.1).msg
        exact ⟨⟨fun _ => rfl, same⟩, fun unchosen => absurd unchosen (by simp [chosen]), kept⟩
      · exact ⟨⟨fun _ => rfl, agree.2⟩, fun unchosen => absurd unchosen (by simp [chosen]), .refl _⟩
    | false =>
      simp only [Tys.unpackall, chosen, Bool.false_eq_true, if_false, zero_lt_one, if_true]
      obtain ⟨same, kept⟩ := rest.unpackall_congr agree.2 m
      exact ⟨⟨fun chosen' => absurd chosen' (by simp [chosen]), same⟩, fun _ => rfl, kept⟩

theorem Tys.eq_of_agree : {ts : Tys} → {selected : ℕ → Bool} → {a b : ts.Val} →
    ts.Agree selected a b → ts.Agree (fun i => !selected i) a b → a = b
  | .nil, _, _, _, _, _ => rfl
  | .cons _ _, selected, a, b, left, right => by
    have tail := eq_of_agree left.2 right.2
    cases chosen : selected 0 with
    | true => exact Prod.ext (left.1 chosen) tail
    | false => exact Prod.ext (right.1 (by simp [chosen])) tail

namespace MethodType

variable {S : Type*} {f : MethodType}

/-- Nothing fails between the caller and the service. -/
structure CallIo.Works (io : CallIo) : Prop where
  newCall : 0 ≤ io.newCall
  called : 0 ≤ io.called
  newReturn : 0 ≤ io.server.newReturn
  sent : 0 ≤ io.server.sent

/-- The types of a function that can be called: its inputs in any order, and of its result and
outputs only the last that is not flat. -/
structure Callable (f : MethodType) : Prop where
  inputs : f.args.Input f.isInput
  results : f.results.Restorable f.inReply

/-- The handler reads the arguments of the caller if their outputs are new. -/
theorem handler_reads (callable : f.Callable) {args : f.args.Val}
    (plain : f.args.NulFree f.isInput args) (fresh : f.args.Agree f.isOutput args f.args.empty) :
    let m : Reader := [⟨false, f.args.nodes f.isInput args⟩]
    let val := if f.args.occupied f.isInput then f.args.unpack f.isInput m f.args.empty
      else ⟨0, f.args.empty, m⟩
    0 ≤ val.ret ∧ val.val = args := by
  have outputs : (fun i => !f.isInput i) = f.isOutput := by simp [isInput]
  obtain ⟨ret, agree, new⟩ := Tys.unpack_input f.args callable.inputs plain
  rw [outputs] at new
  have same : (f.args.unpack f.isInput [⟨false, f.args.nodes f.isInput args⟩] f.args.empty).val =
      args := by
    apply Tys.eq_of_agree agree
    rw [outputs]
    exact new.trans fresh.symm
  split_ifs with some
  · exact ⟨ret, same⟩
  · rw [Tys.unpack_vacant f.args (by simpa using some)] at same
    exact ⟨le_rfl, same⟩

theorem handler_eq (callable : f.Callable) {callback : f.Callback S} {io : ServerIo}
    {args : f.args.Val} (plain : f.args.NulFree f.isInput args)
    (fresh : f.args.Agree f.isOutput args f.args.empty) (s : S) :
    f.handler callback io [⟨false, f.args.nodes f.isInput args⟩] s =
      if 0 ≤ io.newReturn then
        (io.sent, if 0 ≤ io.sent then some ⟨f.results.nodes f.inReply (callback args s).1, []⟩ else none,
          (callback args s).2)
      else (io.newReturn, none, (callback args s).2) := by
  obtain ⟨ret, same⟩ := handler_reads callable plain fresh
  have packed := (Tys.cons f.ret f.args).packall_eq
    (show (Tys.cons f.ret f.args).Restorable f.inReply from callable.results) (callback args s).1 .new
  rw [Writer.appendAll_new, Tys.packall] at packed
  simp only [inReply, if_true] at packed
  simp only [handler, ret, if_true, same]
  rw [packed]
  simp [results]

/-- A call through the bus is a call of the function. -/
theorem proxyCall_eq (callable : f.Callable) {callback : f.Callback S} {io : CallIo}
    (works : io.Works) {args : f.args.Val} {s : S} (plain : f.args.NulFree f.isInput args)
    (fresh : f.args.Agree f.isOutput args f.args.empty)
    (const : f.args.Agree f.isInput (callback args s).1.2 args)
    (plain' : f.results.NulFree f.inReply (callback args s).1) :
    f.proxyCall callback io args s = callback args s := by
  have packed := f.args.packall_input callable.inputs args .new
  rw [Writer.appendAll_new] at packed
  have handled := @handler_eq S f callable callback io.server args plain fresh s
  have outputs : (fun i => !f.isInput i) = f.isOutput := by simp [isInput]
  have inputs : f.args.Agree (fun i => !f.isOutput i) (callback args s).1.2 args := const
  -- the objects of the proxy hold what new objects hold wherever the reply is read into them
  have start : f.results.Agree f.inReply (f.ret.empty, args) f.results.empty :=
    ⟨fun _ => rfl, fresh⟩
  obtain ⟨read, kept⟩ := Tys.unpackall_congr f.results start
    [⟨false, f.results.nodes f.inReply (callback args s).1⟩]
  have restored := (Tys.Restorable.restores f.results callable.results _ plain' false [] (.nil _)).1
  have result : (f.results.unpackall f.inReply [⟨false, f.results.nodes f.inReply (callback args s).1⟩]
      (f.ret.empty, args)).val = (callback args s).1 := by
    apply Tys.eq_of_agree (read.trans restored)
    refine kept.trans ⟨?_, inputs.symm⟩
    intro impossible
    cases impossible
  have message : Writer.sealed ⟨f.args.nodes f.isInput args, []⟩ =
      [⟨false, f.args.nodes f.isInput args⟩] := rfl
  simp only [proxyCall, works.newCall, works.called, works.newReturn, works.sent, packed, message,
    handled, if_true, le_refl, and_self, Option.map_some, Option.getD_some]
  exact Prod.ext result rfl

/-- Calls whose messages are the same, into the same objects, have the same outcome. -/
theorem proxyCall_congr (callable : f.Callable) (callback : f.Callback S) (io : CallIo)
    {args args' : f.args.Val} (s : S) (same : f.args.nodes f.isInput args = f.args.nodes f.isInput args')
    (agree : f.args.Agree f.isOutput args args') :
    (f.proxyCall callback io args s).2 = (f.proxyCall callback io args' s).2 ∧
      f.results.Agree f.inReply (f.proxyCall callback io args s).1
        (f.proxyCall callback io args' s).1 := by
  have packed := f.args.packall_input callable.inputs args .new
  have packed' := f.args.packall_input callable.inputs args' .new
  have start : f.results.Agree f.inReply (f.ret.empty, args) (f.ret.empty, args') :=
    ⟨fun _ => rfl, agree⟩
  rw [same] at packed
  simp only [proxyCall, packed, packed']
  split_ifs
  · exact ⟨rfl, (Tys.unpackall_congr f.results start _).1⟩
  · exact ⟨rfl, start⟩
  · exact ⟨rfl, start⟩

end MethodType

end AmlCommonlib.Dbus
