import AmlCommonlib.Dbus.Undecodable

/-! # Messages of the C type descriptions

What comes back where nothing follows: an array depends on what its elements do at its end, a struct on
its last member.
-/

namespace AmlCommonlib.Dbus

/-! ### The end of an array -/

theorem Tys.ambusUnpackAll_end_neg_cons {first : Ty} {rest : Tys}
    (head : ¬first.Quiet → first.status ≠ 0 → ∀ {below : Reader}, Bare below →
      (first.dataUnpack (⟨true, []⟩ :: below)).ret < 0)
    (later : ¬rest.Quiet → ∀ r, rest.status r ≠ 0 → ∀ {below : Reader}, Bare below →
      (rest.ambusUnpackAll (fun _ => true) 0 (⟨true, []⟩ :: below)).ret < 0)
    (loud : ¬(Tys.cons first rest).Quiet) (reports : rest.status first.status ≠ 0) {below : Reader}
    (bare : Bare below) :
    ((Tys.cons first rest).ambusUnpackAll (fun _ => true) 0 (⟨true, []⟩ :: below)).ret < 0 := by
  simp only [ambusUnpackAll, le_refl, if_true]
  by_cases pops : first.pops = 0
  · obtain ⟨last, stay⟩ := Ty.dataUnpack_end_of_pops pops below
    rw [stay]
    exact later (fun quiet => loud ⟨.inl pops, quiet⟩) _ reports bare
  · cases rest with
    | nil =>
      refine ret_neg (head (fun quiet => loud ⟨.inr ⟨rfl, quiet⟩, trivial⟩) ?_ bare) _
      simpa only [status] using reports
    | cons g rest =>
      -- The container of the array is left, and what follows is not at the end of an array.
      have probed := Probed.course.dataUnpack first _ (.inr ⟨below, bare, rfl⟩)
      obtain ⟨occupied, plain⟩ := probed.bare (.inl (Nat.pos_of_ne_zero pops))
      generalize first.dataUnpack (⟨true, []⟩ :: below) = u at occupied plain ⊢
      obtain ⟨frame, outer, same⟩ := List.exists_cons_of_ne_nil occupied
      rw [same] at plain ⊢
      rw [plain frame (List.mem_cons_self ..)]
      simp only [ambusUnpackAll, if_true]
      split_ifs with nonneg
      · exact ret_neg (g.dataUnpack_neg outer) _
      · exact not_le.mp nonneg

mutual

/-- Descriptions that are not quiet fail where an array ends and nothing is left around it. -/
theorem Ty.dataUnpack_end_neg : (t : Ty) → ¬t.Quiet → t.status ≠ 0 → {below : Reader} → Bare below →
    (t.dataUnpack (⟨true, []⟩ :: below)).ret < 0
  | .simple _, loud, _, _, _ | .string, loud, _, _, _ | .map _ _, loud, _, _, _ => absurd trivial loud
  | .seq elem, _, reports, _, _ => absurd (by rw [Ty.status]) reports
  | .struct first rest, loud, reports, below, bare => by
    rw [Ty.dataUnpack_struct, enterContainer_end]
    exact Tys.ambusUnpackAll_end_neg_cons (Ty.dataUnpack_end_neg first)
      (Tys.ambusUnpackAll_end_neg rest) loud reports bare

theorem Tys.ambusUnpackAll_end_neg : (ts : Tys) → ¬ts.Quiet → (r : ℤ) → ts.status r ≠ 0 →
    {below : Reader} → Bare below →
    (ts.ambusUnpackAll (fun _ => true) 0 (⟨true, []⟩ :: below)).ret < 0
  | .nil, loud, _, _, _, _ => absurd trivial loud
  | .cons first rest, loud, _, reports, _, bare =>
    Tys.ambusUnpackAll_end_neg_cons (Ty.dataUnpack_end_neg first)
      (Tys.ambusUnpackAll_end_neg rest) loud reports bare

end

/-- Fields after one that returned `r`, whatever follows them. -/
def Tys.Silent (ts : Tys) (vs : ts.CVal) : Prop :=
  ∀ r inArray more below, (ts.ambusUnpackAll (fun _ => true) r
    (⟨inArray, ts.dataNodes (fun _ => true) vs ++ more⟩ :: below)).ret ≤ 0

/-- No success is reported, whatever follows. -/
def Ty.Silent (t : Ty) (v : t.CVal) : Prop :=
  ∀ inArray more below, (t.dataUnpack (⟨inArray, t.dataNode v :: more⟩ :: below)).ret ≤ 0

theorem Tys.Silent.cons {first : Ty} {rest : Tys} {v : first.CVal} {vs : rest.CVal}
    (fields : ∀ inArray more below, (rest.ambusUnpackAll (fun _ => true)
      (first.dataUnpack (⟨inArray, first.dataNode v ::
        (rest.dataNodes (fun _ => true) vs ++ more)⟩ :: below)).ret
      (first.dataUnpack (⟨inArray, first.dataNode v ::
        (rest.dataNodes (fun _ => true) vs ++ more)⟩ :: below)).msg).ret ≤ 0) :
    (Tys.cons first rest).Silent (v, vs) := by
  intro r inArray more below
  rw [dataNodes_cons, List.cons_append]
  simp only [ambusUnpackAll, if_true]
  split_ifs with nonneg
  · exact fields inArray more below
  · exact (not_le.mp nonneg).le

/-- What a map leaves open is the end of an array for the members behind it. -/
theorem Tys.exists_silent_cons {first : Ty} {rest : Tys} (valid : first.signature.valid)
    (head : first.Quiet → ¬first.Chain → ∃ v, first.Silent v)
    (later : rest.Quiet → ¬rest.Chain → ∃ vs, rest.Silent vs)
    (quiet : (Tys.cons first rest).Quiet) (bad : ¬(Tys.cons first rest).Chain) :
    ∃ vs, (Tys.cons first rest).Silent vs := by
  obtain ⟨here, there⟩ := quiet
  by_cases basic : first.IsBasic
  · obtain ⟨vs, silent⟩ := later there fun chain => bad ⟨.inl basic, chain⟩
    refine ⟨(first.filled, vs), .cons fun inArray more below => ?_⟩
    rw [basic.dataUnpack]
    exact silent 1 inArray more below
  · obtain pops | ⟨rfl, quiet⟩ := here
    · cases first with
      | map key value =>
        refine ⟨([], rest.filled), .cons fun inArray more below => ?_⟩
        obtain ⟨last, k, met⟩ := Tys.Quiet.overleaves rest there
          (⟨inArray, rest.dataNodes (fun _ => true) rest.filled ++ more⟩ :: below)
        rw [Ty.dataUnpack_map_nil valid, met]
      | simple s => exact absurd trivial basic
      | string => exact absurd trivial basic
      | seq elem => exact absurd pops (by simp [Ty.pops])
      | struct first rest => exact absurd pops (by simp [Ty.pops])
    · obtain ⟨v, silent⟩ := head quiet fun chain => bad ⟨.inr ⟨rfl, chain⟩, trivial⟩
      refine ⟨(v, ()), .cons fun inArray more below => ?_⟩
      rw [ambusUnpackAll]
      exact silent inArray _ below

mutual

/-- Quiet descriptions that are no chains have an object of which an array of them takes no note. -/
theorem Ty.exists_silent : (t : Ty) → t.signature.valid → t.Quiet → ¬t.Chain →
    ∃ v, t.Silent v
  | .simple _, _, _, bad | .string, _, _, bad => absurd trivial bad
  | .seq _, _, quiet, _ => quiet.elim
  | .map key value, _, _, _ => ⟨[], fun _ _ _ => by
      simpa only [Ty.status] using (Ty.map key value).ret_le _⟩
  | .struct first rest, valid, quiet, bad => by
    obtain ⟨head, tail⟩ : first.signature.valid ∧ rest.signature.valid := by
      simpa [Ty.signature, Sig.valid, Sigs.valid] using valid
    obtain ⟨vs, silent⟩ := Tys.exists_silent_cons head (Ty.exists_silent first head)
      (Tys.exists_silent rest tail) quiet bad
    refine ⟨vs, fun inArray more below => ?_⟩
    have fields := silent 1 false [] (⟨inArray, more⟩ :: below)
    rw [List.append_nil] at fields
    rw [Ty.dataUnpack_struct, Ty.dataNode_struct, enterContainer_next valid]
    exact fields

theorem Tys.exists_silent : (ts : Tys) → ts.signature.valid → ts.Quiet → ¬ts.Chain →
    ∃ vs, ts.Silent vs
  | .nil, _, _, bad => absurd trivial bad
  | .cons first rest, valid, quiet, bad => by
    obtain ⟨head, tail⟩ : first.signature.valid ∧ rest.signature.valid := by
      simpa [Tys.signature, Sigs.valid] using valid
    exact Tys.exists_silent_cons head (Ty.exists_silent first head) (Tys.exists_silent rest tail)
      quiet bad

end

/-! ### Objects that nothing follows -/

/-- The containers around a last object, and the message itself. -/
def around (n : ℕ) : Reader := List.replicate n ⟨false, []⟩

theorem around_bare (n : ℕ) : Bare (around (n + 1)) :=
  ⟨List.cons_ne_nil _ _, fun _ member => List.eq_of_mem_replicate member⟩

/-- The last object of a message in `n` containers: it does not come back, or the end of the message is
not reached. -/
def Ty.LosesLast (t : Ty) (v : t.CVal) : Prop :=
  ∀ n, (t.dataUnpack (⟨false, [t.dataNode v]⟩ :: around n)).val = some v →
    0 ≤ (t.dataUnpack (⟨false, [t.dataNode v]⟩ :: around n)).ret →
    leaveContainer^[n] (t.dataUnpack (⟨false, [t.dataNode v]⟩ :: around n)).msg ≠ [⟨false, []⟩]

/-- The same for the last fields of a struct. -/
def Tys.LosesLast (ts : Tys) (vs : ts.CVal) : Prop :=
  ∀ r n, ts.complete (ts.ambusUnpackAll (fun _ => true) r
      (⟨false, ts.dataNodes (fun _ => true) vs⟩ :: around (n + 1))).val = some vs →
    0 ≤ (ts.ambusUnpackAll (fun _ => true) r
      (⟨false, ts.dataNodes (fun _ => true) vs⟩ :: around (n + 1))).ret →
    leaveContainer^[n + 1] (ts.ambusUnpackAll (fun _ => true) r
      (⟨false, ts.dataNodes (fun _ => true) vs⟩ :: around (n + 1))).msg ≠ [⟨false, []⟩]

theorem leaveContainer_iterate_length {n : ℕ} {m : Reader} (deep : n < m.length) :
    (leaveContainer^[n] m).length + n = m.length := by
  induction n generalizing m with
  | zero => rfl
  | succ n ih =>
    match m with
    | [] => exact absurd deep (Nat.not_lt_zero _)
    | [_] => exact absurd deep (by simp)
    | frame :: outer :: below =>
      have inner := @ih (outer :: below) (by simpa using deep)
      simp only [Function.iterate_succ_apply, leaveContainer, List.length_cons] at inner ⊢
      omega

theorem Ty.LosesLast.map {key value : Ty} (valid : (Ty.map key value).signature.valid) :
    (Ty.map key value).LosesLast [] := by
  intro n _ _ reached
  rw [dataUnpack_map_nil valid] at reached
  dsimp only at reached
  have length := @leaveContainer_iterate_length n (⟨true, []⟩ :: ⟨false, []⟩ :: around n) (by
    simp only [around, List.length_cons, List.length_replicate]
    omega)
  rw [reached] at length
  simp only [around, List.length_cons, List.length_replicate, List.length_nil] at length
  omega

/-- Elements that report nothing are lost. -/
theorem Ty.LosesLast.seq_singleton {elem : Ty} (valid : elem.signature.valid) {x : elem.CVal}
    (silent : elem.Silent x) : (Ty.seq elem).LosesLast [x] := by
  intro n restored _
  obtain ⟨fuel, read⟩ := dataUnpack_seq_of_next valid [x] false [] (around n)
  rw [read] at restored
  exact absurd restored (dataUnpackEach_ne (silent true [] _) x)

/-- Elements that fail at the end of the array make it fail. -/
theorem Ty.LosesLast.seq_nil {elem : Ty} (valid : elem.signature.valid)
    (fails : ∀ n, (elem.dataUnpack (⟨true, []⟩ :: around (n + 1))).ret < 0) :
    (Ty.seq elem).LosesLast [] := by
  intro n _ nonneg
  obtain ⟨fuel, read⟩ := dataUnpack_seq_of_next valid [] false [] (around n)
  have failed : (elem.dataUnpack (⟨true, []⟩ :: ⟨false, []⟩ :: around n)).ret < 0 := fails n
  rw [read] at nonneg
  simp only [dataUnpackEach, List.map_nil, not_lt.mpr failed.le, if_false] at nonneg
  exact absurd nonneg (not_le.mpr failed)

theorem Ty.exists_losesLast_seq {elem : Ty} (valid : elem.signature.valid) (bad : ¬elem.Chain) :
    ∃ v, (Ty.seq elem).LosesLast v := by
  by_cases reports : elem.status = 0
  · exact ⟨_, @LosesLast.seq_singleton _ valid elem.filled fun _ _ _ => reports ▸ elem.ret_le _⟩
  · by_cases quiet : elem.Quiet
    · obtain ⟨x, silent⟩ := elem.exists_silent valid quiet bad
      exact ⟨_, .seq_singleton valid silent⟩
    · exact ⟨_, .seq_nil valid fun n => elem.dataUnpack_end_neg quiet reports (around_bare n)⟩

/-- An inexact field that others follow is not made up for. -/
theorem Tys.LosesLast.of_followed {first g : Ty} {rest : Tys} {v : first.CVal}
    (strays : first.Strays v) :
    (Tys.cons first (.cons g rest)).LosesLast (v, (g.filled, rest.filled)) := by
  intro r n restored nonneg
  have solid : Solid (⟨false, g.dataNode g.filled ::
      rest.dataNodes (fun _ => true) rest.filled⟩ :: around (n + 1)) :=
    (around_bare n).solid.cons (allFull_cons.mpr ⟨g.filled_full, rest.filled_full⟩)
  have occupied := g.filled_leaves_pos
  simp only [dataNodes_cons] at restored nonneg
  obtain ⟨head, tail, read⟩ := ambusUnpackAll_of_complete restored
  rw [read] at nonneg
  have astray := strays false _ _ solid (by
    simp only [Reader.leaves_cons, leavesAll_cons, g.leaves_dataNode]
    omega) head (nonneg_of_ret nonneg)
  have less := leaves_lt_of_astray astray tail
  rw [(around_bare n).leaves_eq_zero] at less
  exact absurd less (Nat.not_lt_zero _)

/-- The last field passes on what happened to it. -/
theorem Tys.LosesLast.of_last {first : Ty} {v : first.CVal} (loses : first.LosesLast v) :
    (Tys.cons first .nil).LosesLast (v, ()) := by
  intro r n restored nonneg
  simp only [dataNodes_cons] at restored nonneg ⊢
  obtain ⟨head, -, read⟩ := ambusUnpackAll_of_complete restored
  rw [read] at nonneg ⊢
  exact loses (n + 1) head (nonneg_of_ret nonneg)

theorem Tys.LosesLast.cons {first : Ty} {rest : Tys} {vs : rest.CVal} (good : first.Exact)
    (loses : rest.LosesLast vs) : (Tys.cons first rest).LosesLast (first.filled, vs) := by
  intro r n restored nonneg
  simp only [dataNodes_cons] at restored nonneg ⊢
  obtain ⟨-, tail, read⟩ := ambusUnpackAll_of_complete restored
  rw [read] at nonneg ⊢
  rw [Ty.Exact.dataUnpack first good] at tail nonneg ⊢
  exact loses _ n tail nonneg

theorem Tys.exists_losesLast_cons {first : Ty} {rest : Tys} (valid : first.signature.valid)
    (head : ¬first.Decodable → ∃ v, first.LosesLast v)
    (later : ¬rest.Decodable → ∃ vs, rest.LosesLast vs) (bad : ¬(Tys.cons first rest).Decodable) :
    ∃ vs, (Tys.cons first rest).LosesLast vs := by
  by_cases good : first.Exact
  · obtain ⟨vs, loses⟩ := later fun tail => bad ⟨.inl good, tail⟩
    exact ⟨_, .cons good loses⟩
  · cases rest with
    | nil =>
      obtain ⟨v, loses⟩ := head fun decodable => bad ⟨.inr ⟨rfl, decodable⟩, trivial⟩
      exact ⟨_, .of_last loses⟩
    | cons g rest =>
      obtain ⟨v, strays⟩ := first.exists_strays valid good
      exact ⟨_, .of_followed strays⟩

theorem Ty.LosesLast.struct {first : Ty} {rest : Tys}
    (valid : (Ty.struct first rest).signature.valid) {vs : (Ty.struct first rest).CVal}
    (loses : (Tys.cons first rest).LosesLast vs) : (Ty.struct first rest).LosesLast vs := by
  intro n restored nonneg
  rw [dataUnpack_struct, dataNode_struct, enterContainer_next valid] at restored nonneg ⊢
  exact loses 1 n restored nonneg

mutual

/-- Every description that is not decodable has an object that does not come back. -/
theorem Ty.exists_losesLast : (t : Ty) → t.signature.valid → ¬t.Decodable → ∃ v, t.LosesLast v
  | .simple _, _, bad | .string, _, bad => absurd trivial bad
  | .seq elem, valid, bad =>
    Ty.exists_losesLast_seq (by simpa [Ty.signature, Sig.valid] using valid) bad
  | .map key value, valid, _ => ⟨_, Ty.LosesLast.map valid⟩
  | .struct first rest, valid, bad => by
    obtain ⟨head, tail⟩ : first.signature.valid ∧ rest.signature.valid := by
      simpa [Ty.signature, Sig.valid, Sigs.valid] using valid
    obtain ⟨vs, loses⟩ := Tys.exists_losesLast_cons head (Ty.exists_losesLast first head)
      (Tys.exists_losesLast rest tail) bad
    exact ⟨vs, .struct valid loses⟩

theorem Tys.exists_losesLast : (ts : Tys) → ts.signature.valid → ¬ts.Decodable →
    ∃ vs, ts.LosesLast vs
  | .nil, _, bad => absurd trivial bad
  | .cons first rest, valid, bad => by
    obtain ⟨head, tail⟩ : first.signature.valid ∧ rest.signature.valid := by
      simpa [Tys.signature, Sigs.valid] using valid
    exact Tys.exists_losesLast_cons head (Ty.exists_losesLast first head)
      (Tys.exists_losesLast rest tail) bad

end

/-! ### Messages -/

/-- A message with one value in front of others: the value comes back, and the others are next. -/
def Ty.DataRoundTrips (t : Ty) (v : t.CVal) (following : List Node) : Prop :=
  let packed := t.dataPack v .new
  let u := t.dataUnpack (packed.2.appendAll following).sealed
  0 ≤ packed.1 ∧ 0 ≤ u.ret ∧ u.val = some v ∧ u.msg = [⟨false, following⟩]

/-- A message with the selected arguments in front of others. -/
def Tys.DataRoundTrips (ts : Tys) (selected : ℕ → Bool) (v : ts.CVal) (following : List Node) : Prop :=
  let packed := ts.ambusPackAll selected 0 v .new
  let us := ts.ambusUnpackAll selected 0 (packed.2.appendAll following).sealed
  0 ≤ packed.1 ∧ 0 ≤ us.ret ∧ ts.Restored selected v us.val ∧ us.msg = [⟨false, following⟩]

theorem Writer.sealed_new (nodes : List Node) : (Writer.new.appendAll nodes).sealed = [⟨false, nodes⟩] := by
  rw [appendAll_new]
  rfl

theorem Writer.appendAll_append (nodes nodes' : List Node) (w : Writer) :
    w.appendAll (nodes ++ nodes') = (w.appendAll nodes).appendAll nodes' :=
  List.foldl_append

theorem Ty.dataRoundTrips_of_decodable {t : Ty} (good : t.Decodable) (v : t.CVal)
    (following : List Node) : t.DataRoundTrips v following := by
  have written := t.dataPack_eq (Ty.Decodable.valid t good) v .new
  have message : ((Writer.new.append (t.dataNode v)).appendAll following).sealed =
      [⟨false, t.dataNode v :: following⟩] := Writer.sealed_new (t.dataNode v :: following)
  simp only [DataRoundTrips, written, message, good.dataUnpack_root]
  exact ⟨le_refl 0, t.status_nonneg, trivial, trivial⟩

theorem Tys.All.mono {p q : Ty → Prop} (sub : ∀ t, p t → q t) : (ts : Tys) → {selected : ℕ → Bool} →
    ts.All p selected → ts.All q selected
  | .nil, _, _ => trivial
  | .cons first rest, _, ⟨head, tail⟩ =>
    ⟨fun chosen => sub first (head chosen), Tys.All.mono sub rest tail⟩

theorem Tys.dataRoundTrips_of_decodable {ts : Tys} {selected : ℕ → Bool}
    (good : ts.All Ty.Decodable selected) (v : ts.CVal) (following : List Node) :
    ts.DataRoundTrips selected v following := by
  have written := ts.ambusPackAll_eq (Tys.All.mono Ty.Decodable.valid ts good) v .new
  have message : ((Writer.new.appendAll (ts.dataNodes selected v)).appendAll following).sealed =
      [⟨false, ts.dataNodes selected v ++ following⟩] := by
    rw [← Writer.appendAll_append, Writer.sealed_new]
  obtain ⟨r, args, nonneg, restored, done⟩ := ts.ambusUnpackAll_root good v following (le_refl 0)
  simp only [DataRoundTrips, written, message, done]
  exact ⟨le_refl 0, nonneg, restored, trivial⟩

/-- A description that is not decodable has an object that does not come back in any message. -/
theorem Ty.exists_not_dataRoundTrips {t : Ty} (bad : ¬t.Decodable) :
    ∃ v, ¬t.DataRoundTrips v [] := by
  by_cases valid : t.signature.valid
  · obtain ⟨v, loses⟩ := t.exists_losesLast valid bad
    refine ⟨v, fun restored => ?_⟩
    have message : ((Writer.new.append (t.dataNode v)).appendAll []).sealed =
        [⟨false, [t.dataNode v]⟩] := rfl
    simp only [DataRoundTrips, t.dataPack_eq valid, message] at restored
    obtain ⟨-, nonneg, back, position⟩ := restored
    exact loses 0 back nonneg position
  · refine ⟨t.filled, fun restored => ?_⟩
    exact absurd restored.1 (not_le.mpr (dataPack_neg valid t.filled .new))

/-- An argument alone is a message with one value. -/
theorem Tys.DataRoundTrips.single {t : Ty} {v : t.CVal} {following : List Node}
    (restored : (Tys.cons t .nil).DataRoundTrips (fun _ => true) (v, ()) following) :
    t.DataRoundTrips v following := by
  simp only [DataRoundTrips, ambusPackAll, ambusUnpackAll, if_true, le_refl] at restored
  obtain ⟨packed, nonneg, ⟨back, -⟩, position⟩ := restored
  exact ⟨packed, nonneg, back rfl, position⟩

/-- The descriptions all of whose objects come back, with the position after them, are the decodable
ones; those are also the ones that `ambus_unpack_all` restores in every list of arguments. -/
theorem dataRoundTrips_iff_decodable (p : Ty → Prop) :
    (∀ t : Ty, (∀ v following, t.DataRoundTrips v following) ↔ t.Decodable) ∧
    ((∀ (ts : Tys) selected, ts.All p selected →
        ∀ v following, ts.DataRoundTrips selected v following) ↔
      ∀ t, p t → t.Decodable) := by
  have decodable (t : Ty) (all : ∀ v following, t.DataRoundTrips v following) : t.Decodable := by
    by_contra bad
    obtain ⟨v, lost⟩ := t.exists_not_dataRoundTrips bad
    exact lost (all v [])
  refine ⟨fun t => ⟨decodable t, Ty.dataRoundTrips_of_decodable⟩, ?_, ?_⟩
  · intro all t chosen
    refine decodable t fun v following => Tys.DataRoundTrips.single ?_
    exact all (.cons t .nil) (fun _ => true) ⟨fun _ => chosen, trivial⟩ (v, ()) following
  · intro good ts selected all v following
    exact Tys.dataRoundTrips_of_decodable (Tys.All.mono good ts all) v following

/-- An array of arrays comes back empty, and what follows a map is not read. -/
theorem not_dataRoundTrips_nested :
    ¬(Ty.seq (.seq (.simple .int32))).DataRoundTrips [[⟨1, by decide⟩], [⟨2, by decide⟩]] [] ∧
    ¬(Tys.cons (.map .string (.simple .int32)) (.cons (.simple .int32) .nil)).DataRoundTrips
      (fun _ => true) ([], ⟨1, by decide⟩, ()) [] := by
  constructor
  · rintro ⟨-, -, back, -⟩
    exact absurd (congrArg (Option.map List.length) back) (by decide +kernel)
  · rintro ⟨-, -, ⟨-, back, -⟩, -⟩
    exact absurd (congrArg Option.isSome (back rfl)) (by decide +kernel)

end AmlCommonlib.Dbus
