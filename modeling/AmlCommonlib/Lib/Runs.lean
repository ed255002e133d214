import Mathlib.Data.List.Basic
import Mathlib.Tactic.Common

/-! # Runs of a labelled transition relation

A system is a relation between a state, a label and the next state; the label carries what the
environment supplies and what is observed. `Run` is the proof-free spine of a finite execution. A
condition on the steps of a run, stated on the state before each step, is a restriction of the
relation (`Guarded`), so the rules below serve unconditional and conditional runs alike.
-/

namespace AmlCommonlib

variable {σ ℓ : Type*}

/-- A finite run carrying exactly its labels. -/
inductive Run (step : σ → ℓ → σ → Prop) : σ → List ℓ → σ → Prop
  | nil (s : σ) : Run step s [] s
  | cons {s mid t : σ} {l : ℓ} {ls : List ℓ} :
      step s l mid → Run step mid ls t → Run step s (l :: ls) t

/-- The steps that satisfy a condition on their label and the state they start in. -/
def Guarded (ok : σ → ℓ → Prop) (step : σ → ℓ → σ → Prop) (s : σ) (l : ℓ) (t : σ) : Prop :=
  ok s l ∧ step s l t

namespace Run

variable {step : σ → ℓ → σ → Prop}

theorem nil_iff {s t : σ} : Run step s [] t ↔ s = t := by
  constructor
  · intro run
    cases run
    rfl
  · rintro rfl
    exact .nil _

theorem cons_iff {s t : σ} {l : ℓ} {ls : List ℓ} :
    Run step s (l :: ls) t ↔ ∃ mid, step s l mid ∧ Run step mid ls t := by
  constructor
  · intro run
    cases run with
    | cons first rest => exact ⟨_, first, rest⟩
  · rintro ⟨mid, first, rest⟩
    exact .cons first rest

/-- Runs are cut at any point of their label sequence. -/
theorem append_iff {s t : σ} {first second : List ℓ} :
    Run step s (first ++ second) t ↔ ∃ mid, Run step s first mid ∧ Run step mid second t := by
  induction first generalizing s with
  | nil => simp [nil_iff]
  | cons l ls ih =>
    simp only [List.cons_append, cons_iff, ih]
    constructor
    · rintro ⟨next, head, mid, left, right⟩
      exact ⟨mid, ⟨next, head, left⟩, right⟩
    · rintro ⟨mid, ⟨next, head, left⟩, right⟩
      exact ⟨next, head, mid, left, right⟩

/-- What every step preserves holds at the end of every run. -/
theorem preserves {inv : σ → Prop} (kept : ∀ {s l t}, inv s → step s l t → inv t) {s t : σ}
    {ls : List ℓ} (run : Run step s ls t) (start : inv s) : inv t := by
  induction run with
  | nil => exact start
  | cons head _ ih => exact ih (kept start head)

/-- The same along runs whose labels are restricted. -/
theorem preserves_of_labels {inv : σ → Prop} {allowed : ℓ → Prop}
    (kept : ∀ {s l t}, allowed l → inv s → step s l t → inv t) {s t : σ} {ls : List ℓ}
    (run : Run step s ls t) (labels : ∀ l ∈ ls, allowed l) (start : inv s) : inv t := by
  induction run with
  | nil => exact start
  | cons head _ ih =>
    exact ih (fun l member => labels l (List.mem_cons_of_mem _ member))
      (kept (labels _ (List.mem_cons_self ..)) start head)

/-- An invariant that also speaks of the labels so far. -/
theorem preserves_history (inv : List ℓ → σ → Prop)
    (kept : ∀ {past s l t}, inv past s → step s l t → inv (past ++ [l]) t) {ls : List ℓ} {s t : σ}
    (run : Run step s ls t) (start : inv [] s) : inv ls t := by
  have along : ∀ past, inv past s → inv (past ++ ls) t := by
    clear start
    induction run with
    | nil => simp
    | cons head _ ih =>
      intro past holds
      simpa using ih _ (kept holds head)
  exact along [] start

theorem mono {weaker : σ → ℓ → σ → Prop} (sub : ∀ {s l t}, step s l t → weaker s l t) {s t : σ}
    {ls : List ℓ} (run : Run step s ls t) : Run weaker s ls t := by
  induction run with
  | nil => exact .nil _
  | cons head _ ih => exact .cons (sub head) ih

/-- A step relation that is a partial function has one run for each list of labels. -/
theorem functional (det : ∀ s l t t', step s l t → step s l t' → t = t') {s t t' : σ} {ls : List ℓ}
    (run : Run step s ls t) (run' : Run step s ls t') : t = t' := by
  induction run with
  | nil s => exact nil_iff.mp run'
  | cons head _ ih =>
    obtain ⟨mid, head', rest'⟩ := cons_iff.mp run'
    exact ih (det _ _ _ _ head head' ▸ rest')

end Run

/-! ### What holds in every state of a run -/

section Throughout

variable {step : σ → ℓ → σ → Prop}

/-- The property holds in every state that the labels lead to, the first one included. -/
def Throughout (step : σ → ℓ → σ → Prop) (inv : σ → Prop) (s : σ) (ls : List ℓ) : Prop :=
  ∀ first second mid, ls = first ++ second → Run step s first mid → inv mid

theorem Throughout.tail {inv : σ → Prop} {s mid : σ} {l : ℓ} {ls : List ℓ}
    (holds : Throughout step inv s (l :: ls)) (first : step s l mid) : Throughout step inv mid ls := by
  intro left right t same run
  exact holds (l :: left) right t (congrArg _ same) (.cons first run)

/-- Where guarded steps keep an invariant, which has the property, and every other step breaks the
property, it holds throughout a run exactly if all its steps satisfy the guard. -/
theorem throughout_iff_of_invariant {aux inv : σ → Prop} {ok : σ → ℓ → Prop} {start t : σ}
    {ls : List ℓ} (det : ∀ s l t t', step s l t → step s l t' → t = t') (first : aux start)
    (kept : ∀ {s l t}, aux s → Guarded ok step s l t → aux t) (sound : ∀ {s}, aux s → inv s)
    (breaks : ∀ {s l t}, aux s → step s l t → ¬ok s l → ¬inv t) (run : Run step start ls t) :
    Throughout step inv start ls ↔ Run (Guarded ok step) start ls t := by
  constructor
  · intro holds
    induction run with
    | nil s => exact .nil s
    | @cons s mid t l ls head rest ih =>
      have guarded : Guarded ok step s l mid := by
        refine ⟨?_, head⟩
        by_contra bad
        exact breaks first head bad (holds [l] ls mid rfl (.cons head (.nil _)))
      exact .cons guarded (ih (kept first guarded) (holds.tail head))
  · rintro guarded left right mid rfl run'
    obtain ⟨mid', left', -⟩ := Run.append_iff.mp guarded
    have plain : Run step start left mid' := left'.mono fun taken => taken.2
    have reached : aux mid' := by
      refine left'.preserves ?_ first
      intro _ _ _ holds taken
      exact kept holds taken
    exact plain.functional det run' ▸ sound reached

/-- The same where the invariant is that guarded runs keep the property. -/
theorem throughout_iff_guarded {inv : σ → Prop} {ok : σ → ℓ → Prop} {start t : σ} {ls : List ℓ}
    (det : ∀ s l t t', step s l t → step s l t' → t = t')
    (kept : ∀ {ls t}, Run (Guarded ok step) start ls t → inv t)
    (breaks : ∀ {s l t}, step s l t → ¬ok s l → ¬inv t) (run : Run step start ls t) :
    Throughout step inv start ls ↔ Run (Guarded ok step) start ls t := by
  refine @throughout_iff_of_invariant _ _ step (fun s => ∃ ls, Run (Guarded ok step) start ls s) inv
    ok start t ls det ⟨[], .nil _⟩ ?_ ?_ (fun _ => breaks) run
  · rintro s l t ⟨past, reached⟩ taken
    exact ⟨past ++ [l], Run.append_iff.mpr ⟨s, reached, .cons taken (.nil _)⟩⟩
  · rintro s ⟨past, reached⟩
    exact kept reached

theorem Throughout.drop {inv : σ → Prop} {s mid : σ} {left right : List ℓ}
    (holds : Throughout step inv s (left ++ right)) (run : Run step s left mid) :
    Throughout step inv mid right := by
  rintro first second t rfl run'
  exact holds (left ++ first) second t (List.append_assoc ..).symm
    (Run.append_iff.mpr ⟨mid, run, run'⟩)

/-- Steps whose labels meet a condition that implies the guard. -/
theorem Run.guarded {ok : σ → ℓ → Prop} {free : ℓ → Prop} (meets : ∀ s l, free l → ok s l) {s t : σ}
    {ls : List ℓ} (run : Run step s ls t) (labels : ∀ l ∈ ls, free l) :
    Run (Guarded ok step) s ls t := by
  induction run with
  | nil s => exact .nil s
  | cons head _ ih =>
    exact .cons ⟨meets _ _ (labels _ (List.mem_cons_self ..)), head⟩
      (ih fun l member => labels l (List.mem_cons_of_mem _ member))

/-- What no step undoes as long as the property holds. -/
theorem Throughout.persists {latent inv : σ → Prop}
    (stays : ∀ s l t, latent s → inv s → step s l t → latent t) {s t : σ} {ls : List ℓ}
    (holds : Throughout step inv s ls) (run : Run step s ls t) (bad : latent s) : latent t := by
  induction run with
  | nil => exact bad
  | cons head _ ih => exact ih (holds.tail head) (stays _ _ _ bad (holds [] _ _ rfl (.nil _)) head)

/-- The same for a property that is broken only later: a step that is not guarded makes its breach
`latent`, nothing undoes that before, and some steps whose labels meet a condition bring it about. -/
theorem throughout_later_iff {aux latent inv : σ → Prop} {ok : σ → ℓ → Prop} {free : ℓ → Prop}
    {start t : σ} {ls : List ℓ} (det : ∀ s l t t', step s l t → step s l t' → t = t')
    (first : aux start) (kept : ∀ s l t, aux s → step s l t → aux t) (unbroken : ¬latent start)
    (causes : ∀ s l t, aux s → ¬latent s → step s l t → (latent t ↔ ¬ok s l))
    (sound : ∀ s, aux s → ¬latent s → inv s)
    (stays : ∀ s l t, aux s → latent s → inv s → step s l t → latent t)
    (emerges : ∀ s, aux s → latent s →
      ∃ later t, (∀ l ∈ later, free l) ∧ Run step s later t ∧ ¬inv t)
    (meets : ∀ s l, free l → ok s l) (run : Run step start ls t) :
    (∀ later t', (∀ l ∈ later, free l) → Run step t later t' →
        Throughout step inv start (ls ++ later)) ↔ Run (Guarded ok step) start ls t := by
  have iff : ∀ {ls t}, Run step start ls t →
      (Throughout step (fun s => ¬latent s) start ls ↔ Run (Guarded ok step) start ls t) := by
    intro ls t run
    refine @throughout_iff_of_invariant _ _ step (fun s => aux s ∧ ¬latent s) (fun s => ¬latent s) ok
      start t ls det ⟨first, unbroken⟩ ?_ (fun holds => holds.2) ?_ run
    · intro s l t holds taken
      exact ⟨kept s l t holds.1 taken.2, fun bad => (causes s l t holds.1 holds.2 taken.2).mp bad taken.1⟩
    · intro s l t holds taken bad unbroken
      exact unbroken ((causes s l t holds.1 holds.2 taken).mpr bad)
  have reached : ∀ ls t, Run step start ls t → aux t := by
    intro ls t run
    refine run.preserves ?_ first
    intro _ _ _ holds taken
    exact kept _ _ _ holds taken
  constructor
  · intro holds
    apply (iff run).mp
    rintro left right mid rfl run' bad
    obtain ⟨mid', left', right'⟩ := Run.append_iff.mp run
    obtain rfl := run'.functional det left'
    have now := holds [] t (by simp) (.nil t)
    rw [List.append_nil] at now
    have stays' : ∀ s l t, aux s ∧ latent s → inv s → step s l t → aux t ∧ latent t :=
      fun s l t old holds taken =>
        ⟨kept s l t old.1 taken, stays s l t old.1 old.2 holds taken⟩
    have last := (now.drop run').persists stays' right' ⟨reached left mid run', bad⟩
    obtain ⟨later, t', labels, onward, broken⟩ := emerges t last.1 last.2
    exact broken (holds later t' labels onward _ [] t' (List.append_nil _).symm
      (Run.append_iff.mpr ⟨t, run, onward⟩))
  · intro ok later t' labels onward left right mid same run'
    have whole : Run (Guarded _ step) start (ls ++ later) t' :=
      Run.append_iff.mpr ⟨t, ok, onward.guarded meets labels⟩
    have all := (iff (Run.append_iff.mpr ⟨t, run, onward⟩)).mpr whole
    exact sound mid (reached left mid run') (all left right mid same run')

end Throughout

/-! ### Executing a list of actions -/

section Execute

variable {α β : Type*}

/-- The outputs of a list of actions of a partial step function, with the state they lead to. -/
def execute (step : σ → α → Option (σ × β)) : σ → List α → Option (σ × List β)
  | s, [] => some (s, [])
  | s, a :: rest => do
    let (mid, out) ← step s a
    let (t, outs) ← execute step mid rest
    return (t, out :: outs)

theorem run_of_execute {step : σ → α → Option (σ × β)} {s t : σ} {actions : List α}
    {outs : List β} (done : execute step s actions = some (t, outs)) :
    Run (fun s l t => step s l.1 = some (t, l.2)) s (actions.zip outs) t := by
  induction actions generalizing s outs with
  | nil =>
    cases done
    exact .nil _
  | cons a rest ih =>
    simp only [execute, Option.bind_eq_bind, Option.bind_eq_some_iff, Option.pure_def,
      Option.some.injEq, Prod.mk.injEq, Prod.exists] at done
    obtain ⟨mid, out, first, t', outs', later, rfl, rfl⟩ := done
    exact .cons first (ih later)

/-- The same for actions that satisfy a decidable condition. -/
theorem guarded_of_execute {ok : σ → α → Prop} [∀ s a, Decidable (ok s a)]
    {step : σ → α → Option (σ × β)} {s t : σ} {actions : List α} {outs : List β}
    (done : execute (fun s a => if ok s a then step s a else none) s actions = some (t, outs)) :
    Run (Guarded (fun s l => ok s l.1) fun s l t => step s l.1 = some (t, l.2)) s
      (actions.zip outs) t := by
  apply (run_of_execute done).mono
  intro s l t taken
  split_ifs at taken with holds
  exact ⟨holds, taken⟩

theorem run_of_foldlM {step : σ → α → Option σ} {s t : σ} {actions : List α}
    (done : actions.foldlM step s = some t) : Run (fun s a t => step s a = some t) s actions t := by
  induction actions generalizing s with
  | nil =>
    cases done
    exact .nil _
  | cons a rest ih =>
    rw [List.foldlM_cons, Option.bind_eq_bind, Option.bind_eq_some_iff] at done
    obtain ⟨mid, first, later⟩ := done
    exact .cons first (ih later)

/-- The same for a decidable condition on the steps. -/
theorem guarded_of_foldlM {ok : σ → α → Prop} [∀ s a, Decidable (ok s a)]
    {step : σ → α → Option σ} {s t : σ} {actions : List α}
    (done : actions.foldlM (fun s a => if ok s a then step s a else none) s = some t) :
    Run (Guarded ok fun s a t => step s a = some t) s actions t := by
  apply (run_of_foldlM done).mono
  intro s a t taken
  split_ifs at taken with holds
  exact ⟨holds, taken⟩

end Execute

end AmlCommonlib
