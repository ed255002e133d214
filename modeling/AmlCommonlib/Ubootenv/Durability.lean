import AmlCommonlib.Lib.Runs
import AmlCommonlib.Ubootenv.Agreement

/-! # What a successful `bootenv_update` has stored

The state is the session of one process. A call changes the list and the shared image before it
touches the device, so after a failed call the memory is ahead of the partition; the branch that
answers a call from memory then reports success for a value that was never written. Runs that keep
out of that branch, and of the printing limits, store what they acknowledge.
-/

namespace AmlCommonlib.Ubootenv

/-- One `bootenv_update` with the device results of its up to five attempts. -/
structure UpdateCall where
  name : Bytes
  value : Bytes
  ios : ℕ → SaveIo

/-- A completed call with its result. -/
def UpdateStep (g : Geometry) (s : Session) (l : UpdateCall × ℤ) (t : Session) : Prop :=
  bootenvUpdate g l.1.ios l.1.name l.1.value s = .ok (t, l.2)

/-- An initialised process whose list agrees with the stored partition. -/
structure InSync (s : Session) : Prop where
  coherent : s.Coherent
  current : s.currentRevision = s.shm.revision
  stored : s.device = s.shm.img
  valid : s.shm.img.Valid

/-- A call in the state before it: well formed, printable, with whole writes, and not answered
from memory while the partition holds another image. -/
structure SafeCall (g : Geometry) (s : Session) (call : UpdateCall) : Prop where
  name : ProperName call.name
  value : ProperValue call.value
  fits : ∀ loaded, checkLoadKv s = .ok loaded →
    envSerializeData g.dataSize (bootenvSetValue loaded.kv call.name call.value) ≠ none
  whole : ∀ i, (call.ios i).write.isShort = false
  saved : ∀ loaded, checkLoadKv s = .ok loaded →
    lookup call.name loaded.kv.nodes = some call.value → s.device = s.shm.img

/-- What every safe call preserves, also when it fails. -/
structure Usable (s : Session) : Prop where
  coherent : s.Coherent
  valid : s.shm.img.Valid

theorem InSync.usable {s : Session} (sync : InSync s) : Usable s := ⟨sync.coherent, sync.valid⟩

/-- A safe call completes, keeps the session usable and stores what it acknowledges. -/
theorem SafeCall.completes {g : Geometry} {s : Session} {call : UpdateCall}
    (safe : SafeCall g s call) (usable : Usable s) :
    ∃ t ret, UpdateStep g s (call, ret) t ∧ Usable t ∧
      (ret = 0 → t.device.Valid ∧ t.device.Stores call.name call.value) := by
  obtain ⟨loaded, reloaded, shm, device, synced, coherent⟩ := checkLoadKv_spec usable.coherent
  obtain ⟨t, ret, done, outcome⟩ := bootenvUpdate_outcome call.ios safe.value.nonempty reloaded
    (safe.fits loaded reloaded)
  obtain ⟨coherent', -, agrees, stored⟩ := outcome.coherent safe.name safe.value coherent synced
  have valid : t.shm.img.Valid := by
    cases outcome with
    | unchanged _ => exact shm ▸ usable.valid
    | attempted _ _ _ _ effect => exact effect.image ▸ rfl
  refine ⟨t, ret, done, ⟨coherent', valid⟩, ?_⟩
  intro success
  have same : t.device = t.shm.img := by
    cases outcome with
    | unchanged found => rw [device, shm, safe.saved loaded reloaded found]
    | attempted _ _ _ _ effect =>
      rcases effect.success (by omega) with ⟨i, short⟩ | written
      · exact absurd (safe.whole i) (by simp [short])
      · exact written
  exact ⟨same ▸ valid, same ▸ agrees.stores safe.name.nonempty stored⟩

theorem usable_of_run {g : Geometry} {s t : Session} {ls : List (UpdateCall × ℤ)}
    (run : Run (Guarded (fun s l => SafeCall g s l.1) (UpdateStep g)) s ls t) (start : Usable s) :
    Usable t := by
  refine run.preserves ?_ start
  rintro s ⟨call, ret⟩ t usable ⟨safe, done⟩
  obtain ⟨t', ret', done', usable', -⟩ := safe.completes usable
  cases done.symm.trans done'
  exact usable'

/-- After any run of safe calls, failed ones included, the next safe call completes, and when it
returns 0 the partition carries a valid checksum and decodes to the variable just set. -/
theorem durable_of_safe {g : Geometry} {s : Session} (start : InSync s)
    {ls : List (UpdateCall × ℤ)} {mid : Session}
    (run : Run (Guarded (fun s l => SafeCall g s l.1) (UpdateStep g)) s ls mid)
    {call : UpdateCall} (safe : SafeCall g mid call) :
    ∃ t ret, UpdateStep g mid (call, ret) t ∧
      (ret = 0 → t.device.Valid ∧ t.device.Stores call.name call.value) := by
  obtain ⟨t, ret, done, -, durable⟩ := safe.completes (usable_of_run run start.usable)
  exact ⟨t, ret, done, durable⟩

/-! ### A concrete partition -/

/-- A process that has just loaded `a=1`. -/
def sampleSession : Session where
  currentRevision := 0
  kv := ⟨⟨[97], some [49]⟩, []⟩
  shm := ⟨1, 0, sampleImage⟩
  device := sampleImage

/-- The partition cannot be opened. -/
def SaveIo.noOpen : SaveIo := { SaveIo.good with openOk := false }

theorem sampleSession_inSync : InSync sampleSession where
  coherent := by
    have parsed : envParseKv .empty sampleSession.shm.img.data = .ok sampleSession.kv := rfl
    refine ⟨@envParseKv_loadable .empty _ _ ?_ parsed, fun _ => .of_parsed parsed, _, parsed⟩
    simpa [KvList.nodes, KvList.empty] using Loadable.fresh
  current := rfl
  stored := rfl
  valid := rfl

/-- The process when `a=2` could not be stored. -/
def failedSession : Session where
  currentRevision := 5
  kv := ⟨⟨[97], some [50]⟩, []⟩
  shm := ⟨1, 5, ⟨crc32 [97, 61, 50, 0, 0, 0, 0, 0], [97, 61, 50, 0, 0, 0, 0, 0]⟩⟩
  device := sampleImage

/-- Setting `a=3` with working device calls, after `a=2` could not be stored. -/
theorem durable_of_safe_first :
    Run (Guarded (fun s l => SafeCall smallGeometry s l.1) (UpdateStep smallGeometry)) sampleSession
      [(⟨[97], [50], fun _ => .noOpen⟩, -1)] failedSession ∧
    ∃ t, UpdateStep smallGeometry failedSession (⟨[97], [51], fun _ => .good⟩, 0) t ∧
      t.device.Valid ∧ t.device.Stores [97] [51] := by
  have first : SafeCall smallGeometry sampleSession ⟨[97], [50], fun _ => .noOpen⟩ := by
    refine ⟨⟨by decide, by decide, by decide, by decide⟩, ⟨by decide, by decide, by decide⟩, ?_,
      fun _ => rfl, ?_⟩
    · rintro loaded reloaded
      cases reloaded
      decide
    · rintro loaded reloaded found
      cases reloaded
      exact absurd found (by decide)
  have second : SafeCall smallGeometry failedSession ⟨[97], [51], fun _ => .good⟩ := by
    refine ⟨⟨by decide, by decide, by decide, by decide⟩, ⟨by decide, by decide, by decide⟩, ?_,
      fun _ => rfl, ?_⟩
    · rintro loaded reloaded
      cases reloaded
      decide
    · rintro loaded reloaded found
      cases reloaded
      exact absurd found (by decide)
  have run : Run (Guarded (fun s l => SafeCall smallGeometry s l.1) (UpdateStep smallGeometry))
      sampleSession [(⟨[97], [50], fun _ => .noOpen⟩, -1)] failedSession :=
    .cons ⟨first, rfl⟩ (.nil _)
  obtain ⟨t, ret, done, durable⟩ := durable_of_safe sampleSession_inSync run second
  obtain rfl : 0 = ret := (Prod.mk.inj (Except.ok.inj done)).2
  exact ⟨run, t, done, durable rfl⟩

/-- The failing history: `a=2` cannot be stored, the same call again returns 0, and the partition
still decodes to `a=1`. -/
theorem repeated_update_not_durable :
    InSync sampleSession ∧ ∃ t u : Session,
      UpdateStep smallGeometry sampleSession (⟨[97], [50], fun _ => .noOpen⟩, -1) t ∧
      UpdateStep smallGeometry t (⟨[97], [50], fun _ => .noOpen⟩, 0) u ∧
      ¬u.device.Stores [97] [50] := by
  refine ⟨sampleSession_inSync, _, _, rfl, rfl, ?_⟩
  rintro ⟨l, parsed, found⟩
  obtain rfl : KvList.mk ⟨[97], some [49]⟩ [] = l := Except.ok.inj parsed
  exact absurd found (by decide)

end AmlCommonlib.Ubootenv
