import AmlCommonlib.Lib.CString
import Mathlib.Algebra.Group.Nat.Defs
import Mathlib.Data.Nat.ModEq
import Mathlib.Data.List.Infix

/-! # Rotating the log file

`aml_log_do_rotate` counts what is written in a static variable of its own. The counter knows nothing
of what the current file held when it was opened, and starts again only with a rotation. The message
that makes it rotate is still in the buffer of `log_fp` while the file is copied and emptied, so it
becomes the first of the new file, and the counter that starts again does not know of it.
-/

namespace AmlCommonlib.AmlLog

/-- The number of bytes of a header of `aml_log_msg` whose names are empty and whose numbers have one
digit: `%ld.%06ld %s[%d] %s %s tid:%ld (%s %d %s): `. -/
def headerLength : ℕ := 28

/-- A message as `aml_log_msg` prints it from `buf[4096]`. -/
structure Message where
  text : Bytes
  plain : IsCString text
  long : headerLength ≤ text.length
  short : text.length < 4096

/-- The arguments of `aml_log_set_rotate_policy`; the paths are plain words. -/
structure RotatePolicy where
  currentFile : Bytes
  rotateFile : Bytes
  rotateBytes : ℕ
  inRange : rotateBytes < 2 ^ 32

/-- What the two files hold, and `total_len`. -/
structure LogFiles where
  current : Bytes
  rotated : Bytes
  totalLen : ℕ
  inRange : totalLen < 2 ^ 32

/-- `cp -f %s %s` -/
def RotatePolicy.command (p : RotatePolicy) : Bytes :=
  [99, 112, 32, 45, 102, 32] ++ p.currentFile ++ 32 :: p.rotateFile

namespace LogFiles

variable {p : RotatePolicy} {l : LogFiles}

/-- What the rotated file holds after `system(cmd)`; a command that has been cut names another
file. -/
def copied (p : RotatePolicy) (l : LogFiles) : Bytes :=
  if snprintf 255 p.command = p.command then l.current else l.rotated

/-- `aml_log_do_rotate` with what `log_fp` has buffered: `cp` and `ftruncate` leave it where it is,
and `fseek` writes it to the file. -/
def amlLogDoRotate (p : RotatePolicy) (l : LogFiles) (buffer : Bytes) (len : ℕ) : LogFiles × Bytes :=
  let totalLen := (l.totalLen + len) % 2 ^ 32
  if p.rotateBytes ≤ totalLen then (⟨buffer, l.copied p, 0, by decide⟩, [])
  else (⟨l.current, l.rotated, totalLen, Nat.mod_lt _ (by decide)⟩, buffer)

/-- `aml_log_msg`, with `log_fp` flushed behind it. -/
def amlLogMsg (p : RotatePolicy) (l : LogFiles) (m : Message) : LogFiles :=
  let (l, buffer) := l.amlLogDoRotate p m.text m.text.length
  { l with current := l.current ++ buffer }

/-- The messages since the policy was set. -/
def run (p : RotatePolicy) (l : LogFiles) (messages : List Message) : LogFiles :=
  messages.foldl (amlLogMsg p) l

/-- What the messages write. -/
def written (messages : List Message) : Bytes := (messages.map Message.text).flatten

/-- The current file is smaller than `rotate_bytes` after every message, and no message is missing
between the rotated file's first and the current file's last one. -/
def KeepsPolicy (p : RotatePolicy) (l : LogFiles) (messages : List Message) : Prop :=
  ∀ before, before <+: messages →
    (before ≠ [] → (l.run p before).current.length < p.rotateBytes) ∧
    (l.run p before).rotated ++ (l.run p before).current <:+ l.rotated ++ l.current ++ written before

end LogFiles

/-! ### The messages at which the log rotates -/

/-- So many bytes are enough for a rotation; they are counted in an `unsigned int`. -/
def RotatePolicy.Reaches (p : RotatePolicy) (count : ℕ) : Prop := p.rotateBytes ≤ count % 2 ^ 32

/-- None of the messages brings a count that begins with `start` to `rotate_bytes`. -/
def RotatePolicy.Below (p : RotatePolicy) (start : ℕ) (messages : List Message) : Prop :=
  ∀ before, before <+: messages → before ≠ [] →
    ¬p.Reaches (start + (LogFiles.written before).length)

/-- Behind `before` the message `r` brings the count to `rotate_bytes`, as the first one or as the
first one since such a message. -/
inductive RotatePolicy.Rotates (p : RotatePolicy) (start : ℕ) : List Message → Message → Prop
  | first {before : List Message} {r : Message} (below : p.Below start before)
      (reaches : p.Reaches (start + (LogFiles.written (before ++ [r])).length)) :
      p.Rotates start before r
  | later {before between : List Message} {r r' : Message} (rotates : p.Rotates start before r)
      (below : p.Below 0 between)
      (reaches : p.Reaches (0 + (LogFiles.written (between ++ [r'])).length)) :
      p.Rotates start (before ++ r :: between) r'

namespace LogFiles

variable {p : RotatePolicy} {l : LogFiles} {m : Message} {messages : List Message}

/-- Up to the first rotation there is space for what the file held, and behind each rotation for the
message that caused it. -/
structure Spared (p : RotatePolicy) (l : LogFiles) (messages : List Message) : Prop where
  first : ∀ before, before <+: messages → before ≠ [] → p.Below l.totalLen before →
    l.current.length + (written before).length < p.rotateBytes
  later : ∀ before r between, before ++ r :: between <+: messages → p.Rotates l.totalLen before r →
    p.Below 0 between → r.text.length + (written between).length < p.rotateBytes
  copies : p.command.length < 255 ∨ ∀ before r, before ++ [r] <+: messages →
    p.Rotates l.totalLen before r → l.rotated <:+ l.rotated ++ l.current ++ written before

/-! ### Messages -/

@[simp] theorem run_nil (p : RotatePolicy) (l : LogFiles) : l.run p [] = l := rfl

@[simp] theorem run_cons (p : RotatePolicy) (l : LogFiles) (m : Message) (rest : List Message) :
    l.run p (m :: rest) = (l.amlLogMsg p m).run p rest := rfl

theorem run_append (p : RotatePolicy) (l : LogFiles) (first second : List Message) :
    l.run p (first ++ second) = (l.run p first).run p second := List.foldl_append

@[simp] theorem written_nil : written [] = [] := rfl

@[simp] theorem written_cons (m : Message) (rest : List Message) :
    written (m :: rest) = m.text ++ written rest := rfl

@[simp] theorem written_append (first second : List Message) :
    written (first ++ second) = written first ++ written second := by
  simp [written]

theorem amlLogMsg_below (below : ¬p.Reaches (l.totalLen + m.text.length)) :
    (l.amlLogMsg p m).current = l.current ++ m.text ∧ (l.amlLogMsg p m).rotated = l.rotated ∧
      (l.amlLogMsg p m).totalLen = (l.totalLen + m.text.length) % 2 ^ 32 := by
  rw [RotatePolicy.Reaches] at below
  simp only [amlLogMsg, amlLogDoRotate, if_neg below, and_self]

theorem amlLogMsg_reaches (reaches : p.Reaches (l.totalLen + m.text.length)) :
    (l.amlLogMsg p m).current = m.text ∧ (l.amlLogMsg p m).totalLen = 0 ∧
      (l.amlLogMsg p m).rotated = if p.command.length < 255 then l.current else l.rotated := by
  have fits : snprintf 255 p.command = p.command ↔ p.command.length < 255 := by
    rw [snprintf, List.take_eq_self_iff]
    omega
  rw [RotatePolicy.Reaches] at reaches
  simp only [amlLogMsg, amlLogDoRotate, if_pos reaches, copied, fits, List.append_nil, and_self]

/-! ### Periods -/

theorem below_nil (start : ℕ) : p.Below start [] := by
  intro before isPrefix some'
  exact absurd (List.prefix_nil.mp isPrefix) some'

theorem Below.left {start : ℕ} (below : p.Below start (messages ++ [m])) : p.Below start messages :=
  fun before isPrefix => below before (isPrefix.trans (List.prefix_append _ _))

theorem below_concat {start : ℕ} (below : p.Below start messages)
    (stays : ¬p.Reaches (start + (written (messages ++ [m])).length)) :
    p.Below start (messages ++ [m]) := by
  intro before isPrefix some'
  rcases List.prefix_concat_iff.mp isPrefix with rfl | isPrefix
  · exact stays
  · exact below before isPrefix some'

/-- Messages are all in front of the first rotation, or the last rotation is at one of them. -/
theorem periods (p : RotatePolicy) (start : ℕ) (messages : List Message) :
    p.Below start messages ∨ ∃ before r between, messages = before ++ r :: between ∧
      p.Rotates start before r ∧ p.Below 0 between := by
  induction messages using List.reverseRecOn with
  | nil => exact .inl (below_nil start)
  | append_singleton messages m ih =>
    rcases ih with below | ⟨before, r, between, rfl, rotates, below⟩
    · by_cases reaches : p.Reaches (start + (written (messages ++ [m])).length)
      · exact .inr ⟨messages, m, [], rfl, .first below reaches, below_nil 0⟩
      · exact .inl (below_concat below reaches)
    · by_cases reaches : p.Reaches (0 + (written (between ++ [m])).length)
      · exact .inr ⟨_, m, [], rfl, .later rotates below reaches, below_nil 0⟩
      · exact .inr ⟨before, r, between ++ [m], by simp, rotates, below_concat below reaches⟩

/-- In front of the first rotation the file grows and the counter with it. -/
theorem run_below (below : p.Below l.totalLen messages) :
    (l.run p messages).current = l.current ++ written messages ∧
      (l.run p messages).rotated = l.rotated ∧
      (l.run p messages).totalLen = (l.totalLen + (written messages).length) % 2 ^ 32 := by
  have inRange := l.inRange
  induction messages using List.reverseRecOn with
  | nil => exact ⟨(List.append_nil _).symm, rfl, (Nat.mod_eq_of_lt inRange).symm⟩
  | append_singleton messages m ih =>
    obtain ⟨current, rotated, totalLen⟩ := ih (Below.left below)
    have stays := below _ List.prefix_rfl (List.concat_ne_nil _ _)
    have counts : (l.run p messages).totalLen + m.text.length ≡
        l.totalLen + (written (messages ++ [m])).length [MOD 2 ^ 32] := by
      rw [totalLen, written_append, List.length_append, ← Nat.add_assoc]
      simpa using (Nat.mod_modEq _ _).add_right m.text.length
    have same : ((l.run p messages).totalLen + m.text.length) % 2 ^ 32 =
        (l.totalLen + (written (messages ++ [m])).length) % 2 ^ 32 := counts
    obtain ⟨current', rotated', totalLen'⟩ := @amlLogMsg_below p (l.run p messages) m (by
      rw [RotatePolicy.Reaches, same]
      exact stays)
    rw [run_append, run_cons, run_nil, current', rotated', totalLen', current, rotated, same]
    simp

theorem run_split (p : RotatePolicy) (l : LogFiles) (before between : List Message) (r : Message) :
    l.run p (before ++ r :: between) = (l.run p (before ++ [r])).run p between := by
  rw [← run_append, List.append_assoc, List.singleton_append]

/-- The file of a rotation begins with the message that caused it, and the counter with 0. -/
theorem run_rotates {before : List Message} {r : Message} (rotates : p.Rotates l.totalLen before r) :
    (l.run p (before ++ [r])).current = r.text ∧ (l.run p (before ++ [r])).totalLen = 0 ∧
      (l.run p (before ++ [r])).rotated =
        if p.command.length < 255 then (l.run p before).current else l.rotated := by
  induction rotates with
  | @first before r below reaches =>
    obtain ⟨-, rotated, totalLen⟩ := run_below below
    have reaches' : p.Reaches ((l.run p before).totalLen + r.text.length) := by
      rw [RotatePolicy.Reaches, totalLen, Nat.mod_add_mod]
      simpa [RotatePolicy.Reaches, Nat.add_assoc] using reaches
    obtain ⟨current, counter, copied⟩ := amlLogMsg_reaches reaches'
    rw [rotated] at copied
    rw [run_append]
    exact ⟨current, counter, copied⟩
  | @later before between r r' rotates below reaches ih =>
    obtain ⟨-, totalLen, copied⟩ := ih
    have behind := run_split p l before between r
    obtain ⟨-, rotated, counted⟩ := @run_below p (l.run p (before ++ [r])) between
      (by rw [totalLen]; exact below)
    have reaches' : p.Reaches ((l.run p (before ++ r :: between)).totalLen + r'.text.length) := by
      rw [behind, RotatePolicy.Reaches, counted, totalLen, Nat.mod_add_mod]
      simpa [RotatePolicy.Reaches] using reaches
    obtain ⟨current, counter, copied'⟩ := amlLogMsg_reaches reaches'
    rw [run_append]
    refine ⟨current, counter, copied'.trans ?_⟩
    split_ifs at copied ⊢ with fits
    · rfl
    · rw [behind, rotated, copied]

/-- What the files hold behind the last rotation. -/
theorem run_behind {before between : List Message} {r : Message}
    (rotates : p.Rotates l.totalLen before r) (below : p.Below 0 between) :
    (l.run p (before ++ r :: between)).current = r.text ++ written between ∧
      (l.run p (before ++ r :: between)).rotated =
        if p.command.length < 255 then (l.run p before).current else l.rotated := by
  obtain ⟨current, totalLen, rotated⟩ := run_rotates rotates
  obtain ⟨current', rotated', -⟩ := @run_below p (l.run p (before ++ [r])) between
    (by rw [totalLen]; exact below)
  rw [run_split, current', rotated', current, rotated]
  exact ⟨rfl, rfl⟩

/-- The current file is the end of what it held with all that was written. -/
theorem current_suffix (p : RotatePolicy) (l : LogFiles) (messages : List Message) :
    (l.run p messages).current <:+ l.current ++ written messages := by
  rcases periods p l.totalLen messages with below | ⟨before, r, between, rfl, rotates, below⟩
  · rw [(run_below below).1]
  · rw [(run_behind rotates below).1, written_append, written_cons, ← List.append_assoc]
    exact List.suffix_append _ _

/-! ### The policy -/

theorem KeepsPolicy.spared (keeps : l.KeepsPolicy p messages) : l.Spared p messages where
  first before isPrefix some' below := by
    have bound := (keeps before isPrefix).1 some'
    rwa [(run_below below).1, List.length_append] at bound
  later before r between isPrefix rotates below := by
    have bound := (keeps _ isPrefix).1 (by simp)
    rwa [(run_behind rotates below).1, List.length_append] at bound
  copies := by
    rw [or_iff_not_imp_left]
    intro cut before r isPrefix rotates
    obtain ⟨lost, same⟩ := (keeps _ isPrefix).2
    obtain ⟨current, -, rotated⟩ := run_rotates rotates
    rw [current, rotated, if_neg cut, written_append, written_cons, written_nil, List.append_nil,
      ← List.append_assoc, ← List.append_assoc] at same
    exact ⟨lost, List.append_cancel_right same⟩

theorem Spared.keeps (spared : l.Spared p messages) : l.KeepsPolicy p messages := by
  intro before isPrefix
  rcases periods p l.totalLen before with below | ⟨front, r, between, rfl, rotates, below⟩
  · obtain ⟨current, rotated, -⟩ := run_below below
    rw [current, rotated, List.length_append, List.append_assoc]
    exact ⟨fun some' => spared.first before isPrefix some' below, List.suffix_rfl⟩
  · obtain ⟨current, rotated⟩ := run_behind rotates below
    rw [current, rotated, List.length_append, written_append, written_cons]
    refine ⟨fun _ => spared.later front r between isPrefix rotates below, ?_⟩
    have before : (if p.command.length < 255 then (l.run p front).current else l.rotated) <:+
        l.rotated ++ l.current ++ written front := by
      split_ifs with fits
      · rw [List.append_assoc]
        exact (current_suffix p l front).trans (List.suffix_append _ _)
      · have upTo : front ++ [r] <+: messages :=
          (List.prefix_append_right_inj front).mpr (by simp) |>.trans isPrefix
        exact spared.copies.resolve_left fits front r upTo rotates
    obtain ⟨lost, same⟩ := before
    exact ⟨lost, by rw [← List.append_assoc lost, same, List.append_assoc]⟩

/-- For every policy, whatever the files and the counter hold when it is set, and for every sequence
of messages: the policy is kept if and only if there is space in front of the first rotation for what
the file held and behind the others for the message that caused them, and the command to copy the
file is not cut. -/
theorem keepsPolicy_iff_spared (p : RotatePolicy) (l : LogFiles) (messages : List Message) :
    l.KeepsPolicy p messages ↔ l.Spared p messages :=
  ⟨KeepsPolicy.spared, Spared.keeps⟩

/-- A message of a given length whose text is one byte repeated. -/
def filler {len : ℕ} {b : UInt8} (long : headerLength ≤ len) (short : len < 4096) (nonzero : b ≠ 0) :
    Message where
  text := List.replicate len b
  plain member := nonzero (List.eq_of_mem_replicate member).symm
  long := by simpa using long
  short := by simpa using short

/-- Messages can have any length in total from that of a header on. -/
theorem exists_written {total : ℕ} (long : headerLength ≤ total) :
    ∃ messages : List Message, (written messages).length = total := by
  induction total using Nat.strongRecOn with
  | ind total ih =>
    rw [headerLength] at long
    by_cases short : total < 4096
    · exact ⟨[@filler total 65 long short (by decide)], by simp [written, filler]⟩
    · obtain ⟨rest, sum⟩ := ih (total - headerLength) (by rw [headerLength]; omega)
        (by rw [headerLength]; omega)
      refine ⟨@filler headerLength 65 le_rfl (by decide) (by decide) :: rest, ?_⟩
      rw [written_cons, List.length_append, sum]
      simp only [filler, List.length_replicate, headerLength]
      omega

/-- No policy is kept by every sequence: behind a rotation there is always space for one message less
than the counter allows. -/
theorem exists_not_keepsPolicy (p : RotatePolicy) (l : LogFiles) :
    ∃ messages, ¬l.KeepsPolicy p messages := by
  by_contra! keeps
  have spared : ∀ messages, l.Spared p messages := fun messages => (keeps messages).spared
  obtain ⟨many, length⟩ := @exists_written (p.rotateBytes + headerLength) (by omega)
  have some' : many ≠ [] := by
    rintro rfl
    simp [headerLength] at length
  rcases periods p l.totalLen many with below | ⟨before, r, between, -, rotates, -⟩
  · have bound := (spared many).first many List.prefix_rfl some' below
    omega
  · have long := r.long
    have bound := (spared (before ++ [r])).later before r [] List.prefix_rfl rotates (below_nil 0)
    rw [written_nil, List.length_nil, Nat.add_zero] at bound
    obtain ⟨full, length⟩ := @exists_written (p.rotateBytes - 1) (by omega)
    have below : p.Below 0 full := by
      intro front isPrefix _
      obtain ⟨back, rfl⟩ := isPrefix
      rw [written_append, List.length_append] at length
      have inRange := p.inRange
      rw [RotatePolicy.Reaches, Nat.zero_add, Nat.mod_eq_of_lt (by omega)]
      omega
    have outgrown := (spared _).later before r full List.prefix_rfl rotates below
    rw [headerLength] at long
    omega

/-- The current file has 100 bytes already, and its policy is to rotate at 100. -/
theorem not_keepsPolicy_existing : ¬∀ (p : RotatePolicy) (l : LogFiles) (messages : List Message),
    l.KeepsPolicy p messages := by
  intro keeps
  have bound := (keeps ⟨[97], [98], 100, by decide⟩ ⟨List.replicate 100 65, [], 0, by decide⟩
    [@filler headerLength 65 le_rfl (by decide) (by decide)] _ List.prefix_rfl).1
      (List.cons_ne_nil _ _)
  exact absurd bound (by decide)

end LogFiles

end AmlCommonlib.AmlLog
