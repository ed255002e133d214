import AmlCommonlib.Lib.Fgets

/-! # Looking up a password

`wpa_wifi_get_password_for_ssid` over the text of `wpa_supplicant.conf`. A line with the SSID in it
turns a flag on that nothing turns off, and the next psk is the password, in whatever block it is.
-/

namespace AmlCommonlib.WpaWifi

/-- `ssid="` -/
def ssidQuote : Bytes := [115, 115, 105, 100, 61, 34]

/-- `psk="` -/
def pskQuote : Bytes := [112, 115, 107, 61, 34]

/-- `strstr(line, ssid) && strstr(line, "ssid=\"")` -/
def mentions (ssid line : Bytes) : Bool := (strstr line ssid).isSome && (strstr line ssidQuote).isSome

/-- The text between `psk_start` and `psk_end`, if the line has both. -/
def quotedPsk (line : Bytes) : Option Bytes :=
  match strstr line pskQuote with
  | none => none
  | some psk =>
    let pskStart := psk.drop 5
    (strchr pskStart 34).map fun pskEnd => pskStart.take pskEnd

/-- The loop over the lines that `fgets` reads. -/
def passwordScan (ssid : Bytes) : Bool → List Bytes → Option Bytes
  | _, [] => none
  | ssidFound, line :: rest =>
    let line := line.takeWhile (· != 0)
    if mentions ssid line then passwordScan ssid true rest
    else if ssidFound then
      match quotedPsk line with
      | some psk => some psk
      | none => passwordScan ssid ssidFound rest
    else passwordScan ssid ssidFound rest

/-- A line of the file. -/
inductive ConfLine where
  | ssid (indent text : Bytes)
  | psk (indent text : Bytes)
  | other (text : Bytes)

namespace ConfLine

/-- The line without its line end. -/
def text : ConfLine → Bytes
  | ssid indent text => indent ++ ssidQuote ++ text ++ [34]
  | psk indent text => indent ++ pskQuote ++ text ++ [34]
  | other text => text

/-- The lines of the file are text lines. The two that count are not longer than `fgets` can read. -/
def Valid (line : ConfLine) : Prop :=
  IsCString line.text ∧ 10 ∉ line.text ∧
    match line with
    | ssid indent _ | psk indent _ => (∀ b ∈ indent, b = 9 ∨ b = 32) ∧ line.text.length < 255
    | other text => ¬ssidQuote <:+: text ∧ ¬pskQuote <:+: text

instance : DecidablePred Valid
  | ssid indent text => inferInstanceAs (Decidable (_ ∧ _ ∧ (∀ b ∈ indent, b = 9 ∨ b = 32) ∧
      (ssid indent text).text.length < 255))
  | psk indent text => inferInstanceAs (Decidable (_ ∧ _ ∧ (∀ b ∈ indent, b = 9 ∨ b = 32) ∧
      (psk indent text).text.length < 255))
  | other text => inferInstanceAs (Decidable (_ ∧ _ ∧ ¬ssidQuote <:+: text ∧ ¬pskQuote <:+: text))

def ssid? : ConfLine → Option Bytes
  | ssid _ text => some text
  | _ => none

def psk? : ConfLine → Option Bytes
  | psk _ text => some text
  | _ => none

end ConfLine

/-- A network block: one line with an SSID and at most one with a psk, in any order. -/
structure NetworkBlock where
  lines : List ConfLine
  ssid : Bytes
  psk : Option Bytes
  valid : ∀ line ∈ lines, line.Valid
  isSsid : lines.filterMap ConfLine.ssid? = [ssid]
  isPsk : lines.filterMap ConfLine.psk? = psk.toList

/-- `wpa_supplicant.conf`: network blocks behind other lines. -/
structure WpaConf where
  header : List Bytes
  blocks : List NetworkBlock
  valid : ∀ text ∈ header, (ConfLine.other text).Valid

namespace WpaConf

def lines (conf : WpaConf) : List ConfLine :=
  conf.header.map ConfLine.other ++ conf.blocks.flatMap NetworkBlock.lines

/-- The lines with their line ends. -/
def texts (conf : WpaConf) : List Bytes := conf.lines.map fun line => line.text ++ [10]

def file (conf : WpaConf) : Bytes := conf.texts.flatten

/-- A block with just the SSID has the psk. -/
def HasPsk (conf : WpaConf) (ssid psk : Bytes) : Prop :=
  ∃ block ∈ conf.blocks, block.ssid = ssid ∧ block.psk = some psk

end WpaConf

/-! ### The lines that count -/

/-- The text stands between the first `psk="` of the line and the quote behind it. -/
def Quotes (line psk : Bytes) : Prop :=
  34 ∉ psk ∧ ∃ front back, line = front ++ (pskQuote ++ (psk ++ 34 :: back)) ∧
    ∀ front' back', line = front' ++ (pskQuote ++ back') → front.length ≤ front'.length

namespace ConfLine

/-- Both the SSID and `ssid="` stand somewhere in the line. -/
def Mentions (ssid : Bytes) (line : ConfLine) : Prop :=
  ssid <:+: line.text ++ [10] ∧ ssidQuote <:+: line.text ++ [10]

/-- The line has a psk and does not mention the SSID. -/
def Offers (ssid : Bytes) (line : ConfLine) : Prop :=
  ¬line.Mentions ssid ∧ ∃ psk, Quotes (line.text ++ [10]) psk

/-- The line is the first with a psk behind the first that mentions the SSID. -/
def Answers (ssid : Bytes) (lines : List ConfLine) (line : ConfLine) : Prop :=
  ∃ before mention between after, lines = before ++ mention :: (between ++ line :: after) ∧
    (∀ l ∈ before, ¬l.Mentions ssid) ∧ mention.Mentions ssid ∧ (∀ l ∈ between, ¬l.Offers ssid) ∧
    line.Offers ssid

end ConfLine

namespace WpaConf

/-- The psk line of a block with just the SSID, whose psk has no quote in it. -/
def OwnPsk (conf : WpaConf) (ssid : Bytes) (line : ConfLine) : Prop :=
  ∃ block ∈ conf.blocks, block.ssid = ssid ∧ line ∈ block.lines ∧
    ∃ indent psk, line = .psk indent psk ∧ 34 ∉ psk

/-- The line that answers is such a line, or has the psk of such a block by accident, and if none
answers no such block has a psk. -/
structure Exact (conf : WpaConf) (ssid : Bytes) : Prop where
  own : ∀ line, ConfLine.Answers ssid conf.lines line → conf.OwnPsk ssid line ∨
    ∃ psk, Quotes (line.text ++ [10]) psk ∧ conf.HasPsk ssid psk
  silent : (∀ line, ¬ConfLine.Answers ssid conf.lines line) → ∀ psk, ¬conf.HasPsk ssid psk

end WpaConf

/-! ### The lines that are read -/

theorem mentions_iff {ssid line : Bytes} : mentions ssid line ↔ ssid <:+: line ∧ ssidQuote <:+: line := by
  rw [mentions, Bool.and_eq_true, strstr_isSome_iff, strstr_isSome_iff]

/-- A line that plays no part. -/
structure Inert (line : Bytes) : Prop where
  ssid : ¬ssidQuote <:+: line
  psk : ¬pskQuote <:+: line
  plain : IsCString line

theorem passwordScan_inert {ssid : Bytes} {parts : List Bytes} (inert : ∀ part ∈ parts, Inert part)
    (ssidFound : Bool) (lines : List Bytes) :
    passwordScan ssid ssidFound (parts ++ lines) = passwordScan ssid ssidFound lines := by
  induction parts with
  | nil => rfl
  | cons part parts ih =>
    have here := inert part (List.mem_cons_self ..)
    have unmentioned : ¬mentions ssid part := fun mentioned => here.ssid (mentions_iff.mp mentioned).2
    have none' : quotedPsk part = none := by
      rw [quotedPsk, strstr_eq_none_iff.mpr here.psk]
    have rest := ih fun part member => inert part (List.mem_cons_of_mem _ member)
    rw [List.cons_append, passwordScan, takeWhile_plain here.plain]
    simp only [unmentioned, none', rest, Bool.false_eq_true, if_false, ite_self]

/-- A pattern without a line end is not found through one. -/
theorem infix_line_iff {pattern text : Bytes} (oneLine : 10 ∉ pattern) :
    pattern <:+: text ++ [10] ↔ pattern <:+: text := by
  constructor
  · intro inside
    rcases List.infix_concat_iff.mp inside with isSuffix | inside
    · rcases List.suffix_concat_iff.mp isSuffix with rfl | ⟨start, rfl, -⟩
      · exact List.nil_infix
      · exact absurd (by simp) oneLine
    · exact inside
  · intro inside
    exact inside.trans List.infix_append_left

theorem ConfLine.other_inert {text part : Bytes} (valid : (other text).Valid)
    (inside : part <:+: text ++ [10]) : Inert part := by
  obtain ⟨plain, -, noSsid, noPsk⟩ := valid
  refine ⟨?_, ?_, ?_⟩
  · intro found
    exact noSsid ((infix_line_iff (by decide)).mp (found.trans inside))
  · intro found
    exact noPsk ((infix_line_iff (by decide)).mp (found.trans inside))
  · intro member
    have := inside.subset member
    rw [List.mem_append, List.mem_singleton] at this
    exact this.elim plain (by decide)

/-- What `fgets` reads serves the loop like the lines. -/
theorem ConfLine.reads {lines : List ConfLine} (valid : ∀ line ∈ lines, line.Valid) (ssid : Bytes) :
    ∃ parts, Reads 256 (lines.map fun line => line.text ++ [10]).flatten parts ∧
      ∀ ssidFound, passwordScan ssid ssidFound parts =
        passwordScan ssid ssidFound (lines.map fun line => line.text ++ [10]) := by
  induction lines with
  | nil => exact ⟨[], Reads.nil _, fun _ => rfl⟩
  | cons line lines ih =>
    obtain ⟨parts, reads, same⟩ := ih fun line member => valid line (List.mem_cons_of_mem _ member)
    have here := valid line (List.mem_cons_self ..)
    obtain ⟨plain, oneLine, kind⟩ := here
    rw [List.map_cons, List.flatten_cons, List.append_assoc, List.singleton_append]
    cases line with
    | ssid indent text =>
      refine ⟨_, reads.line oneLine (by omega), fun ssidFound => ?_⟩
      simp only [passwordScan, same]
    | psk indent text =>
      refine ⟨_, reads.line oneLine (by omega), fun ssidFound => ?_⟩
      simp only [passwordScan, same]
    | other text =>
      have isOther : (other text).Valid := ⟨plain, oneLine, kind⟩
      obtain ⟨pieces, inside, behind⟩ := Reads.parts (by decide) oneLine reads
      refine ⟨_, behind, fun ssidFound => ?_⟩
      have whole : ∀ part ∈ [text ++ [10]], Inert part := fun part member =>
        other_inert isOther (List.mem_singleton.mp member ▸ List.infix_rfl)
      calc passwordScan ssid ssidFound (pieces ++ parts)
        _ = passwordScan ssid ssidFound parts :=
          passwordScan_inert (fun part member => other_inert isOther (inside part member)) ..
        _ = passwordScan ssid ssidFound (lines.map fun line => line.text ++ [10]) := same ssidFound
        _ = passwordScan ssid ssidFound ([text ++ [10]] ++ _) := (passwordScan_inert whole ..).symm

/-! ### The loop -/

theorem quotedPsk_eq_some_iff {line psk : Bytes} : quotedPsk line = some psk ↔ Quotes line psk := by
  rw [quotedPsk]
  constructor
  · intro quoted
    split at quoted
    next => cases quoted
    next text found =>
      obtain ⟨⟨behind, rfl⟩, front, whole, first⟩ := strstr_eq_some_iff.mp found
      obtain ⟨absent, back, same⟩ := (take_strchr_iff (by decide)).mp quoted
      have isBehind : behind = psk ++ 34 :: back := by
        simpa [pskQuote] using same
      exact ⟨absent, front, back, by rw [whole, isBehind], first⟩
  · rintro ⟨absent, front, back, whole, first⟩
    have found : strstr line pskQuote = some (pskQuote ++ (psk ++ 34 :: back)) :=
      strstr_eq_some_iff.mpr ⟨List.prefix_append _ _, front, whole, first⟩
    rw [found]
    exact (take_strchr_iff (by decide)).mpr ⟨absent, back, rfl⟩

/-- A line has one text between the quotes. -/
theorem Quotes.unique {line psk psk' : Bytes} (quotes : Quotes line psk) (quotes' : Quotes line psk') :
    psk = psk' :=
  Option.some.inj ((quotedPsk_eq_some_iff.mpr quotes).symm.trans (quotedPsk_eq_some_iff.mpr quotes'))

theorem ConfLine.Answers.quotes {ssid : Bytes} {lines : List ConfLine} {line : ConfLine}
    (answers : ConfLine.Answers ssid lines line) : ∃ psk, Quotes (line.text ++ [10]) psk := by
  obtain ⟨before, mention, between, after, -, -, -, -, -, quoted⟩ := answers
  exact quoted

/-- The psk line of a block has the block's psk between its quotes, unless there is a quote in it. -/
theorem WpaConf.OwnPsk.quotes {conf : WpaConf} {ssid : Bytes} {line : ConfLine}
    (own : conf.OwnPsk ssid line) : ∃ psk, Quotes (line.text ++ [10]) psk ∧ conf.HasPsk ssid psk := by
  obtain ⟨block, inConf, isSsid, inBlock, indent, psk, rfl, absent⟩ := own
  obtain ⟨-, -, blank, -⟩ := block.valid _ inBlock
  have isPsk : psk ∈ block.psk.toList := by
    rw [← block.isPsk]
    exact List.mem_filterMap.mpr ⟨_, inBlock, rfl⟩
  refine ⟨psk, ⟨absent, indent, [10], by simp [ConfLine.text], ?_⟩, block, inConf, isSsid,
    Option.mem_toList.mp isPsk⟩
  intro front back whole
  by_contra short
  -- a `p` would stand among the blanks
  have inIndent : (112 : UInt8) ∈ indent := by
    have same : (ConfLine.text (.psk indent psk) ++ [10])[front.length]? = some 112 := by
      rw [whole]
      simp [pskQuote]
    have inside : (ConfLine.text (.psk indent psk) ++ [10])[front.length]? = indent[front.length]? := by
      rw [ConfLine.text, List.append_assoc, List.append_assoc, List.append_assoc,
        List.getElem?_append_left (not_le.mp short)]
    exact List.mem_of_getElem? (inside.symm.trans same)
  rcases blank 112 inIndent with tab | space
  · exact absurd tab (by decide)
  · exact absurd space (by decide)

end AmlCommonlib.WpaWifi
