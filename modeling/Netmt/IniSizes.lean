import Netmt.IniLoaded

/-!
# Sizes while a file is loaded

What `strcpy`, `sprintf` and `sscanf` write while `ReadFromFile` runs, with the size of
what they write to. A piece that `fgets` returns has at most 254 bytes, and nothing
that is taken from `strBuf` is longer than `strBuf`.
-/
namespace NetmtIniSizes

open NetmtIniStr NetmtIniConf NetmtIniLookup NetmtIniLoaded

/-- The size of a destination, and the number of bytes written to it. -/
structure Copy where
  size : Nat
  bytes : Nat
  deriving DecidableEq, Repr

/-- `strcpy`, to a buffer of that size. -/
def strcpy (size : Nat) (s : List UInt8) : Copy := ⟨size, s.length + 1⟩

def AllFit (copies : List Copy) : Prop := ∀ c ∈ copies, c.bytes ≤ c.size

instance (copies : List Copy) : Decidable (AllFit copies) :=
  inferInstanceAs (Decidable (∀ c ∈ copies, c.bytes ≤ c.size))

theorem allFit_nil : AllFit [] := fun _ hc => absurd hc List.not_mem_nil

theorem allFit_append (l l' : List Copy) : AllFit (l ++ l') ↔ AllFit l ∧ AllFit l' :=
  List.forall_mem_append

theorem allFit_cons (c : Copy) (l : List Copy) : AllFit (c :: l) ↔ c.bytes ≤ c.size ∧ AllFit l :=
  List.forall_mem_cons

theorem allFit_strcpy (size : Nat) (s : List UInt8) : AllFit [strcpy size s] ↔ s.length < size := by
  rw [allFit_cons]
  exact ⟨fun h => h.1, fun h => ⟨h, allFit_nil⟩⟩

/-! ## What is copied -/

/-- `CComment(const char *)`: the `#`, to a buffer made for the comment. -/
def newCommentCopies (comment : List UInt8) : List Copy :=
  if comment.head? = some 35 then [] else [⟨comment.length + 2, 2⟩]

/-- `CComment::Push(const char *)` -/
def pushTextCopies (chain : List (List UInt8)) (comment : List UInt8) : List Copy :=
  if chain.contains comment then [] else newCommentCopies comment

/-- `CRecord::SetValue`, to `m_strValue[256]`. -/
def recordValueCopies (value : List UInt8) : List Copy :=
  if value = [] ∨ value = defaultWord then [] else [strcpy 256 value]

/-- `CRecord(name, value)`, with `m_strName[256]`. -/
def newRecordCopies (name value : List UInt8) : List Copy :=
  if name = [] then [] else strcpy 256 name :: recordValueCopies value

/-- `CSection::SetValue` -/
def setValueCopies (name recordName value : List UInt8) (s : CSection) : List Copy :=
  if s.name ≠ name then []
  else
    match s.searchRecord recordName with
    | some _ => recordValueCopies value
    | none => newRecordCopies recordName value

/-- `CSection::SetEnumValue`, which makes a `CEnumValue` with `m_strValue[256]`. -/
def setEnumValueCopies (name value : List UInt8) (s : CSection) : List Copy :=
  if s.name ≠ name then [] else [strcpy 256 value]

/-- `CSection(section, column)`, with `m_strSection[256]`, where there is none yet. -/
def selectSectionCopies (name : List UInt8) (c : CConfOpt) : List Copy :=
  if (c.searchSection name).isSome then [] else [strcpy 256 name]

def onSectionCopies (copies : CSection → List Copy) (c : CConfOpt) : List Copy :=
  match c.cSection.bind fun name => c.searchSection name with
  | none => []
  | some s => copies s

/-- `sscanf(s, "%s", dest)` -/
def scanWordCopies (size : Nat) (s : List UInt8) : List Copy :=
  if firstWord s = [] then [] else [strcpy size (firstWord s)]

/-- The loop over the words of a line, with `strValue[256]`. Where it stands still, the
copies of one pass are meant for all. -/
def enumCopies (strSection : List UInt8) : Nat → Nat → Reader → List Copy
  | 0, _, _ => []
  | fuel + 1, pTemp, r =>
    let start := pTemp + ((r.strBuf.drop pTemp).takeWhile isDelimiter).length
    match r.strBuf.drop start with
    | [] => []
    | c :: rest =>
      if c = 0 then []
      else if 0 ∈ rest then
        let s := (c :: rest).takeWhile (· ≠ 0)
        let strValue := scanWord s r.strValue
        scanWordCopies 256 s ++ onSectionCopies (setEnumValueCopies strSection strValue) r.conf ++
          if strValue = [] then []
          else
            match r.conf.onSection fun s => some (s.setEnumValue strSection strValue) with
            | none => []
            | some conf =>
              enumCopies strSection fuel (start + strValue.length)
                { r with conf := conf, strValue := strValue }
      else []

/-- One pass of the loop of `ReadFromFile`, with `strSection[256]` and `strValue[256]`. -/
def lineCopies (r : Reader) (line : List UInt8) : List Copy :=
  let r := { r with strBuf := putString r.strBuf line }
  let text := lineText line
  let cFirst := firstValidChar text
  if cFirst = 0 then []
  else if cFirst = 91 then
    if 93 ∈ text then
      let name := format (sectionText text)
      strcpy 256 name :: selectSectionCopies name r.conf
    else []
  else if cFirst = 35 ∨ cFirst = 59 ∨ r.strSection = [] then
    let comment := leftTrim (rightTrim text)
    if r.conf.chainComment = [] then newCommentCopies comment
      else pushTextCopies r.conf.chainComment comment
  else if r.conf.cSection = none then []
  else if 61 ∈ text then
    let parts := separateByFirstDelimiter text 61
    strcpy 256 ((text.dropWhile (· ≠ 61)).drop 1) ::
      onSectionCopies (setValueCopies r.strSection parts.1 parts.2) r.conf
  else enumCopies r.strSection 257 0 r

/-- The passes up to the last that comes to its end. -/
def linesCopies : List (List UInt8) → Reader → List Copy
  | [], _ => []
  | line :: lines, r => lineCopies r line ++
      match readLine r line with
      | none => []
      | some r => linesCopies lines r

/-- `ReadFromFile` on a file that opens. -/
def loadCopies (junk text : List UInt8) : List Copy :=
  linesCopies (fgetsAll [] text) ⟨.initial, junk, [], []⟩

/-! ## Lengths -/

theorem length_lineText_le (line : List UInt8) : (lineText line).length ≤ line.length :=
  (List.takeWhile_prefix _).length_le

theorem length_putString {buf s : List UInt8} (hbuf : buf.length = 256) (hs : s.length < 256) :
    (putString buf s).length = 256 := by
  rw [putString, List.length_append, List.length_cons, List.length_drop, hbuf]
  omega

/-- The last `]` makes room for the blank. -/
theorem length_sectionText_le {line : List UInt8} (hclosed : 93 ∈ line) :
    (sectionText line).length ≤ line.length := by
  have hne : line.rdropWhile (· ≠ 93) ≠ [] := by
    intro hnil
    rw [List.rdropWhile_eq_nil_iff] at hnil
    simpa using hnil 93 hclosed
  have hshort : (line.rdropWhile (· ≠ 93)).dropLast.length + 1 ≤ line.length := by
    have hpos := List.length_pos_of_ne_nil hne
    have hle : (line.rdropWhile (· ≠ 93)).length ≤ line.length :=
      (List.rdropWhile_prefix _ _).length_le
    rw [List.length_dropLast]
    omega
  rw [sectionText]
  generalize (line.rdropWhile (· ≠ 93)).dropLast = text at hshort ⊢
  have hsplit := congrArg List.length (List.takeWhile_append_dropWhile (p := (· ≠ 91)) (l := text))
  rw [List.length_append] at hsplit
  rw [List.length_append, List.length_cons, List.length_drop]
  omega

theorem length_firstWord_le (s : List UInt8) : (firstWord s).length ≤ s.length :=
  (List.takeWhile_prefix _).length_le.trans (List.length_dropWhile_le _ _)

theorem scanWord_eq (s strValue : List UInt8) :
    scanWord s strValue = if firstWord s = [] then strValue else firstWord s := rfl

/-- `fgets` cuts at the 254th byte. -/
theorem length_fgetsAll {text line : List UInt8} (hline : line.length ≤ 253) :
    ∀ l ∈ fgetsAll line text, l.length ≤ 254 := by
  induction text generalizing line with
  | nil =>
    intro l hl
    rw [fgetsAll] at hl
    split at hl
    · cases hl
    · rw [List.mem_singleton.mp hl]
      omega
  | cons c text ih =>
    intro l hl
    rw [fgetsAll] at hl
    split at hl
    · rcases List.mem_cons.mp hl with rfl | hl
      · rw [List.length_append, List.length_singleton]
        omega
      · exact ih (Nat.zero_le _) l hl
    · next hgo =>
      rw [not_or] at hgo
      refine ih ?_ l hl
      rw [List.length_append, List.length_singleton]
      omega

/-! ## The parts -/

/-- The enumerated values of a section fit their buffers, and so does their width. -/
structure ShortSection (s : CSection) : Prop where
  enums : ∀ v ∈ s.enums, v.length ≤ 255
  maxWidth : s.maxWidth ≤ 255

def ShortSections (c : CConfOpt) : Prop := ∀ s ∈ c.sections, ShortSection s

section Parts

variable {c c' : CConfOpt} {name value : List UInt8}

theorem newCommentCopies_fit (comment : List UInt8) : AllFit (newCommentCopies comment) := by
  rw [newCommentCopies]
  split
  · exact allFit_nil
  · rw [allFit_cons]
    exact ⟨Nat.le_add_left _ _, allFit_nil⟩

theorem pushTextCopies_fit (chain : List (List UInt8)) (comment : List UInt8) :
    AllFit (pushTextCopies chain comment) := by
  rw [pushTextCopies]
  split
  · exact allFit_nil
  · exact newCommentCopies_fit comment

theorem recordValueCopies_fit (hvalue : value.length ≤ 255) : AllFit (recordValueCopies value) := by
  rw [recordValueCopies]
  split
  · exact allFit_nil
  · exact (allFit_strcpy 256 value).mpr (Nat.lt_succ_of_le hvalue)

theorem newRecordCopies_fit (hname : name.length ≤ 255) (hvalue : value.length ≤ 255) :
    AllFit (newRecordCopies name value) := by
  rw [newRecordCopies]
  split
  · exact allFit_nil
  · rw [allFit_cons]
    exact ⟨Nat.succ_le_succ hname, recordValueCopies_fit hvalue⟩

theorem setValueCopies_fit (k : List UInt8) (hname : name.length ≤ 255)
    (hvalue : value.length ≤ 255) (s : CSection) : AllFit (setValueCopies k name value s) := by
  rw [setValueCopies]
  split
  · exact allFit_nil
  · split
    · exact recordValueCopies_fit hvalue
    · exact newRecordCopies_fit hname hvalue

theorem setEnumValueCopies_fit (k : List UInt8) (hvalue : value.length ≤ 255) (s : CSection) :
    AllFit (setEnumValueCopies k value s) := by
  rw [setEnumValueCopies]
  split
  · exact allFit_nil
  · exact (allFit_strcpy 256 value).mpr (Nat.lt_succ_of_le hvalue)

theorem selectSectionCopies_fit (hname : name.length ≤ 255) (c : CConfOpt) :
    AllFit (selectSectionCopies name c) := by
  rw [selectSectionCopies]
  split
  · exact allFit_nil
  · exact (allFit_strcpy 256 name).mpr (Nat.lt_succ_of_le hname)

theorem onSectionCopies_fit {copies : CSection → List Copy}
    (h : ∀ s, AllFit (copies s)) (c : CConfOpt) :
    AllFit (onSectionCopies copies c) := by
  rw [onSectionCopies]
  split
  · exact allFit_nil
  · exact h _

theorem ShortSections.onSection {f : CSection → Option CSection} (h : ShortSections c)
    (hf : ∀ s s', f s = some s' → ShortSection s → ShortSection s') (hc : c.onSection f = some c') :
    ShortSections c' := by
  obtain ⟨k, s, s', -, hs, hfs, -, rfl⟩ := onSection_spec hc
  exact Keyed.forall_modify CSection.name h fun _ _ _ => hf s s' hfs (h s (Keyed.lookup_mem _ hs).1)

theorem ShortSections.selectSection (h : ShortSections c) (name : List UInt8) :
    ShortSections (c.selectSection name) := by
  intro s hs
  rcases mem_selectSection hs with rfl | hs
  · exact ⟨fun v hv => absurd hv List.not_mem_nil, (by decide : 10 ≤ 255)⟩
  · exact h s hs

theorem ShortSection.setComment {comment : List (List UInt8)} {s s' : CSection}
    (hset : s.setComment comment = some s') (h : ShortSection s) : ShortSection s' := by
  obtain ⟨chain, rfl, -⟩ := setComment_cases hset
  exact ⟨h.enums, h.maxWidth⟩

theorem ShortSection.setValue {k : List UInt8} {comment : List (List UInt8)} {s s' : CSection}
    (hset : s.setValue k name value comment = some s') (h : ShortSection s) : ShortSection s' := by
  cases setValue_cases hset <;> exact ⟨h.enums, h.maxWidth⟩

theorem ShortSection.setEnumValue {s : CSection} (k : List UInt8) (hvalue : value.length ≤ 255)
    (h : ShortSection s) : ShortSection (s.setEnumValue k value) := by
  refine ⟨fun v hv => ?_, ?_⟩
  · rcases setEnumValue_enums hv with hv | rfl
    · exact h.enums v hv
    · exact hvalue
  · rw [CSection.setEnumValue]
    split
    · exact h.maxWidth
    · exact Nat.max_le.mpr ⟨h.maxWidth, hvalue⟩

end Parts

/-! ## The reader -/

/-- `strBuf[256]`, and a string in `strValue[256]`. -/
structure Sized (r : Reader) : Prop where
  strBuf : r.strBuf.length = 256
  strValue : r.strValue.length ≤ 255
  sections : ShortSections r.conf

section Reader

variable {r r' : Reader} {line : List UInt8}

/-- What is scanned ends in front of a NUL of `strBuf`. -/
theorem length_scanned {buf rest : List UInt8} {n : Nat} {c : UInt8} (hbuf : buf.length = 256)
    (hdrop : buf.drop n = c :: rest) (hnul : 0 ∈ c :: rest) :
    ((c :: rest).takeWhile (· ≠ 0)).length ≤ 255 := by
  have hlen := congrArg List.length hdrop
  rw [List.length_drop, hbuf] at hlen
  have hsplit :=
    congrArg List.length (List.takeWhile_append_dropWhile (p := (· ≠ 0)) (l := c :: rest))
  have hne : (c :: rest).dropWhile (· ≠ 0) ≠ [] := by
    intro hnil
    rw [List.dropWhile_eq_nil_iff] at hnil
    simpa using hnil 0 hnul
  have hpos := List.length_pos_of_ne_nil hne
  rw [List.length_append] at hsplit
  omega

theorem length_scanWord {s strValue : List UInt8} (hs : s.length ≤ 255)
    (hvalue : strValue.length ≤ 255) :
    (scanWord s strValue).length ≤ 255 := by
  rw [scanWord_eq]
  split
  · exact hvalue
  · exact (length_firstWord_le s).trans hs

theorem scanWordCopies_fit {size : Nat} {s : List UInt8} (hs : s.length < size) :
    AllFit (scanWordCopies size s) := by
  rw [scanWordCopies]
  split
  · exact allFit_nil
  · exact (allFit_strcpy size _).mpr (Nat.lt_of_le_of_lt (length_firstWord_le s) hs)

theorem enumCopies_fit (strSection : List UInt8) (fuel pTemp : Nat) (h : Sized r) :
    AllFit (enumCopies strSection fuel pTemp r) := by
  induction fuel generalizing pTemp r with
  | zero => exact allFit_nil
  | succ fuel ih =>
    rw [enumCopies]
    simp only
    split
    · exact allFit_nil
    · next c rest hdrop =>
      split
      · exact allFit_nil
      · split
        · next hnul =>
          have hscan := length_scanned h.strBuf hdrop (List.mem_cons_of_mem _ hnul)
          have hword := length_scanWord hscan h.strValue
          rw [allFit_append, allFit_append]
          refine ⟨⟨scanWordCopies_fit (Nat.lt_succ_of_le hscan),
            onSectionCopies_fit (setEnumValueCopies_fit strSection hword) _⟩, ?_⟩
          split
          · exact allFit_nil
          · split
            · exact allFit_nil
            · next conf hconf =>
              refine ih _ ⟨h.strBuf, hword, h.sections.onSection (fun s s' hset hs => ?_) hconf⟩
              cases hset
              exact hs.setEnumValue strSection hword
        · exact allFit_nil

theorem enumLoop_sized {strSection : List UInt8} {fuel pTemp : Nat} (h : Sized r)
    (hr : enumLoop strSection fuel pTemp r = some r') : Sized r' := by
  induction fuel generalizing pTemp r with
  | zero => cases hr
  | succ fuel ih =>
    obtain rfl | ⟨n, start, c, rest, conf, strValue, hfuel, -, hdrop, ⟨-, hnul⟩,
        rfl, -, hconf, hrest⟩ :=
      enumLoop_cases hr
    · exact h
    · cases hfuel
      have hscan := length_scanned h.strBuf hdrop (List.mem_cons_of_mem _ hnul)
      have hword := length_scanWord hscan h.strValue
      refine ih (r := { r with conf := conf, strValue := _ }) ⟨h.strBuf, hword,
        h.sections.onSection (fun s s' hset hs => ?_) hconf⟩ hrest
      cases hset
      exact hs.setEnumValue strSection hword

theorem length_parts_le (s : List UInt8) (d : UInt8) :
    (separateByFirstDelimiter s d).1.length ≤ s.length ∧
    (separateByFirstDelimiter s d).2.length ≤ s.length := by
  rw [separateByFirstDelimiter]
  split
  · refine ⟨(length_format_le _).trans (List.takeWhile_prefix _).length_le,
      (length_format_le _).trans ?_⟩
    rw [List.length_drop]
    exact (Nat.sub_le _ _).trans (List.length_dropWhile_le _ _)
  · exact ⟨length_format_le s, Nat.zero_le _⟩

/-- All copies of a pass. -/
theorem lineCopies_fit (h : Sized r) (hline : line.length ≤ 254) : AllFit (lineCopies r line) := by
  have htext := (length_lineText_le line).trans hline
  have hbuf : Sized { r with strBuf := putString r.strBuf line } :=
    ⟨length_putString h.strBuf (by omega), h.strValue, h.sections⟩
  rw [lineCopies]
  generalize lineText line = text at htext ⊢
  simp only
  split
  · exact allFit_nil
  · split
    · split
      · next hclosed =>
        have hname := (length_format_le (sectionText text)).trans (length_sectionText_le hclosed)
        rw [allFit_cons]
        exact ⟨Nat.succ_le_succ (by omega), selectSectionCopies_fit (by omega) _⟩
      · exact allFit_nil
    · split
      · split
        · exact newCommentCopies_fit _
        · exact pushTextCopies_fit _ _
      · split
        · exact allFit_nil
        · split
          · have hparts := length_parts_le text 61
            have hsecond : ((text.dropWhile (· ≠ 61)).drop 1).length ≤ text.length := by
              rw [List.length_drop]
              exact (Nat.sub_le _ _).trans (List.length_dropWhile_le _ _)
            rw [allFit_cons]
            exact ⟨Nat.succ_le_succ (by omega), onSectionCopies_fit
              (setValueCopies_fit _ (by omega) (by omega)) _⟩
          · exact enumCopies_fit _ 257 0 hbuf

/-- A pass leaves the buffers as they have to be. -/
theorem readLine_sized (h : Sized r) (hline : line.length ≤ 254) (hr : readLine r line = some r') :
    Sized r' := by
  have htext := (length_lineText_le line).trans hline
  have hbuf : Sized { r with strBuf := putString r.strBuf line } :=
    ⟨length_putString h.strBuf (by omega), h.strValue, h.sections⟩
  have hpass := readLine_pass hr
  generalize lineText line = text at htext hpass
  cases hpass with
  | blank _ => exact hbuf
  | nowhere _ _ _ => exact hbuf
  | header _ hsection =>
    rcases readSection_cases hsection with ⟨-, rfl⟩ | ⟨hclosed, conf, hconf, rfl⟩
    · exact hbuf
    · have hlen := length_sectionText_le hclosed
      have htrim := length_rightTrim_le (sectionText text)
      have hformat := length_format_le (sectionText text)
      have hconf' : ShortSections conf :=
        (h.sections.selectSection _).onSection (fun s s' hset hs => hs.setComment hset) hconf
      refine ⟨?_, h.strValue, hconf'⟩
      exact length_putString
        (length_putString (length_putString hbuf.strBuf (by omega)) (by omega)) (by omega)
  | comment _ _ _ hcomment =>
    cases hcomment
    have htrim := length_rightTrim_le text
    have hleft := length_leftTrim_le (rightTrim text)
    exact ⟨length_putString (length_putString hbuf.strBuf (by omega)) (by omega),
      h.strValue, h.sections⟩
  | record _ _ _ hrecord =>
    rw [readRecord] at hrecord
    obtain ⟨conf, hconf, rfl⟩ := Option.map_eq_some_iff.mp hrecord
    have hparts := length_parts_le text 61
    have hconf' : ShortSections conf :=
      ShortSections.onSection (c := r.conf) h.sections (fun s s' hset hs => hs.setValue hset) hconf
    have hvalue : (separateByFirstDelimiter text 61).2.length ≤ 255 := by omega
    exact ⟨hbuf.strBuf, hvalue, hconf'⟩
  | words _ _ _ hloop =>
    have hsized := enumLoop_sized hbuf hloop
    exact ⟨hsized.strBuf, hsized.strValue, hsized.sections⟩

end Reader

/-- Nothing that loading a file copies is too long. -/
theorem linesCopies_fit {lines : List (List UInt8)} {r : Reader} (h : Sized r)
    (hlines : ∀ l ∈ lines, l.length ≤ 254) : AllFit (linesCopies lines r) := by
  induction lines generalizing r with
  | nil => exact allFit_nil
  | cons line lines ih =>
    have hline := hlines line List.mem_cons_self
    rw [linesCopies, allFit_append]
    refine ⟨lineCopies_fit h hline, ?_⟩
    split
    · exact allFit_nil
    · next r' hr =>
      exact ih (readLine_sized h hline hr) fun l hl => hlines l (List.mem_cons_of_mem _ hl)

theorem sized_start {junk : List UInt8} (hjunk : junk.length = 256) :
    Sized ⟨.initial, junk, [], []⟩ :=
  ⟨hjunk, Nat.zero_le _, fun _ hs => absurd hs List.not_mem_nil⟩

theorem loadCopies_fit {junk : List UInt8} (hjunk : junk.length = 256) (text : List UInt8) :
    AllFit (loadCopies junk text) :=
  linesCopies_fit (sized_start hjunk) (length_fgetsAll (Nat.zero_le _))

/-- The values of a loaded configuration fit their buffers. -/
theorem readFromFile_short {junk text : List UInt8} (hjunk : junk.length = 256) {c : CConfOpt}
    (hload : readFromFile junk text = some c) : ShortSections c := by
  obtain ⟨r, hr, rfl⟩ := Option.map_eq_some_iff.mp hload
  exact (readLines_all (I := Sized) (Q := fun line => line.length ≤ 254)
    (fun r r' line h hline hr => readLine_sized h hline hr) (length_fgetsAll (Nat.zero_le _))
    (sized_start hjunk) hr).sections

end NetmtIniSizes
