import Netmt.IniSizes
import Netmt.IniInt
import Netmt.Command

/-!
# Strings and the buffers they are copied to

What `strcpy`, `sprintf` and `sscanf` write while a value is got or set, from the name of
the file to the client record. `Format`, which stops the run where a string is blank,
is not one of them. Each request reads the file anew.
-/
namespace NetmtIniCopies

open NetmtIniStr NetmtIniConf NetmtIniLookup NetmtIniInt NetmtIniSizes
open NetmtCommand (LEN SOCKADDR_STRLEN)

structure IniFile where
  filename : List UInt8
  /-- `IsFile`: a regular file that may be written -/
  isFile : Bool
  /-- what is read when it opens for reading -/
  text : Option (List UInt8)
  /-- whether it opens for writing -/
  opens : Bool

/-- What `OpenFile(filename, "r")` leads to. -/
def IniFile.reads (f : IniFile) : Option (List UInt8) :=
  if f.filename ≠ [] ∧ f.isFile then f.text else none

/-- `CConfOpt(filename, 1)` -/
def IniFile.load (junk : List UInt8) (f : IniFile) : Option CConfOpt :=
  match f.reads with
  | none => some .initial
  | some text => readFromFile junk text

/-- With `m_strFileName[256]`, and `strMod[5]` of `OpenFile`. -/
def IniFile.openCopies (junk : List UInt8) (f : IniFile) : List Copy :=
  if f.filename = [] then []
  else strcpy 256 f.filename :: strcpy 5 [114] ::
    match f.reads with
    | none => []
    | some text => loadCopies junk text

/-! ## Values -/

/-- What is stored, for a section and a name as they are looked up. -/
def stored (sectionName name : List UInt8) (c : CConfOpt) : Option (List UInt8) :=
  ((c.searchSection (formatTo sectionName)).bind (CSection.searchRecord (formatTo name))).map
    CRecord.value

/-- `AddSection(name, 0, NULL)`, where there is no such section. -/
def addSectionCopies (name : List UInt8) (c : CConfOpt) : List Copy :=
  if (c.searchSection name).isSome then [] else strcpy 256 name :: newCommentCopies ruleComment

/-- A record without a value, and its comment. -/
def promptCopies (name comment : List UInt8) : List Copy :=
  (if comment = [] then [] else newCommentCopies comment) ++ newRecordCopies name []

/-- The private `GetValue`, to a buffer of that size. -/
def getTextCopies (size : Nat) (sectionName name comment : List UInt8) (c : CConfOpt) : List Copy :=
  if sectionName = [] ∨ name = [] then []
  else if FormatFits 256 sectionName ∧ FormatFits 128 name then
    addSectionCopies (formatTo sectionName) c ++
      match stored sectionName name c with
      | none => promptCopies (formatTo name) comment
      | some value => if value = [] then [] else [strcpy size value]
  else []

/-- `SetValue`, with `strValue[128]`. -/
def setTextCopies (sectionName name value : List UInt8) (c : CConfOpt) : List Copy :=
  if sectionName = [] ∨ name = [] then []
  else strcpy 128 value :: (selectSectionCopies (formatTo sectionName) c ++
    onSectionCopies (setValueCopies (formatTo sectionName) (formatTo name) value)
      (c.selectSection (formatTo sectionName)))

/-- `SetValue` of an `int`, with `strTemp[32]`. -/
def setIntCopies (sectionName name : List UInt8) (value : Int) (c : CConfOpt) : List Copy :=
  if sectionName = [] ∨ name = [] then []
  else strcpy 32 (printInt value) :: setTextCopies sectionName name (printInt value) c

/-- `GetValue` of an `int`, with `strValue[128]`; `sscanf` writes an `int` at most. -/
def getIntCopies (sectionName name : List UInt8) (defv : Int)
    (comment : List UInt8) (c : CConfOpt) :
    List Copy :=
  getTextCopies 128 sectionName name comment c ++
    match c.getStored 128 sectionName name comment with
    | none => []
    | some (some _, _) => [⟨4, 4⟩]
    | some (none, c) => if c.itemExist then [] else setIntCopies sectionName name defv c

/-- `GetValue` of a string, to a buffer of that size. -/
def getStringCopies (size : Nat) (sectionName name defv comment : List UInt8) (c : CConfOpt) :
    List Copy :=
  getTextCopies size sectionName name comment c ++
    match c.getStored size sectionName name comment with
    | none => []
    | some (some _, _) => []
    | some (none, c) =>
      (if defv = [] then [] else [strcpy size defv]) ++ setTextCopies sectionName name defv c

/-- What `GetValue` leaves in such a buffer. -/
def getString (size : Nat) (sectionName name defv comment : List UInt8) (c : CConfOpt) :
    Option (List UInt8) :=
  match c.getStored size sectionName name comment with
  | none => none
  | some (some text, _) => some text
  | some (none, c) => if defv.length < size then (c.setValue sectionName name defv).map fun _ =>
    defv else none

/-! ## Enumerated values -/

/-- `SetEnumValue`, where `stack` is the string that lies at `strValue[128]` before. -/
def setEnum (sectionName value stack : List UInt8) (c : CConfOpt) : Option CConfOpt :=
  if sectionName = [] ∨ value = [] then some c
  else if FormatFits 256 sectionName then
    (c.selectSection (formatTo sectionName)).onSection fun s =>
      some (s.setEnumValue (formatTo sectionName) (scanWord value stack))
  else none

def setEnumCopies (sectionName value stack : List UInt8) (c : CConfOpt) : List Copy :=
  if sectionName = [] ∨ value = [] then []
  else if FormatFits 256 sectionName then
    scanWordCopies 128 value ++ (selectSectionCopies (formatTo sectionName) c ++
      onSectionCopies (setEnumValueCopies (formatTo sectionName) (scanWord value stack))
        (c.selectSection (formatTo sectionName)))
  else []

/-- `CSection::Print`, with `strFormat[20]`. -/
def printCopies (s : CSection) : List Copy := [⟨20, (Nat.toDigits 10 (s.maxWidth + 1)).length + 4⟩]

/-- `WriteToFile` of a changed configuration, with `strTemp[256]` for the `cp` of the file. -/
def writeCopies (f : IniFile) (c : CConfOpt) : List Copy :=
  if f.filename = [] then []
  else (if f.isFile then [⟨256, 2 * f.filename.length + 9⟩] else []) ++
    strcpy 5 [119] :: (if f.opens then c.sections.flatMap printCopies else [])

/-! ## Requests -/

inductive Request where
  /-- `CGetValueInt` -/
  | valueInt (sectionName name : List UInt8) (defv : Int) (comment : List UInt8)
  /-- `CGetValueString`, with a buffer of 64 bytes -/
  | valueString (sectionName name defv comment : List UInt8)
  /-- `CSetEnumValue` -/
  | setEnumValue (sectionName value stack : List UInt8)

def requestCopies (junk : List UInt8) (f : IniFile) (q : Request) : List Copy :=
  f.openCopies junk ++
    match f.load junk with
    | none => []
    | some c =>
      match q with
      | .valueInt sectionName name defv comment => getIntCopies sectionName name defv comment c
      | .valueString sectionName name defv comment =>
        getStringCopies 64 sectionName name defv comment c
      | .setEnumValue sectionName value stack =>
        setEnumCopies sectionName value stack c ++
          match setEnum sectionName value stack c with
          | none => []
          | some c => writeCopies f c

/-- The string that is got, `[]` for the others; `none` for a request that does not
come to its end. -/
def answer (junk : List UInt8) (f : IniFile) (q : Request) : Option (List UInt8) :=
  match f.load junk with
  | none => none
  | some c =>
    match q with
    | .valueInt sectionName name defv comment =>
      (getValueInt (fun n => n) true sectionName name defv comment 0 c).map fun _ => []
    | .valueString sectionName name defv comment => getString 64 sectionName name defv comment c
    | .setEnumValue sectionName value stack => (setEnum sectionName value stack c).map fun _ => []

/-- One request after the other, each with a `strBuf` of its own. -/
def requestsCopies (f : IniFile) : List (List UInt8 × Request) → List Copy
  | [] => []
  | (junk, q) :: qs => requestCopies junk f q ++
      match answer junk f q with
      | none => []
      | some _ => requestsCopies f qs

/-- `"client"` -/
def clientWord : List UInt8 := [99, 108, 105, 101, 110, 116]

/-- `NETMT_REGISTER` of the client: `clienthost` with `0.0.0.0`, `clientport` with 1234,
`id` with 0, `area` and `subarea`. -/
def registerRequests (junk : Nat → List UInt8) : List (List UInt8 × Request) :=
  [(junk 0, .valueString clientWord [99, 108, 105, 101, 110, 116, 104, 111, 115, 116]
      [48, 46, 48, 46, 48, 46, 48] []),
    (junk 1, .valueInt clientWord [99, 108, 105, 101, 110, 116, 112, 111, 114, 116] 1234 []),
    (junk 2, .valueInt clientWord [105, 100] 0 []),
    (junk 3, .valueString clientWord [97, 114, 101, 97] [] []),
    (junk 4, .valueString clientWord [115, 117, 98, 97, 114, 101, 97] [] [])]

/-- The fields of `netmtclient_s`: `netmthost`, `area` and `type`. -/
def recordCopies : List (List UInt8) → List Copy
  | [host, _, _, area, type] => [strcpy SOCKADDR_STRLEN host, strcpy LEN area, strcpy LEN type]
  | _ => []

/-- The requests and then the record. -/
def registerCopies (junk : Nat → List UInt8) (f : IniFile) : List Copy :=
  requestsCopies f (registerRequests junk) ++
    match (registerRequests junk).mapM fun q => answer q.1 f q.2 with
    | none => []
    | some answers => recordCopies answers

/-! ## When they fit -/

/-- A value that is stored for names that can be looked up. -/
def ValueFits (limit : Nat) (sectionName name : List UInt8) (c : CConfOpt) : Prop :=
  FormatFits 256 sectionName → FormatFits 128 name →
    ∀ text, stored sectionName name c = some text → text.length ≤ limit

/-- That value, and the default where there is none. -/
def StringFits (limit : Nat) (sectionName name defv : List UInt8) (c : CConfOpt) : Prop :=
  if sectionName = [] ∨ name = [] then defv.length ≤ limit
  else ValueFits limit sectionName name c ∧
    (FormatFits 256 sectionName → FormatFits 128 name →
      stored sectionName name c = none ∨ stored sectionName name c = some [] → defv.length ≤ limit)

/-- The first word of the value, or what lies at `strValue` when it has none, and the
name of a file that has to be copied. -/
def EnumFits (f : IniFile) (sectionName value stack : List UInt8) : Prop :=
  (sectionName ≠ [] → value ≠ [] → FormatFits 256 sectionName →
    (firstWord value).length ≤ 127 ∧ (firstWord value = [] → stack.length ≤ 255)) ∧
  (sectionName = [] ∨ value = [] ∨ FormatFits 256 sectionName →
    f.filename ≠ [] → f.isFile = true → f.filename.length ≤ 123)

def RequestFits (junk : List UInt8) (f : IniFile) : Request → Prop
  | .valueInt sectionName name _ _ => ∀ c, f.load junk = some c → ValueFits 127 sectionName name c
  | .valueString sectionName name defv _ => ∀ c, f.load junk = some c →
      StringFits 63 sectionName name defv c
  | .setEnumValue sectionName value stack => ∀ c, f.load junk = some c →
      EnumFits f sectionName value stack

/-- Each request that is come to fits. -/
def RequestsFit (f : IniFile) : List (List UInt8 × Request) → Prop
  | [] => True
  | (junk, q) :: qs => RequestFits junk f q ∧ (answer junk f q ≠ none → RequestsFit f qs)

/-- The sizes that a caller keeps to. -/
def Request.Bounded : Request → Prop
  | .valueInt sectionName name defv _ => sectionName.length ≤ 127 ∧ name.length ≤ 127 ∧ InInt defv
  | .valueString sectionName name defv _ =>
    sectionName.length ≤ 127 ∧ name.length ≤ 127 ∧ defv.length ≤ 127
  | .setEnumValue sectionName _ _ => sectionName.length ≤ 127

/-! ## The parts -/

section Parts

variable {sectionName name : List UInt8}

theorem addSectionCopies_fit (hs : sectionName.length ≤ 255) (c : CConfOpt) :
    AllFit (addSectionCopies sectionName c) := by
  rw [addSectionCopies]
  split
  · exact allFit_nil
  · rw [allFit_cons]
    exact ⟨Nat.succ_le_succ hs, newCommentCopies_fit _⟩

theorem promptCopies_fit (hn : name.length ≤ 255) (comment : List UInt8) :
    AllFit (promptCopies name comment) := by
  rw [promptCopies, allFit_append]
  refine ⟨?_, newRecordCopies_fit hn (Nat.zero_le _)⟩
  split
  · exact allFit_nil
  · exact newCommentCopies_fit comment

theorem setTextCopies_fit {value : List UInt8} (hs : sectionName.length ≤ 127)
    (hn : name.length ≤ 127) (hvalue : value.length ≤ 127) (c : CConfOpt) :
    AllFit (setTextCopies sectionName name value c) := by
  have hs' := length_formatTo_le sectionName
  have hn' := length_formatTo_le name
  rw [setTextCopies]
  split
  · exact allFit_nil
  · rw [allFit_cons, allFit_append]
    exact ⟨Nat.succ_le_succ hvalue, selectSectionCopies_fit (by omega) c,
      onSectionCopies_fit (setValueCopies_fit _ (by omega) (by omega)) _⟩

/-- An `int` has at most a sign and ten digits. -/
theorem length_printInt {n : Int} (h : InInt n) : (printInt n).length ≤ 11 := by
  have hdigits : (Nat.toDigits 10 n.natAbs).length ≤ 10 := by
    rw [Nat.length_toDigits_le_iff (by decide) (by decide)]
    have hbounds := h
    rw [InInt] at hbounds
    omega
  rw [printInt, List.length_append, List.length_map]
  split
  · rw [List.length_singleton]
    omega
  · rw [List.length_nil]
    omega

theorem setIntCopies_fit (hs : sectionName.length ≤ 127) (hn : name.length ≤ 127) {defv : Int}
    (hdefv : InInt defv) (c : CConfOpt) : AllFit (setIntCopies sectionName name defv c) := by
  have hlen := length_printInt hdefv
  rw [setIntCopies]
  split
  · exact allFit_nil
  · rw [allFit_cons]
    exact ⟨Nat.succ_le_succ (by omega), setTextCopies_fit hs hn (by omega) c⟩

/-- Of what the private `GetValue` copies only the value may be too long. -/
theorem getTextCopies_fit_iff {limit : Nat} (hs : sectionName.length ≤ 127) (hn : name.length ≤ 127)
    (comment : List UInt8) (c : CConfOpt) :
    AllFit (getTextCopies (limit + 1) sectionName name comment c) ↔
    ValueFits limit sectionName name c := by
  have hs' := length_formatTo_le sectionName
  have hn' := length_formatTo_le name
  rw [getTextCopies, ValueFits]
  by_cases hnames : sectionName = [] ∨ name = []
  · rw [if_pos hnames]
    exact iff_of_true allFit_nil fun hs hn => absurd hnames (not_or.mpr ⟨hs.ne_nil, hn.ne_nil⟩)
  · rw [if_neg hnames]
    by_cases hfits : FormatFits 256 sectionName ∧ FormatFits 128 name
    · rw [if_pos hfits, allFit_append]
      have hadd : AllFit (addSectionCopies (formatTo sectionName) c) :=
        addSectionCopies_fit (by omega) c
      cases hstored : stored sectionName name c with
      | none =>
        exact iff_of_true ⟨hadd, promptCopies_fit (by omega) comment⟩ fun _ _ text htext => by
          cases htext
      | some value =>
        by_cases hempty : value = []
        · subst hempty
          refine iff_of_true ⟨hadd, allFit_nil⟩ fun _ _ text htext => ?_
          rw [← Option.some.inj htext]
          exact Nat.zero_le _
        · simp only [if_neg hempty, allFit_strcpy]
          constructor
          · intro h _ _ text htext
            rw [← Option.some.inj htext]
            exact Nat.le_of_lt_succ h.2
          · exact fun h => ⟨hadd, Nat.lt_succ_of_le (h hfits.1 hfits.2 value rfl)⟩
    · rw [if_neg hfits]
      exact iff_of_true allFit_nil fun hs hn => absurd ⟨hs, hn⟩ hfits

theorem getIntCopies_fit_iff (hs : sectionName.length ≤ 127) (hn : name.length ≤ 127) {defv : Int}
    (hdefv : InInt defv) (comment : List UInt8) (c : CConfOpt) :
    AllFit (getIntCopies sectionName name defv comment c) ↔ ValueFits 127 sectionName name c := by
  rw [getIntCopies, allFit_append, getTextCopies_fit_iff hs hn]
  refine and_iff_left ?_
  split
  · exact allFit_nil
  · rw [allFit_cons]
    exact ⟨Nat.le_refl 4, allFit_nil⟩
  · split
    · exact allFit_nil
    · exact setIntCopies_fit hs hn hdefv _

theorem stored_eq (hn : FormatFits 128 name) (c : CConfOpt) :
    stored sectionName name c = storedText sectionName name c := by
  have hne : formatTo name ≠ [] := by
    rw [formatTo_eq]
    exact format_ne_nil hn
  rw [stored, storedText, valueOf]
  cases c.searchSection (formatTo sectionName) with
  | none => rfl
  | some s => rw [Option.bind_some, Option.bind_some, CSection.searchRecord, if_neg hne]

/-- Names that can be looked up lead to the value, where there is one and it fits. -/
theorem getStored_eq (size : Nat) (hs : FormatFits 256 sectionName) (hn : FormatFits 128 name)
    (comment : List UInt8) (c : CConfOpt) : ∃ c', c.getStored size sectionName name comment =
      match (stored sectionName name c).filter (· ≠ []) with
      | some text => if text.length < size then some (some text, c') else none
      | none => some (none, c') := by
  rw [stored_eq hn, storedText, formatTo_eq, formatTo_eq]
  exact getStored_cases size hs hn comment c

theorem getStringCopies_fit_iff {limit : Nat} {defv : List UInt8} (hs : sectionName.length ≤ 127)
    (hn : name.length ≤ 127) (hdefv : defv.length ≤ 127) (comment : List UInt8) (c : CConfOpt) :
    AllFit (getStringCopies (limit + 1) sectionName name defv comment c) ↔
      StringFits limit sectionName name defv c := by
  have hdefault : ∀ d, AllFit ((if defv = [] then [] else [strcpy (limit + 1) defv]) ++
      setTextCopies sectionName name defv d) ↔ defv.length ≤ limit := by
    intro d
    rw [allFit_append, and_iff_left (setTextCopies_fit hs hn hdefv d)]
    by_cases hempty : defv = []
    · subst hempty
      exact iff_of_true allFit_nil (Nat.zero_le _)
    · rw [if_neg hempty, allFit_strcpy]
      exact Nat.lt_succ_iff
  rw [getStringCopies, allFit_append, getTextCopies_fit_iff hs hn, StringFits]
  by_cases hnames : sectionName = [] ∨ name = []
  · have hget : c.getStored (limit + 1) sectionName name comment = some (none, c) := by
      rw [CConfOpt.getStored, if_pos hnames]
    rw [hget, if_pos hnames]
    simp only [hdefault]
    exact and_iff_right fun hs hn => absurd hnames (not_or.mpr ⟨hs.ne_nil, hn.ne_nil⟩)
  · rw [if_neg hnames]
    by_cases hfits : FormatFits 256 sectionName ∧ FormatFits 128 name
    · obtain ⟨c', hget⟩ := getStored_eq (limit + 1) hfits.1 hfits.2 comment c
      refine and_congr_right fun _ => ?_
      rw [hget]
      cases hstored : stored sectionName name c with
      | none =>
        simp only [Option.filter_none, hdefault]
        exact ⟨fun h _ _ _ => h, fun h => h hfits.1 hfits.2 (.inl trivial)⟩
      | some value =>
        by_cases hempty : value = []
        · subst hempty
          change AllFit ((if defv = [] then [] else [strcpy (limit + 1) defv]) ++
            setTextCopies sectionName name defv c') ↔ _
          rw [hdefault]
          exact ⟨fun h _ _ _ => h, fun h => h hfits.1 hfits.2 (.inr rfl)⟩
        · have hfilter : (some value).filter (· ≠ []) = some value :=
            Option.filter_eq_some_iff.mpr ⟨rfl, by
            simpa using hempty⟩
          rw [hfilter]
          refine iff_of_true ?_ fun _ _ h => ?_
          · by_cases hlen : value.length < limit + 1 <;> simp only [hlen, if_true, if_false] <;>
              exact allFit_nil
          · rcases h with h | h
            · cases h
            · exact absurd (Option.some.inj h) hempty
    · have hget : c.getStored (limit + 1) sectionName name comment = none := by
        rw [CConfOpt.getStored, if_neg hnames, if_neg hfits]
      rw [hget]
      exact and_congr_right fun _ => iff_of_true allFit_nil fun hs hn => absurd ⟨hs, hn⟩ hfits

theorem getStored_short {size : Nat} {comment text : List UInt8} {c d : CConfOpt}
    (h : c.getStored size sectionName name comment = some (some text, d)) : text.length < size := by
  by_cases hnames : sectionName = [] ∨ name = []
  · rw [CConfOpt.getStored, if_pos hnames] at h
    cases h
  · by_cases hfits : FormatFits 256 sectionName ∧ FormatFits 128 name
    · obtain ⟨c', hget⟩ := getStored_eq size hfits.1 hfits.2 comment c
      rw [hget] at h
      split at h
      · split at h
        · next hlen =>
          cases h
          exact hlen
        · cases h
      · cases h
    · rw [CConfOpt.getStored, if_neg hnames, if_neg hfits] at h
      cases h

/-- A string that is got fits the buffer it was got in. -/
theorem getString_short {size : Nat} {defv comment value : List UInt8} {c : CConfOpt}
    (h : getString size sectionName name defv comment c = some value) : value.length < size := by
  rw [getString] at h
  split at h
  · cases h
  · next text d hget =>
    obtain rfl := Option.some.inj h
    exact getStored_short hget
  · split at h
    · next hlen =>
      obtain ⟨d, -, rfl⟩ := Option.map_eq_some_iff.mp h
      exact hlen
    · cases h

/-- The selected section takes the value that was scanned. -/
theorem onSectionCopies_selected (k value : List UInt8) (c : CConfOpt) :
    onSectionCopies (setEnumValueCopies k value) (c.selectSection k) = [strcpy 256 value] := by
  obtain ⟨s, hs⟩ := selectSection_search k c
  have hname : s.name = k := (Keyed.lookup_mem _ hs).2
  rw [onSectionCopies, selectSection_cSection, Option.bind_some, hs]
  exact if_neg fun h => h hname

theorem setEnumCopies_fit_iff (value stack : List UInt8)
    (hs : sectionName.length ≤ 127) (c : CConfOpt) :
    AllFit (setEnumCopies sectionName value stack c) ↔
      (sectionName ≠ [] → value ≠ [] → FormatFits 256 sectionName →
        (firstWord value).length ≤ 127 ∧ (firstWord value = [] → stack.length ≤ 255)) := by
  have hs' := length_formatTo_le sectionName
  rw [setEnumCopies]
  by_cases hnames : sectionName = [] ∨ value = []
  · rw [if_pos hnames]
    exact iff_of_true allFit_nil fun hs hvalue => absurd hnames (not_or.mpr ⟨hs, hvalue⟩)
  · rw [if_neg hnames]
    rw [not_or] at hnames
    by_cases hfits : FormatFits 256 sectionName
    · rw [if_pos hfits, allFit_append, allFit_append, onSectionCopies_selected, allFit_strcpy,
        scanWord_eq, scanWordCopies]
      have hselect : AllFit (selectSectionCopies (formatTo sectionName) c) :=
        selectSectionCopies_fit (by omega) c
      by_cases hword : firstWord value = []
      · rw [if_pos hword, if_pos hword, hword]
        constructor
        · exact fun h _ _ _ => ⟨Nat.zero_le _, fun _ => Nat.le_of_lt_succ h.2.2⟩
        · exact fun h =>
            ⟨allFit_nil, hselect, Nat.lt_succ_of_le ((h hnames.1 hnames.2 hfits).2 rfl)⟩
      · rw [if_neg hword, if_neg hword, allFit_strcpy]
        constructor
        · exact fun h _ _ _ => ⟨Nat.le_of_lt_succ h.1, fun hnil => absurd hnil hword⟩
        · intro h
          have hlen := (h hnames.1 hnames.2 hfits).1
          exact ⟨Nat.lt_succ_of_le hlen, hselect, by omega⟩
    · rw [if_neg hfits]
      exact iff_of_true allFit_nil fun _ _ h => absurd h hfits

/-- `SetEnumValue` goes wrong only in `Format`. -/
theorem setEnum_isSome_iff (value stack : List UInt8) (c : CConfOpt) :
    (∃ c', setEnum sectionName value stack c = some c') ↔
      (sectionName = [] ∨ value = [] ∨ FormatFits 256 sectionName) := by
  rw [setEnum]
  by_cases hnames : sectionName = [] ∨ value = []
  · rw [if_pos hnames]
    exact iff_of_true ⟨c, rfl⟩ (hnames.imp_right .inl)
  · rw [if_neg hnames]
    rw [not_or] at hnames
    by_cases hfits : FormatFits 256 sectionName
    · rw [if_pos hfits]
      obtain ⟨s, hs⟩ := selectSection_search (formatTo sectionName) c
      exact iff_of_true (onSection_isSome (selectSection_cSection _ c) hs ⟨_, rfl⟩)
        (.inr (.inr hfits))
    · rw [if_neg hfits]
      refine iff_of_false (fun h => ?_) fun h => ?_
      · obtain ⟨c', h⟩ := h
        cases h
      · exact (h.resolve_left hnames.1).elim hnames.2 hfits

/-- The width of a column takes a few digits. -/
theorem printCopies_fit {s : CSection} (h : s.maxWidth ≤ 255) : AllFit (printCopies s) := by
  have hdigits : (Nat.toDigits 10 (s.maxWidth + 1)).length ≤ 3 := by
    rw [Nat.length_toDigits_le_iff (by decide) (by decide)]
    omega
  rw [printCopies, allFit_cons]
  exact ⟨by change _ + 4 ≤ 20; omega, allFit_nil⟩

theorem writeCopies_fit_iff (f : IniFile) {c : CConfOpt} (h : ShortSections c) :
    AllFit (writeCopies f c) ↔ (f.filename ≠ [] → f.isFile = true → f.filename.length ≤ 123) := by
  rw [writeCopies]
  by_cases hname : f.filename = []
  · rw [if_pos hname]
    exact iff_of_true allFit_nil fun h => absurd hname h
  · rw [if_neg hname, allFit_append, allFit_cons]
    have hprint : AllFit (if f.opens then c.sections.flatMap printCopies else []) := by
      split
      · intro copy hcopy
        obtain ⟨s, hs, hmem⟩ := List.mem_flatMap.mp hcopy
        exact printCopies_fit (h s hs).maxWidth copy hmem
      · exact allFit_nil
    rw [and_iff_left (by exact ⟨by decide, hprint⟩)]
    cases hfile : f.isFile with
    | false => exact iff_of_true allFit_nil fun _ h => by cases h
    | true =>
      rw [if_pos rfl, allFit_cons]
      constructor
      · intro h _ _
        have hlen : 2 * f.filename.length + 9 ≤ 256 := h.1
        omega
      · intro h
        have hlen := h hname rfl
        exact ⟨by change 2 * f.filename.length + 9 ≤ 256; omega, allFit_nil⟩

theorem openCopies_fit {junk : List UInt8} (hjunk : junk.length = 256) {f : IniFile}
    (hfile : f.filename.length ≤ 255) : AllFit (f.openCopies junk) := by
  rw [IniFile.openCopies]
  split
  · exact allFit_nil
  · rw [allFit_cons, allFit_cons]
    refine ⟨Nat.succ_le_succ hfile, by decide, ?_⟩
    split
    · exact allFit_nil
    · exact loadCopies_fit hjunk _

theorem load_short {junk : List UInt8} (hjunk : junk.length = 256) {f : IniFile} {c : CConfOpt}
    (hload : f.load junk = some c) : ShortSections c := by
  rw [IniFile.load] at hload
  split at hload
  · obtain rfl := Option.some.inj hload
    exact fun s hs => absurd hs List.not_mem_nil
  · exact readFromFile_short hjunk hload

theorem setEnum_short {value stack : List UInt8} {c c' : CConfOpt} (h : ShortSections c)
    (hword : sectionName ≠ [] → value ≠ [] → FormatFits 256 sectionName →
      (firstWord value).length ≤ 127 ∧ (firstWord value = [] → stack.length ≤ 255))
    (hset : setEnum sectionName value stack c = some c') : ShortSections c' := by
  rw [setEnum] at hset
  split at hset
  · obtain rfl := Option.some.inj hset
    exact h
  · next hnames =>
    rw [not_or] at hnames
    split at hset
    · next hfits =>
      obtain ⟨hlen, hstack⟩ := hword hnames.1 hnames.2 hfits
      have hvalue : (scanWord value stack).length ≤ 255 := by
        rw [scanWord_eq]
        split
        · next hnil => exact hstack hnil
        · omega
      refine (h.selectSection _).onSection (fun s s' hs hshort => ?_) hset
      cases hs
      exact hshort.setEnumValue _ hvalue
    · cases hset

end Parts

/-! ## Requests -/

section Requests

variable {junk : List UInt8} {f : IniFile}

theorem request_fits_iff (hjunk : junk.length = 256) (hfile : f.filename.length ≤ 255) {q : Request}
    (hq : q.Bounded) : AllFit (requestCopies junk f q) ↔ RequestFits junk f q := by
  rw [requestCopies, allFit_append, and_iff_right (openCopies_fit hjunk hfile)]
  cases hload : f.load junk with
  | none =>
    cases q <;>
    · simp only [RequestFits, hload]
      exact iff_of_true allFit_nil fun c hc => by cases hc
  | some c =>
    have hone : ∀ P : CConfOpt → Prop, (∀ d, some c = some d → P d) ↔ P c := fun P =>
      ⟨fun h => h c rfl, fun h d hd => Option.some.inj hd ▸ h⟩
    cases q with
    | valueInt sectionName name defv comment =>
      rw [RequestFits, hload, hone]
      exact getIntCopies_fit_iff hq.1 hq.2.1 hq.2.2 comment c
    | valueString sectionName name defv comment =>
      rw [RequestFits, hload, hone]
      exact getStringCopies_fit_iff hq.1 hq.2.1 hq.2.2 comment c
    | setEnumValue sectionName value stack =>
      rw [RequestFits, hload, hone fun _ => EnumFits f sectionName value stack, EnumFits,
        allFit_append, setEnumCopies_fit_iff value stack hq]
      refine and_congr_right fun hword => ?_
      have hsome := @setEnum_isSome_iff sectionName value stack c
      cases hset : setEnum sectionName value stack c with
      | none =>
        refine iff_of_true allFit_nil fun h => ?_
        obtain ⟨c', hc'⟩ := hsome.mpr h
        rw [hset] at hc'
        cases hc'
      | some c' =>
        have hrun := hsome.mp ⟨c', hset⟩
        rw [writeCopies_fit_iff f (setEnum_short (load_short hjunk hload) hword hset)]
        exact ⟨fun h _ => h, fun h => h hrun⟩

/-- One request after the other. -/
theorem requests_fit_iff (hfile : f.filename.length ≤ 255) {qs : List (List UInt8 × Request)}
    (hqs : ∀ q ∈ qs, q.1.length = 256 ∧ q.2.Bounded) :
    AllFit (requestsCopies f qs) ↔ RequestsFit f qs := by
  induction qs with
  | nil => exact iff_of_true allFit_nil trivial
  | cons q qs ih =>
    obtain ⟨junk, q⟩ := q
    have hq := hqs _ List.mem_cons_self
    have hrest := ih fun q hq => hqs q (List.mem_cons_of_mem _ hq)
    rw [requestsCopies, allFit_append, RequestsFit, request_fits_iff hq.1 hfile hq.2]
    refine and_congr_right fun _ => ?_
    cases answer junk f q with
    | none => exact iff_of_true allFit_nil fun h => absurd rfl h
    | some value => exact hrest.trans ⟨fun h _ => h, fun h => h (by simp)⟩

/-- The fields of the record hold what fitted the buffers. -/
theorem recordCopies_fit {junk : Nat → List UInt8} {f : IniFile} {answers : List (List UInt8)}
    (h : (registerRequests junk).mapM (fun q => answer q.1 f q.2) = some answers) :
    AllFit (recordCopies answers) := by
  have hstring : ∀ {junk sectionName name defv comment value},
      answer junk f (.valueString sectionName name defv comment) = some value →
      value.length < 64 := by
    intro junk sectionName name defv comment value hvalue
    rw [answer] at hvalue
    split at hvalue
    · cases hvalue
    · exact getString_short hvalue
  simp only [registerRequests, List.mapM_cons, List.mapM_nil, Option.bind_eq_bind,
    Option.bind_eq_some_iff,
    Option.pure_def, Option.some.injEq] at h
  obtain ⟨host, hhost, -,
      ⟨port, -, -, ⟨id, -, -, ⟨area, harea, -, ⟨type, htype, -, rfl, rfl⟩, rfl⟩, rfl⟩, rfl⟩, rfl⟩ :=
        h
  rw [recordCopies, allFit_cons, allFit_cons, allFit_strcpy]
  exact ⟨hstring hhost, hstring harea, hstring htype⟩

/-- The registration of a client. -/
theorem register_fits_iff {junk : Nat → List UInt8} (hjunk : ∀ i, (junk i).length = 256)
    {f : IniFile} (hfile : f.filename.length ≤ 255) :
    AllFit (registerCopies junk f) ↔ RequestsFit f (registerRequests junk) := by
  have hbounded : ∀ q ∈ registerRequests junk, q.1.length = 256 ∧ q.2.Bounded := by
    simp only [registerRequests, List.forall_mem_cons, hjunk, Request.Bounded, true_and,
      List.not_mem_nil,
      false_imp_iff, implies_true, and_true]
    decide
  rw [registerCopies, allFit_append, requests_fit_iff hfile hbounded]
  refine and_iff_left ?_
  split
  · exact allFit_nil
  · next hanswers => exact recordCopies_fit hanswers

end Requests

/-- What is written while a request is served, and while a client registers, fits for
just these files and requests. -/
theorem copies_fit_iff (junk : Nat → List UInt8) (hjunk : ∀ i, (junk i).length = 256) (f : IniFile)
    (hfile : f.filename.length ≤ 255) :
    (∀ q : Request, q.Bounded → (AllFit (requestCopies (junk 0) f q) ↔ RequestFits (junk 0) f q)) ∧
    (AllFit (registerCopies junk f) ↔ RequestsFit f (registerRequests junk)) :=
  ⟨fun _ hq => request_fits_iff (hjunk 0) hfile hq, register_fits_iff hjunk hfile⟩

/-- The file `a` with `[client]` and `id=7`: a client registers, and `[s]` takes a value. -/
theorem copies_fit_client :
    AllFit (requestCopies (List.replicate 256 0)
      ⟨[97], true, some ([91] ++ clientWord ++ [93, 10, 105, 100, 61, 55, 10]), true⟩
      (.setEnumValue [115] [118] [])) ∧
    AllFit (registerCopies (fun _ => List.replicate 256 0)
      ⟨[97], true, some ([91] ++ clientWord ++ [93, 10, 105, 100, 61, 55, 10]), true⟩) := by
  have hload : IniFile.load (List.replicate 256 0)
      ⟨[97], true, some ([91] ++ clientWord ++ [93, 10, 105, 100, 61, 55, 10]), true⟩ =
      some ⟨[⟨clientWord, [⟨[105, 100], [55], []⟩], [], 10, []⟩], some clientWord,
        [], false, false⟩ := by
    decide
  have hfits := copies_fit_iff (fun _ => List.replicate 256 0) (fun _ => List.length_replicate)
    ⟨[97], true, some ([91] ++ clientWord ++ [93, 10, 105, 100, 61, 55, 10]), true⟩ (by decide)
  refine ⟨(hfits.1 _ (by unfold Request.Bounded; decide)).mpr ?_, hfits.2.mpr ?_⟩
  · exact fun _ _ => ⟨fun _ _ _ => by decide, fun _ _ _ => by decide⟩
  · refine ⟨?_, fun _ => ⟨?_, fun _ => ⟨?_, fun _ => ⟨?_, fun _ => ⟨?_, fun _ => trivial⟩⟩⟩⟩⟩ <;>
    · intro c hc
      obtain rfl := Option.some.inj (hload.symm.trans hc)
      simp only [StringFits, ValueFits]
      decide

/-- 128 digits of an integer, the 124 bytes of the name of a file that is copied, and 64 bytes
of the area of a client. -/
theorem copies_overflow :
    ¬ AllFit (requestCopies (List.replicate 256 0)
      ⟨[97], true, some ([91, 115, 93, 10, 97, 61] ++ List.replicate 128 49 ++ [10]), true⟩
      (.valueInt [115] [97] 7 [])) ∧
    ¬ AllFit (requestCopies (List.replicate 256 0) ⟨List.replicate 124 97, true, some [], true⟩
      (.setEnumValue [115] [118] [])) ∧
    ¬ AllFit (registerCopies (fun _ => List.replicate 256 0)
      ⟨[97], true,
        some ([91] ++ clientWord ++ [93, 10, 97, 114, 101, 97, 61] ++
          List.replicate 64 120 ++ [10]),
        true⟩) := by
  refine ⟨?_, ?_, ?_⟩ <;> decide +kernel

end NetmtIniCopies
