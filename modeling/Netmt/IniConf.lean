import Netmt.IniStr
import Netmt.Lib.Keyed

/-!
# The configuration file

`iniconfopt.cpp`: comments, records, enumerated values and sections, the reader
that builds them line by line, the printer, and the lookups. `none` stands for a
run that does not come to its end: a null or freed pointer, a read behind a
buffer, or a loop that stands still.
-/
namespace NetmtIniConf

open NetmtIniStr

/-! ## Comments -/

/-- `CComment(const char *)`. -/
def newComment (comment : List UInt8) : List UInt8 :=
  if comment.head? = some 35 then comment else 35 :: comment

/-- `CComment::Push(const char *)`; a chain is the list of its strings, `[]` for `NULL`. -/
def pushText (chain : List (List UInt8)) (comment : List UInt8) : List (List UInt8) :=
  if comment ∈ chain then chain else chain ++ [newComment comment]

/-- `CComment::Push(CComment *)`, which looks for the first string of the other chain. -/
def pushChain (chain comment : List (List UInt8)) : Option (List (List UInt8)) :=
  match comment with
  | [] => none
  | first :: _ => some (if first ∈ chain then chain else chain ++ comment)

/-- `CComment::Print`: behind the first, `head` is one tab or still empty. -/
def printComment (head : List UInt8) : List (List UInt8) → List UInt8
  | [] => []
  | comment :: rest => head ++ comment ++ [10] ++ printComment (if head = [] then [] else [9]) rest

/-! ## Records -/

structure CRecord where
  name : List UInt8
  value : List UInt8
  comment : List (List UInt8)
  deriving DecidableEq

/-- `"DEFAULT"` -/
def defaultWord : List UInt8 := [68, 69, 70, 65, 85, 76, 84]

/-- What `CRecord::SetValue` stores. -/
def storedValue (value : List UInt8) : List UInt8 :=
  if value = [] ∨ value = defaultWord then [] else value

def CRecord.setValue (name value : List UInt8) (r : CRecord) : CRecord :=
  if name = [] ∨ r.name ≠ name then r else { r with value := storedValue value }

/-- `CRecord(name, value)`. -/
def newRecord (name value : List UInt8) : CRecord := CRecord.setValue name value ⟨name, [], []⟩

/-- `CRecord::SetComment(CComment *&)`; there is nothing to do for `NULL`. -/
def CRecord.setComment (comment : List (List UInt8)) (r : CRecord) : CRecord :=
  if comment = [] then r
  else if r.comment = [] then { r with comment := comment }
  else { r with comment := (pushChain r.comment comment).getD r.comment }

def CRecord.print (display : Bool) (r : CRecord) : List UInt8 :=
  printComment [10, 9] r.comment ++ [9] ++ r.name ++ [32, 61, 32] ++
    (if r.value ≠ [] then r.value else if display then [] else defaultWord) ++ [10]

/-! ## Sections -/

structure CSection where
  name : List UInt8
  records : List CRecord
  enums : List (List UInt8)
  /-- `m_nEnumValueMaxWidth` -/
  maxWidth : Nat
  comment : List (List UInt8)
  deriving DecidableEq

def newSection (name : List UInt8) : CSection := ⟨name, [], [], 10, []⟩

/-- A new value gets the next free index; the chain rejects a value it has. -/
def CSection.setEnumValue (name value : List UInt8) (s : CSection) : CSection :=
  if s.name ≠ name then s
  else { s with
    maxWidth := max s.maxWidth value.length
    enums := if value ∈ s.enums then s.enums else s.enums ++ [value] }

def CSection.searchRecord (name : List UInt8) (s : CSection) : Option CRecord :=
  if name = [] then none else Keyed.lookup CRecord.name name s.records

/-- A record that the chain rejects is freed, and must not get a comment then. -/
def CSection.setValue (name recordName value : List UInt8) (comment : List (List UInt8))
    (s : CSection) : Option CSection :=
  if s.name ≠ name then some s
  else
    match s.searchRecord recordName with
    | some _ =>
      let change := fun r => CRecord.setComment comment (r.setValue recordName value)
      some { s with records := Keyed.modify CRecord.name recordName change s.records }
    | none =>
      let r := (newRecord recordName value).setComment comment
      if s.records.any (fun r => r.name = recordName) ∧ comment ≠ [] then none
      else some { s with records := Keyed.insert CRecord.name r s.records }

/-- `CSection::SetComment(CComment *&)`, which does not look for `NULL`. -/
def CSection.setComment (comment : List (List UInt8)) (s : CSection) : Option CSection :=
  if s.comment = [] then some { s with comment := comment }
  else (pushChain s.comment comment).map fun chain => { s with comment := chain }

/-- `%-Ns` and a line end. -/
def printEnum (maxWidth : Nat) (value : List UInt8) : List UInt8 :=
  value ++ List.replicate (maxWidth + 1 - value.length) 32 ++ [10]

def CSection.print (display : Bool) (s : CSection) : List UInt8 :=
  printComment [] s.comment ++ [91] ++ s.name ++ [93, 10] ++ s.records.flatMap
    (CRecord.print display) ++
    (if s.records = [] then [] else [10]) ++ s.enums.flatMap (printEnum s.maxWidth) ++ [10]

/-! ## The reader -/

structure CConfOpt where
  sections : List CSection
  /-- `m_cSection`, by its name -/
  cSection : Option (List UInt8)
  chainComment : List (List UInt8)
  configChange : Bool
  itemExist : Bool
  deriving DecidableEq

def CConfOpt.initial : CConfOpt := ⟨[], none, [], false, false⟩

/-- `SearchSection` -/
def CConfOpt.searchSection (name : List UInt8) (c : CConfOpt) : Option CSection :=
  Keyed.lookup CSection.name name c.sections

/-- Do something to `m_cSection`. -/
def CConfOpt.onSection (f : CSection → Option CSection) (c : CConfOpt) : Option CConfOpt :=
  match c.cSection.bind fun name => c.searchSection name with
  | none => none
  | some s => (f s).map fun s' =>
      { c with sections := Keyed.modify CSection.name s.name (fun _ => s') c.sections }

/-- Find or create a section, which becomes `m_cSection`. -/
def CConfOpt.selectSection (name : List UInt8) (c : CConfOpt) : CConfOpt :=
  if (c.searchSection name).isSome then { c with cSection := some name }
  else { c with
    cSection := some name
    sections := Keyed.insert CSection.name (newSection name) c.sections }

/-- The configuration and the local variables of `ReadFromFile`. -/
structure Reader where
  conf : CConfOpt
  /-- all 256 bytes -/
  strBuf : List UInt8
  strSection : List UInt8
  strValue : List UInt8
  deriving DecidableEq

/-- The lines as `fgets(strBuf, 255, fp)` returns them, `line` being the one under way. -/
def fgetsAll : List UInt8 → List UInt8 → List (List UInt8)
  | line, [] => if line = [] then [] else [line]
  | line, c :: text =>
    if c = 10 ∨ line.length = 253 then (line ++ [c]) :: fgetsAll [] text
    else fgetsAll (line ++ [c]) text

/-- A string and its NUL over the front of a buffer. -/
def putString (buf s : List UInt8) : List UInt8 := s ++ 0 :: buf.drop (s.length + 1)

/-- The text between the first `[`, made a blank, and the last `]`. -/
def sectionText (line : List UInt8) : List UInt8 :=
  let text := (line.rdropWhile (· ≠ 93)).dropLast
  text.takeWhile (· ≠ 91) ++ 32 :: (text.dropWhile (· ≠ 91)).drop 1

/-- The last `]` is looked for behind the `[`. -/
theorem sectionText_eq {pre rest : List UInt8} (hpre : Blank pre) (hclosed : 93 ∈ rest) :
    sectionText (pre ++ 91 :: rest) = pre ++ 32 :: (rest.rdropWhile (· ≠ 93)).dropLast := by
  have hne : (rest.reverse.dropWhile fun c => decide (c ≠ 93)) ≠ [] := by
    intro hnil
    rw [List.dropWhile_eq_nil_iff] at hnil
    simpa using hnil 93 (List.mem_reverse.mpr hclosed)
  have hlast : (pre ++ 91 :: rest).rdropWhile (· ≠ 93) = pre ++ 91 :: rest.rdropWhile (· ≠ 93) := by
    rw [List.rdropWhile, List.rdropWhile, List.reverse_append, List.reverse_cons, List.append_assoc,
      List.dropWhile_append, if_neg (by simpa using hne)]
    simp
  have hne' : rest.rdropWhile (· ≠ 93) ≠ [] := by simpa [List.rdropWhile] using hne
  have hopen : ∀ c ∈ pre, decide (c ≠ 91) = true := scan_ne (hpre.not_mem (by decide))
  rw [sectionText, hlast, List.dropLast_append_of_ne_nil (by simp),
    List.dropLast_cons_of_ne_nil hne']
  rw [List.takeWhile_append_of_pos hopen, List.dropWhile_append_of_pos hopen]
  simp

/-- `[`: the section and the comment in front of it. -/
def readSection (line : List UInt8) (r : Reader) : Option Reader :=
  if 93 ∈ line then
    let text := sectionText line
    ((r.conf.selectSection (format text)).onSection (CSection.setComment r.conf.chainComment)).map
      fun conf =>
        { conf := { conf with chainComment := [] }
          strBuf := putString (putString (putString r.strBuf text) (rightTrim text)) (format text)
          strSection := format text
          strValue := r.strValue }
  else some r

def readComment (line : List UInt8) (r : Reader) : Option Reader :=
  let text := leftTrim (rightTrim line)
  let chain := if r.conf.chainComment = [] then [newComment text]
    else pushText r.conf.chainComment text
  some { r with
    conf := { r.conf with chainComment := chain }
    strBuf := putString (putString r.strBuf (rightTrim line)) text }

/-- `name = value`; a comment that is handed over is `NULL` afterwards. -/
def readRecord (line : List UInt8) (r : Reader) : Option Reader :=
  let parts := separateByFirstDelimiter line 61
  (r.conf.onSection (CSection.setValue r.strSection parts.1 parts.2 r.conf.chainComment)).map
    fun conf => { r with conf := { conf with chainComment := [] }, strValue := parts.2 }

/-- `sscanf(s, "%s", strValue)`, which leaves `strValue` alone where it finds nothing. -/
def scanWord (s strValue : List UInt8) : List UInt8 :=
  let word := (s.dropWhile isSpace).takeWhile fun c => !isSpace c
  if word = [] then strValue else word

/-- The loop over the words of a line: `pTemp` is an index into `strBuf`. It stands
still when `strValue` is empty. Each other pass takes `pTemp` forward, so that the
fuel never runs out. -/
def enumLoop (strSection : List UInt8) : Nat → Nat → Reader → Option Reader
  | 0, _, _ => none
  | fuel + 1, pTemp, r =>
    let start := pTemp + ((r.strBuf.drop pTemp).takeWhile isDelimiter).length
    match r.strBuf.drop start with
    | [] => none
    | c :: rest =>
      if c = 0 then some r
      else if 0 ∈ rest then
        let strValue := scanWord ((c :: rest).takeWhile (· ≠ 0)) r.strValue
        if strValue = [] then none
        else
          match r.conf.onSection fun s => some (s.setEnumValue strSection strValue) with
          | none => none
          | some conf =>
            enumLoop strSection fuel (start + strValue.length)
              { r with conf := conf, strValue := strValue }
      else none

def readEnum (r : Reader) : Option Reader :=
  (enumLoop r.strSection 257 0 r).map fun r =>
    { r with conf := { r.conf with configChange := true } }

/-- The string that a line is for C, which ends at the first NUL. -/
def lineText (line : List UInt8) : List UInt8 := line.takeWhile (· ≠ 0)

/-- One pass of the loop of `ReadFromFile`. -/
def readLine (r : Reader) (line : List UInt8) : Option Reader :=
  let r := { r with strBuf := putString r.strBuf line }
  let text := lineText line
  let cFirst := firstValidChar text
  if cFirst = 0 then some r
  else if cFirst = 91 then readSection text r
  else if cFirst = 35 ∨ cFirst = 59 ∨ r.strSection = [] then readComment text r
  else if r.conf.cSection = none then some r
  else if 61 ∈ text then readRecord text r
  else readEnum r

def readLines (lines : List (List UInt8)) (r : Reader) : Option Reader := lines.foldlM readLine r

/-- `ReadFromFile` on a file that opens; `junk` is what `strBuf` holds before. -/
def readFromFile (junk text : List UInt8) : Option CConfOpt :=
  (readLines (fgetsAll [] text) ⟨.initial, junk, [], []⟩).map Reader.conf

/-- What `WriteToFile` prints. -/
def CConfOpt.print (display : Bool) (c : CConfOpt) : List UInt8 :=
  c.sections.flatMap (CSection.print display)

/-! ## Lookups -/

/-- `"######################################################################"` -/
def ruleComment : List UInt8 := List.replicate 70 35

/-- `AddSection(name, 0, NULL)`. -/
def CConfOpt.addSection (name : List UInt8) (c : CConfOpt) : Option CConfOpt :=
  let selected := { c.selectSection name with configChange := true }
  (selected.onSection (CSection.setComment [newComment ruleComment])).map fun c =>
    { c with chainComment := [] }

/-- The private `GetValue`, to a buffer of that size: the value, or `none` where it
returns 0. -/
def CConfOpt.getStored (size : Nat) (sectionName name comment : List UInt8) (c : CConfOpt) :
    Option (Option (List UInt8) × CConfOpt) :=
  if sectionName = [] ∨ name = [] then some (none, c)
  -- `strSection[256]` and `strName[128]`
  else if FormatFits 256 sectionName ∧ FormatFits 128 name then
    let strSection := formatTo sectionName
    let strName := formatTo name
    let found := c.searchSection strSection
    let selected := if found.isSome then some { c with cSection := some strSection }
      else c.addSection strSection
    match selected with
    | none => none
    | some c =>
      match (found.bind (CSection.searchRecord strName)).map CRecord.value with
      | none =>
        let chain := if comment ≠ [] then [newComment comment] else []
        (c.onSection (CSection.setValue strSection strName [] chain)).map fun c =>
          (none, { c with configChange := true, itemExist := false, chainComment := [] })
      | some value =>
        if value = [] then some (none, { c with itemExist := true })
        else if value.length < size then some (some value, { c with itemExist := true })
        else none
  else none

/-- `SetValue(section, name, value, NULL)`, from `strValue` on. -/
def CConfOpt.assign (sectionName name strValue : List UInt8) (c : CConfOpt) : Option CConfOpt :=
  if sectionName = [] ∨ name = [] then some c
  else if FormatFits 256 sectionName ∧ FormatFits 128 name then
    let strSection := formatTo sectionName
    let selected := { c.selectSection strSection with configChange := true }
    (selected.onSection (CSection.setValue strSection (formatTo name) strValue c.chainComment)).map
      fun c =>
      { c with chainComment := [] }
  else none

/-- `SetValue(section, name, value, NULL)`, with `strValue[128]`. -/
def CConfOpt.setValue (sectionName name value : List UInt8) (c : CConfOpt) : Option CConfOpt :=
  if sectionName = [] ∨ name = [] ∨ value.length < 128 then
    c.assign sectionName name value else none

/-- `GetValue` of a string to a buffer of that size, without a default prompt. -/
def CConfOpt.getValue (size : Nat) (display : Bool) (sectionName name defv comment : List UInt8)
    (c : CConfOpt) : Option (Int × List UInt8 × CConfOpt) :=
  match c.getStored size sectionName name comment with
  | none => none
  | some (some value, c) => some (1, value, c)
  | some (none, c) =>
    if size ≤ defv.length then none
    else if display then (c.setValue sectionName name defv).map fun c => (0, defv, c)
    else some (0, defv, c)

/-- `CGetValueString`: the result and `value`. -/
def cGetValueString (size : Nat) (junk text sectionName name defv comment : List UInt8) :
    Option (Int × List UInt8) :=
  match readFromFile junk text with
  | none => none
  | some c => (c.getValue size true sectionName name defv comment).map fun r => (r.1, r.2.1)

end NetmtIniConf
