import Netmt.IniConf

/-!
# What a lookup means

The reference reads a text as lines: a section runs from its header to the next,
and the last assignment to a name counts. The reader reaches the same values by
way of its chains.
-/
namespace NetmtIniLookup

open NetmtIniStr NetmtIniConf

/-! ## The reference -/

/-- Without the delimiters that follow a delimiter or stand at an end. -/
def normalise (s : List UInt8) : List UInt8 :=
  (((s.zip (32 :: s)).filter fun p => !(isDelimiter p.1 && isDelimiter p.2)).map
    Prod.fst).rdropWhile isDelimiter

/-- The lines of a text, each with its line feed; `line` is the one under way. -/
def splitLines : List UInt8 → List UInt8 → List (List UInt8)
  | line, [] => if line = [] then [] else [line]
  | line, c :: text =>
    if c = 10 then (line ++ [c]) :: splitLines [] text else splitLines (line ++ [c]) text

/-- The name in a section's header, between the first `[` and the last `]`. -/
def header (line : List UInt8) : Option (List UInt8) :=
  if firstValidChar line = 91 ∧ 93 ∈ line then
    some (normalise ((((line.dropWhile (· ≠ 91)).drop 1).rdropWhile (· ≠ 93)).dropLast))
  else none

/-- Both sides of an assignment, split at the first `=`. -/
def assignment (line : List UInt8) : Option (List UInt8 × List UInt8) :=
  if firstValidChar line ∉ [91, 35, 59] ∧ 61 ∈ line then
    some (normalise (line.takeWhile (· ≠ 61)), normalise ((line.dropWhile (· ≠ 61)).drop 1))
  else none

/-- The section behind some lines. -/
def currentSection (lines : List (List UInt8)) : Option (List UInt8) :=
  (lines.filterMap header).getLast?

/-- What line `i` assigns to a name in a section. -/
def assignedAt (sectionName name : List UInt8) (lines : List (List UInt8)) (i : Nat) :
    Option (List UInt8) :=
  if currentSection (lines.take i) = some sectionName then
    (lines[i]?.bind assignment).bind fun p => if p.1 = name then some p.2 else none
  else none

/-- The last assignment to a name in a section. -/
def lastAssigned (sectionName name : List UInt8) (lines : List (List UInt8)) :
    Option (List UInt8) :=
  ((List.range lines.length).filterMap (assignedAt sectionName name lines)).getLast?

/-- The result and the value of a lookup. -/
def reference (text sectionName name defv : List UInt8) : Int × List UInt8 :=
  match lastAssigned (normalise sectionName) (normalise name) (splitLines [] text) with
  | none => (0, defv)
  | some value => if value ≠ [] ∧ value ≠ defaultWord then (1, value) else (0, defv)

/-! ## The reference, line by line -/

theorem currentSection_concat (lines : List (List UInt8)) (line : List UInt8) :
    currentSection (lines ++ [line]) = (header line).or (currentSection lines) := by
  rw [currentSection, currentSection, List.filterMap_append]
  cases h : header line with
  | none => simp [h]
  | some name => simp [h]

theorem lastAssigned_concat (sectionName name : List UInt8) (lines : List (List UInt8))
    (line : List UInt8) : lastAssigned sectionName name (lines ++ [line]) =
      (if currentSection lines = some sectionName then
        (assignment line).bind fun p => if p.1 = name then some p.2 else none
      else none).or (lastAssigned sectionName name lines) := by
  have hold : ∀ i ∈ List.range lines.length, assignedAt sectionName name (lines ++ [line]) i =
      assignedAt sectionName name lines i := by
    intro i hi
    have hlt := List.mem_range.mp hi
    rw [assignedAt, assignedAt, List.take_append_of_le_length (by omega),
      List.getElem?_append_left hlt]
  have hnew : assignedAt sectionName name (lines ++ [line]) lines.length =
      if currentSection lines = some sectionName then
        (assignment line).bind fun p => if p.1 = name then some p.2 else none
      else none := by
    rw [assignedAt, List.take_left, List.getElem?_concat_length, Option.bind_some]
  rw [lastAssigned, lastAssigned, List.length_append, List.length_singleton, List.range_succ,
    List.filterMap_append, List.filterMap_congr hold, List.filterMap_cons, hnew, List.filterMap_nil]
  generalize (if currentSection lines = some sectionName then
    (assignment line).bind fun p => if p.1 = name then some p.2 else none else none) = new
  cases new with
  | none => simp
  | some v => simp

/-! ## Normalising -/

theorem squeeze_zip (s : List UInt8) (b : UInt8) : squeeze (isDelimiter b) s =
    ((s.zip (b :: s)).filter fun p => !(isDelimiter p.1 && isDelimiter p.2)).map Prod.fst := by
  induction s generalizing b with
  | nil => rfl
  | cons c s ih =>
    rw [List.zip_cons_cons, List.filter_cons, squeeze]
    cases hc : isDelimiter c with
    | false =>
      have hs := ih c
      rw [hc] at hs
      simp [hs]
    | true =>
      have hs := ih c
      rw [hc] at hs
      cases hb : isDelimiter b with
      | false => simp [hs]
      | true => simp [hs]

theorem squeeze_leftTrim (s : List UInt8) : squeeze true s = squeeze false (leftTrim s) := by
  induction s with
  | nil => rfl
  | cons c s ih =>
    cases hc : isDelimiter c with
    | false =>
      rw [leftTrim_cons hc, squeeze_cons hc, squeeze_cons hc]
    | true =>
      have hblank : Blank [c] := by simpa [Blank] using hc
      have htrim : leftTrim (c :: s) = leftTrim s := leftTrim_pad hblank s
      rw [htrim, ← ih, squeeze, hc]
      rfl

/-- `Format` normalises. -/
theorem normalise_eq (s : List UInt8) : normalise s = format s := by
  have hzip := squeeze_zip s 32
  have hblank : isDelimiter 32 = true := by decide
  rw [hblank] at hzip
  rw [normalise, ← hzip, squeeze_leftTrim, ← formatTo_eq]
  rfl

/-- The reader and the reference agree on a header's name. -/
theorem sectionText_format {line : List UInt8} (hfirst : firstValidChar line = 91)
    (hclosed : 93 ∈ line) : format (sectionText line) =
      normalise ((((line.dropWhile (· ≠ 91)).drop 1).rdropWhile (· ≠ 93)).dropLast) := by
  obtain ⟨pre, rest, hsplit, hpre, -⟩ := firstValidChar_split (by rw [hfirst]; decide)
  rw [hfirst] at hsplit
  subst hsplit
  have hopen : ∀ c ∈ pre, decide (c ≠ 91) = true := scan_ne (hpre.not_mem (by decide))
  have hrest : 93 ∈ rest := by
    cases List.mem_append.mp hclosed with
    | inl hmem =>
      exact absurd hmem (hpre.not_mem (by decide))
    | inr hmem =>
      simpa using hmem
  have hblank : Blank [32] := blank_singleton (by decide)
  have htext : pre ++ 32 :: (rest.rdropWhile (· ≠ 93)).dropLast =
      pre ++ ([32] ++ (rest.rdropWhile (· ≠ 93)).dropLast) := rfl
  rw [sectionText_eq hpre hrest, htext, format_leftPad hpre, format_leftPad hblank, normalise_eq,
    List.dropWhile_append_of_pos hopen]
  simp

theorem header_eq {line : List UInt8} (hfirst : firstValidChar line = 91) (hclosed : 93 ∈ line) :
    header line = some (format (sectionText line)) := by
  rw [header, if_pos ⟨hfirst, hclosed⟩, sectionText_format hfirst hclosed]

theorem assignment_eq {line : List UInt8} (hfirst : firstValidChar line ∉ [91, 35, 59])
    (heq : 61 ∈ line) : assignment line = some (separateByFirstDelimiter line 61) := by
  rw [assignment, if_pos ⟨hfirst, heq⟩, separateByFirstDelimiter, if_pos heq,
    normalise_eq, normalise_eq]

theorem header_none {line : List UInt8} (h : ¬ (firstValidChar line = 91 ∧ 93 ∈ line)) :
    header line = none := by
  rw [header, if_neg h]

theorem assignment_none {line : List UInt8}
    (h : ¬ (firstValidChar line ∉ [91, 35, 59] ∧ 61 ∈ line)) :
    assignment line = none := by
  rw [assignment, if_neg h]

/-! ## What the chains hold -/

/-- The value of a record. -/
def valueOf (c : CConfOpt) (sectionName name : List UInt8) : Option (List UInt8) :=
  ((c.searchSection sectionName).bind fun s =>
    Keyed.lookup CRecord.name name s.records).map CRecord.value

/-- A step that touches no value. -/
def SameValues (c c' : CConfOpt) : Prop := ∀ sectionName name, valueOf c' sectionName name =
  valueOf c sectionName name

theorem onSection_spec {f : CSection → Option CSection} {c c' : CConfOpt}
    (h : c.onSection f = some c') : ∃ k s s', c.cSection = some k ∧ c.searchSection k = some s ∧
      f s = some s' ∧ s.name = k ∧
      c' = { c with sections := Keyed.modify CSection.name k (fun _ => s') c.sections } := by
  rw [CConfOpt.onSection] at h
  split at h
  · cases h
  · next s hs =>
    obtain ⟨k, hk, hs⟩ := Option.bind_eq_some_iff.mp hs
    obtain ⟨s', hf, rfl⟩ := Option.map_eq_some_iff.mp h
    have hname := (Keyed.lookup_mem _ hs).2
    exact ⟨k, s, s', hk, hs, hf, hname, by rw [hname]⟩

/-- Sections besides `m_cSection` stay as they are. -/
theorem searchSection_onSection {f : CSection → Option CSection} {c c' : CConfOpt}
    (hf : ∀ s s', f s = some s' → s'.name = s.name) (h : c.onSection f = some c') :
    ∃ k s s', c.cSection = some k ∧ c.searchSection k = some s ∧ f s = some s' ∧ s.name = k ∧
      ∀ sectionName, c'.searchSection sectionName =
        if sectionName = k then some s' else c.searchSection sectionName := by
  obtain ⟨k, s, s', hk, hs, hfs, hname, rfl⟩ := onSection_spec h
  refine ⟨k, s, s', hk, hs, hfs, hname, fun sectionName => ?_⟩
  rw [CConfOpt.searchSection, Keyed.lookup_modify _ (fun _ _ => (hf s s' hfs).trans hname)]
  split
  · next heq =>
    rw [heq]
    change (c.searchSection k).map _ = _
    rw [hs, Option.map_some]
  · rfl

/-- A comment goes to the section that has none, or behind the one it has. -/
theorem setComment_cases {comment : List (List UInt8)} {s s' : CSection}
    (h : s.setComment comment = some s') : ∃ chain, s' = { s with comment := chain } ∧
      (s.comment = [] ∧ chain = comment ∨ s.comment ≠ [] ∧ pushChain s.comment comment =
        some chain) := by
  rw [CSection.setComment] at h
  split at h
  · next hnil =>
    cases h
    exact ⟨comment, rfl, .inl ⟨hnil, rfl⟩⟩
  · next hne =>
    obtain ⟨chain, hpush, rfl⟩ := Option.map_eq_some_iff.mp h
    exact ⟨chain, rfl, .inr ⟨hne, hpush⟩⟩

/-- What `CSection::SetValue` comes to, one constructor for each branch. -/
inductive SetValueStep (k recordName value : List UInt8)
    (comment : List (List UInt8)) (s : CSection) :
    CSection → Prop where
  | otherSection : s.name ≠ k → SetValueStep k recordName value comment s s
  | changed {r : CRecord} : s.name = k → recordName ≠ [] →
      Keyed.lookup CRecord.name recordName s.records = some r →
      SetValueStep k recordName value comment s { s with
        records := Keyed.modify CRecord.name recordName
          (fun r => CRecord.setComment comment (r.setValue recordName value)) s.records }
  | inserted : s.name = k → s.searchRecord recordName = none →
      ¬ (s.records.any (fun r => r.name = recordName) ∧ comment ≠ []) →
      SetValueStep k recordName value comment s { s with
        records := Keyed.insert CRecord.name
          ((newRecord recordName value).setComment comment) s.records }

theorem setValue_cases {k recordName value : List UInt8} {comment : List (List UInt8)}
    {s s' : CSection} (h : s.setValue k recordName value comment = some s') :
    SetValueStep k recordName value comment s s' := by
  rw [CSection.setValue] at h
  split at h
  · next hname =>
    cases h
    exact .otherSection hname
  · next hname =>
    split at h
    · next r hr =>
      cases h
      rw [CSection.searchRecord] at hr
      split at hr
      · cases hr
      · next hne => exact .changed (not_not.mp hname) hne hr
    · next hr =>
      split at h
      · cases h
      · next hkept =>
        cases h
        exact .inserted (not_not.mp hname) hr hkept

/-- The sections behind a header, looked up. -/
theorem searchSection_selectSection (name sectionName : List UInt8) (c : CConfOpt) :
    (c.selectSection name).searchSection sectionName =
      if name = sectionName then some ((c.searchSection name).getD (newSection name))
      else c.searchSection sectionName := by
  rw [CConfOpt.selectSection]
  split
  · next hold =>
    obtain ⟨s, hs⟩ := Option.isSome_iff_exists.mp hold
    split
    · next heq =>
      subst heq
      rw [hs, Option.getD_some]
      exact hs
    · rfl
  · next hnew =>
    rw [Option.not_isSome_iff_eq_none] at hnew
    have hnone : ∀ s ∈ c.sections, s.name ≠ name := (Keyed.lookup_eq_none _).mp hnew
    rw [hnew, Option.getD_none]
    exact Keyed.lookup_insert _ (by simpa [newSection] using hnone) sectionName

/-- They are those before, and at most a new one. -/
theorem mem_selectSection {name : List UInt8} {c : CConfOpt} {s : CSection}
    (h : s ∈ (c.selectSection name).sections) : s = newSection name ∨ s ∈ c.sections := by
  rw [CConfOpt.selectSection] at h
  split at h
  · exact .inr h
  · exact Keyed.mem_insert CSection.name h

theorem selectSection_sorted {name : List UInt8} {c : CConfOpt}
    (h : Keyed.Sorted CSection.name c.sections) :
    Keyed.Sorted CSection.name (c.selectSection name).sections := by
  rw [CConfOpt.selectSection]
  split
  · exact h
  · exact Keyed.insert_sorted CSection.name h

/-- A header that is not closed changes nothing. -/
theorem readSection_cases {line : List UInt8} {r r' : Reader} (h : readSection line r = some r') :
    (93 ∉ line ∧ r' = r) ∨ 93 ∈ line ∧ ∃ conf,
      (r.conf.selectSection (format (sectionText line))).onSection
        (CSection.setComment r.conf.chainComment) =
        some conf ∧
      r' =
        { conf := { conf with chainComment := [] }
          strBuf := putString
            (putString (putString r.strBuf (sectionText line)) (rightTrim (sectionText line)))
            (format (sectionText line))
          strSection := format (sectionText line)
          strValue := r.strValue } := by
  rw [readSection] at h
  split at h
  · next hclosed =>
    obtain ⟨conf, hconf, rfl⟩ := Option.map_eq_some_iff.mp h
    exact .inr ⟨hclosed, conf, hconf, rfl⟩
  · next hopen =>
    cases h
    exact .inl ⟨hopen, rfl⟩

/-- A change of `m_cSection` that keeps the records. -/
theorem onSection_sameValues {f : CSection → Option CSection} {c c' : CConfOpt}
    (hf : ∀ s s', f s = some s' → s'.name = s.name ∧ s'.records = s.records)
    (h : c.onSection f = some c') : SameValues c c' := by
  obtain ⟨k, s, s', -, hs, hfs, -, hsearch⟩ :=
    searchSection_onSection (fun s s' hs => (hf s s' hs).1) h
  intro sectionName name
  rw [valueOf, valueOf, hsearch]
  split
  · next heq => rw [heq, hs, Option.bind_some, Option.bind_some, (hf s s' hfs).2]
  · rfl

theorem setComment_same {comment : List (List UInt8)} {s s' : CSection}
    (h : s.setComment comment = some s') : s'.name = s.name ∧ s'.records = s.records := by
  obtain ⟨chain, rfl, -⟩ := setComment_cases h
  exact ⟨rfl, rfl⟩

theorem setEnumValue_same (name value : List UInt8) (s : CSection) :
    (s.setEnumValue name value).name = s.name ∧
    (s.setEnumValue name value).records = s.records := by
  rw [CSection.setEnumValue]
  split <;> exact ⟨rfl, rfl⟩

@[simp] theorem setComment_name (comment : List (List UInt8)) (r : CRecord) :
    (r.setComment comment).name = r.name := by
  rw [CRecord.setComment]
  split
  · rfl
  · split <;> rfl

@[simp] theorem setComment_value (comment : List (List UInt8)) (r : CRecord) :
    (r.setComment comment).value = r.value := by
  rw [CRecord.setComment]
  split
  · rfl
  · split <;> rfl

@[simp] theorem setValue_name (name value : List UInt8) (r : CRecord) :
    (r.setValue name value).name = r.name := by
  rw [CRecord.setValue]
  split <;> rfl

theorem setValue_value {name : List UInt8} (hname : name ≠ []) (value : List UInt8) (r : CRecord)
    (hr : r.name = name) : (r.setValue name value).value = storedValue value := by
  rw [CRecord.setValue, if_neg (by simp [hname, hr])]

@[simp] theorem newRecord_name (name value : List UInt8) : (newRecord name value).name = name := by
  rw [newRecord, setValue_name]

theorem newRecord_value {name : List UInt8} (hname : name ≠ []) (value : List UInt8) :
    (newRecord name value).value = storedValue value :=
  setValue_value hname value _ rfl

/-- `SetValue` stores under its name, and nowhere else. -/
theorem setValue_lookup {k recordName value : List UInt8} {comment : List (List UInt8)}
    {s s' : CSection} (h : s.setValue k recordName value comment = some s') (hk : s.name = k) :
    s'.name = s.name ∧ ∀ name, name ≠ [] →
      (Keyed.lookup CRecord.name name s'.records).map CRecord.value =
        if name = recordName then some (storedValue value)
        else (Keyed.lookup CRecord.name name s.records).map CRecord.value := by
  cases setValue_cases h with
  | otherSection hother => exact absurd hk hother
  | @changed r _ hne hr =>
    refine ⟨rfl, fun name _ => ?_⟩
    rw [Keyed.lookup_modify _ (fun r h => by simpa using h)]
    split
    · next heq =>
      rw [heq, hr, Option.map_some, Option.map_some, setComment_value,
        setValue_value hne value r (Keyed.lookup_mem _ hr).2]
    · rfl
  | inserted _ hr =>
    refine ⟨rfl, fun name hname => ?_⟩
    change (Keyed.lookup CRecord.name name (Keyed.insert CRecord.name _ s.records)).map _ = _
    by_cases hold : ∃ r ∈ s.records, r.name = recordName
    · -- only the empty name is looked for in vain and rejected all the same
      have hempty : recordName = [] := by
        by_contra hne
        rw [CSection.searchRecord, if_neg hne, Keyed.lookup_eq_none] at hr
        obtain ⟨r, hmem, hrn⟩ := hold
        exact hr r hmem hrn
      rw [Keyed.insert_rejected _ (by simpa using hold), if_neg (by rw [hempty]; exact hname)]
    · rw [Keyed.lookup_insert _ (fun r hmem => by simpa using fun hrn => hold ⟨r, hmem, hrn⟩)]
      rw [setComment_name, newRecord_name]
      by_cases heq : recordName = name
      · rw [if_pos heq, if_pos heq.symm, Option.map_some, setComment_value,
          newRecord_value (by rw [heq]; exact hname)]
      · rw [if_neg heq, if_neg (fun h => heq h.symm)]

theorem setValue_section {k recordName value : List UInt8} {comment : List (List UInt8)}
    {s s' : CSection} (h : s.setValue k recordName value comment = some s') : s'.name = s.name := by
  cases setValue_cases h <;> rfl

theorem selectSection_sameValues (name : List UInt8) (c : CConfOpt) :
    SameValues c (c.selectSection name) := by
  intro sectionName recordName
  rw [valueOf, valueOf, searchSection_selectSection]
  split
  · next heq =>
    subst heq
    cases c.searchSection name <;> rfl
  · rfl

@[simp] theorem selectSection_cSection (name : List UInt8) (c : CConfOpt) :
    (c.selectSection name).cSection = some name := by
  rw [CConfOpt.selectSection]
  split <;> rfl

theorem SameValues.trans {c c' c'' : CConfOpt} (h : SameValues c c') (h' : SameValues c' c'') :
    SameValues c c'' := fun sectionName name => (h' sectionName name).trans (h sectionName name)

theorem onSection_cSection {f : CSection → Option CSection} {c c' : CConfOpt}
    (h : c.onSection f = some c') : c'.cSection = c.cSection := by
  obtain ⟨k, s, s', -, -, -, -, rfl⟩ := onSection_spec h
  rfl

theorem onSection_chainComment {f : CSection → Option CSection} {c c' : CConfOpt}
    (h : c.onSection f = some c') : c'.chainComment = c.chainComment := by
  obtain ⟨k, s, s', -, -, -, -, rfl⟩ := onSection_spec h
  rfl

/-- A pass of the loop ends it, or stores a word and goes on behind it. -/
theorem enumLoop_cases {strSection : List UInt8} {fuel pTemp : Nat} {r r' : Reader}
    (h : enumLoop strSection fuel pTemp r = some r') : r' = r ∨
      ∃ n start c rest conf strValue, fuel = n + 1 ∧
        start = pTemp + ((r.strBuf.drop pTemp).takeWhile isDelimiter).length ∧
        r.strBuf.drop start = c :: rest ∧ (c ≠ 0 ∧ 0 ∈ rest) ∧
        strValue = scanWord ((c :: rest).takeWhile (· ≠ 0)) r.strValue ∧ strValue ≠ [] ∧
        r.conf.onSection (fun s => some (s.setEnumValue strSection strValue)) = some conf ∧
        enumLoop strSection n (start + strValue.length)
          { r with conf := conf, strValue := strValue } =
          some r' := by
  cases fuel with
  | zero => cases h
  | succ n =>
    rw [enumLoop] at h
    simp only at h
    split at h
    · cases h
    · next c rest hrest =>
      split at h
      · cases h
        exact .inl rfl
      · next hc =>
        split at h
        · next hnul =>
          split at h
          · cases h
          · next hne =>
            split at h
            · cases h
            · next conf hconf =>
              exact .inr ⟨n, _, c, rest, conf, _, rfl, rfl, hrest, ⟨hc, hnul⟩, rfl, hne, hconf, h⟩
        · cases h

/-- The words of a line are no records. -/
theorem enumLoop_same {strSection : List UInt8} {fuel pTemp : Nat} {r r' : Reader}
    (h : enumLoop strSection fuel pTemp r = some r') : r'.strSection = r.strSection ∧
      r'.conf.cSection = r.conf.cSection ∧ SameValues r.conf r'.conf := by
  induction fuel generalizing pTemp r with
  | zero => cases h
  | succ fuel ih =>
    obtain rfl | ⟨n, start, c, rest, conf, strValue, hfuel, -, -, -, -, -, hconf, hrest⟩ :=
      enumLoop_cases h
    · exact ⟨rfl, rfl, fun _ _ => rfl⟩
    · cases hfuel
      obtain ⟨hsec, hc, hvalues⟩ := ih hrest
      refine ⟨hsec, hc.trans (onSection_cSection hconf), ?_⟩
      refine SameValues.trans (onSection_sameValues (fun s s' hs => ?_) hconf) hvalues
      cases hs
      exact setEnumValue_same _ _ s

/-- What one pass of the loop of `ReadFromFile` does. -/
inductive Pass (text : List UInt8) (r : Reader) : Reader → Prop
  | blank : firstValidChar text = 0 → Pass text r r
  | header {r' : Reader} : firstValidChar text = 91 → readSection text r = some r' → Pass text r r'
  | comment {r' : Reader} : firstValidChar text ≠ 0 → firstValidChar text ≠ 91 →
      firstValidChar text = 35 ∨ firstValidChar text = 59 ∨ r.strSection = [] →
      readComment text r = some r' → Pass text r r'
  | nowhere : firstValidChar text ∉ [0, 91, 35, 59] → r.strSection ≠ [] → r.conf.cSection = none →
      Pass text r r
  | record {r' : Reader} : firstValidChar text ∉ [0, 91, 35, 59] → r.strSection ≠ [] → 61 ∈ text →
      readRecord text r = some r' → Pass text r r'
  | words {r' : Reader} : firstValidChar text ∉ [0, 91, 35, 59] → r.strSection ≠ [] → 61 ∉ text →
      enumLoop r.strSection 257 0 r = some r' →
      Pass text r { r' with conf := { r'.conf with configChange := true } }

theorem readLine_pass {r r' : Reader} {line : List UInt8} (h : readLine r line = some r') :
    Pass (lineText line) { r with strBuf := putString r.strBuf line } r' := by
  rw [readLine] at h
  simp only at h
  split at h
  · next hzero =>
    cases h
    exact .blank hzero
  · next hzero =>
    split at h
    · next hopen => exact .header hopen h
    · next hopen =>
      split at h
      · next hcomment => exact .comment hzero hopen hcomment h
      · next hcomment =>
        rw [not_or, not_or] at hcomment
        have hfirst : firstValidChar (lineText line) ∉ [0, 91, 35, 59] := by
          simp [hzero, hopen, hcomment.1, hcomment.2.1]
        split at h
        · next hnull =>
          cases h
          exact .nowhere hfirst hcomment.2.2 hnull
        · split at h
          · next heq => exact .record hfirst hcomment.2.2 heq h
          · next hne =>
            rw [readEnum] at h
            obtain ⟨r₁, hloop, rfl⟩ := Option.map_eq_some_iff.mp h
            exact .words hfirst hcomment.2.2 hne hloop

/-! ## The reader follows the reference -/

/-- The reader behind the lines `done`. -/
structure Follows (done : List (List UInt8)) (r : Reader) : Prop where
  strSection : r.strSection = (currentSection done).getD []
  cSection : r.conf.cSection = currentSection done
  values : ∀ sectionName name, sectionName ≠ [] → name ≠ [] → valueOf r.conf sectionName name =
    (lastAssigned sectionName name done).map storedValue

/-- A line that defines nothing. -/
theorem Follows.skip {done : List (List UInt8)} {r r' : Reader} (h : Follows done r)
    {line : List UInt8} (hheader : header line = none)
    (hassign : ∀ sectionName, sectionName ≠ [] → currentSection done = some sectionName →
      assignment line = none)
    (hsec : r'.strSection = r.strSection) (hc : r'.conf.cSection = r.conf.cSection)
    (hvalues : SameValues r.conf r'.conf) : Follows (done ++ [line]) r' := by
  have hcurrent : currentSection (done ++ [line]) = currentSection done := by
    rw [currentSection_concat, hheader, Option.none_or]
  refine ⟨by rw [hsec, hcurrent, h.strSection], by rw [hc, hcurrent, h.cSection], ?_⟩
  intro sectionName name hs hn
  rw [hvalues, h.values sectionName name hs hn, lastAssigned_concat]
  split
  · next hcur => rw [hassign sectionName hs hcur, Option.bind_none, Option.none_or]
  · rw [Option.none_or]

theorem Follows.section {done : List (List UInt8)} {r r' : Reader} (h : Follows done r)
    {line : List UInt8} (hfirst : firstValidChar line = 91) (hr : readSection line r = some r') :
    Follows (done ++ [line]) r' := by
  have hassign : assignment line = none := assignment_none fun hall => hall.1 (by simp [hfirst])
  rcases readSection_cases hr with ⟨hopen, rfl⟩ | ⟨hclosed, conf, hconf, rfl⟩
  · exact h.skip (header_none fun hall => hopen hall.2) (fun _ _ _ => hassign) rfl rfl fun _ _ =>
      rfl
  · have hcurrent : currentSection (done ++ [line]) = some (format (sectionText line)) := by
      rw [currentSection_concat, header_eq hfirst hclosed, Option.some_or]
    have hsame : SameValues r.conf conf := (selectSection_sameValues _ _).trans
      (onSection_sameValues (fun s s' hs => setComment_same hs) hconf)
    refine ⟨by rw [hcurrent, Option.getD_some], ?_, fun sectionName name hs hn => ?_⟩
    · have hc := onSection_cSection hconf
      rw [selectSection_cSection] at hc
      rw [hcurrent]
      exact hc
    · have hvalue := (hsame sectionName name).trans (h.values sectionName name hs hn)
      rw [lastAssigned_concat, hassign, Option.bind_none]
      split <;> exact hvalue

theorem Follows.record {done : List (List UInt8)} {r r' : Reader} (h : Follows done r)
    {line : List UInt8} (hfirst : firstValidChar line ∉ [91, 35, 59]) (heq : 61 ∈ line)
    (hr : readRecord line r = some r') : Follows (done ++ [line]) r' := by
  have hheader : header line = none := header_none fun hall => hfirst (by simp [hall.1])
  have hcurrent : currentSection (done ++ [line]) = currentSection done := by
    rw [currentSection_concat, hheader, Option.none_or]
  rw [readRecord] at hr
  obtain ⟨conf, hconf, rfl⟩ := Option.map_eq_some_iff.mp hr
  refine ⟨by rw [hcurrent, ← h.strSection], ?_, fun sectionName name hs hn => ?_⟩
  · have hc := onSection_cSection hconf
    rw [hcurrent, ← h.cSection]
    exact hc
  · obtain ⟨k, s, s', hk, hsearch, hset, hsname, hsearch'⟩ :=
      searchSection_onSection (fun s s' hset => setValue_section hset) hconf
    have hkcur : currentSection done = some k := h.cSection.symm.trans hk
    have hstr : s.name = r.strSection := by rw [hsname, h.strSection, hkcur, Option.getD_some]
    have hold := h.values sectionName name hs hn
    have hvalue : valueOf conf sectionName name = if sectionName = k then
        (Keyed.lookup CRecord.name name s'.records).map CRecord.value
        else valueOf r.conf sectionName name := by
      rw [valueOf, hsearch']
      split <;> rfl
    have hold' : sectionName = k → valueOf r.conf sectionName name =
        (Keyed.lookup CRecord.name name s.records).map CRecord.value := by
      rintro rfl
      rw [valueOf, hsearch, Option.bind_some]
    change valueOf conf sectionName name = _
    rw [hvalue, lastAssigned_concat, hkcur, assignment_eq hfirst heq, Option.bind_some]
    by_cases hsk : sectionName = k
    · rw [if_pos hsk, if_pos (by rw [hsk]), (setValue_lookup hset hstr).2 name hn, ← hold' hsk]
      by_cases hnk : name = (separateByFirstDelimiter line 61).1
      · rw [if_pos hnk, if_pos hnk.symm, Option.some_or, Option.map_some]
      · rw [if_neg hnk, if_neg (fun h => hnk h.symm), Option.none_or, hold]
    · rw [if_neg hsk, if_neg (fun h => hsk (Option.some.inj h).symm), Option.none_or, hold]

theorem lineText_eq {line : List UInt8} (hnul : 0 ∉ line) : lineText line = line := by
  rw [lineText, List.takeWhile_eq_self_iff]
  exact scan_ne hnul

/-- One line. -/
theorem Follows.step {done : List (List UInt8)} {r r' : Reader} (h : Follows done r)
    {line : List UInt8} (hnul : 0 ∉ line) (hr : readLine r line = some r') :
    Follows (done ++ [line]) r' := by
  have hbuf : Follows done { r with strBuf := putString r.strBuf line } :=
    ⟨h.strSection, h.cSection, h.values⟩
  have hpass := readLine_pass hr
  rw [lineText_eq hnul] at hpass
  have hheader : firstValidChar line ≠ 91 → header line = none :=
    fun hopen => header_none fun hall => hopen hall.1
  cases hpass with
  | blank hfirst =>
    have hblank : Blank line := blank_of_firstValidChar hnul hfirst
    have hnone : 61 ∉ line := hblank.not_mem (by decide)
    exact hbuf.skip (hheader (by rw [hfirst]; decide))
      (fun _ _ _ => assignment_none fun hall => hnone hall.2) rfl rfl fun _ _ => rfl
  | header hfirst hsection => exact hbuf.section hfirst hsection
  | comment _ hopen hcomment hread =>
    cases hread
    refine hbuf.skip (hheader hopen) (fun sectionName hs hcur => ?_) rfl rfl fun _ _ => rfl
    apply assignment_none
    rintro ⟨hfirst, -⟩
    rcases hcomment with hc | hc | hc
    · exact hfirst (by simp [hc])
    · exact hfirst (by simp [hc])
    · have hstr : r.strSection = [] := hc
      rw [h.strSection, hcur, Option.getD_some] at hstr
      exact hs hstr
  | nowhere _ hne hnull =>
    have hstr : r.strSection = [] := by
      rw [h.strSection, ← h.cSection]
      exact congrArg (Option.getD · []) hnull
    exact absurd hstr hne
  | record hfirst _ heq hread =>
    exact hbuf.record (fun hmem => hfirst (List.mem_cons_of_mem _ hmem)) heq hread
  | words hfirst _ hne hloop =>
    obtain ⟨hsec, hc, hvalues⟩ := enumLoop_same hloop
    exact hbuf.skip (hheader fun hopen => hfirst (by simp [hopen]))
      (fun _ _ _ => assignment_none fun hall => hne hall.2) hsec hc hvalues

/-- All lines. -/
theorem readLines_follows {lines done : List (List UInt8)} {r r' : Reader} (h : Follows done r)
    (hnul : ∀ line ∈ lines, 0 ∉ line) (hr : readLines lines r = some r') :
    Follows (done ++ lines) r' := by
  induction lines generalizing done r with
  | nil =>
    cases hr
    rwa [List.append_nil]
  | cons line lines ih =>
    rw [readLines, List.foldlM_cons] at hr
    cases hline : readLine r line with
    | none => simp [hline] at hr
    | some r₁ =>
      rw [hline] at hr
      have hstep := ih (h.step (hnul line (by simp)) hline) (fun l hl => hnul l (by simp [hl])) hr
      rwa [List.append_assoc] at hstep

/-! ## Whole texts -/

/-- The line under way gets no shorter. -/
theorem splitLines_long (line : List UInt8) (c : UInt8) (text : List UInt8) :
    ∃ l ∈ splitLines line (c :: text), line.length < l.length := by
  induction text generalizing line c with
  | nil =>
    rw [splitLines]
    split
    · exact ⟨line ++ [c], by simp, by simp⟩
    · exact ⟨line ++ [c], by simp [splitLines], by simp⟩
  | cons d text ih =>
    rw [splitLines]
    split
    · exact ⟨line ++ [c], by simp, by simp⟩
    · obtain ⟨l, hl, hlt⟩ := ih (line ++ [c]) d
      rw [List.length_append, List.length_singleton] at hlt
      exact ⟨l, hl, by omega⟩

/-- A line that is ended. -/
theorem splitLines_feed {line : List UInt8} (hline : 10 ∉ line) (pre text : List UInt8) :
    splitLines pre (line ++ 10 :: text) = (pre ++ line ++ [10]) :: splitLines [] text := by
  induction line generalizing pre with
  | nil => rw [List.nil_append, splitLines, if_pos rfl, List.append_nil]
  | cons c line ih =>
    rw [List.mem_cons, not_or] at hline
    rw [List.cons_append, splitLines, if_neg (fun h => hline.1 h.symm), ih hline.2 (pre ++ [c])]
    simp

/-- A line that the text ends with. -/
theorem splitLines_open {line : List UInt8} (hline : 10 ∉ line) (pre : List UInt8) :
    splitLines pre line = if pre ++ line = [] then [] else [pre ++ line] := by
  induction line generalizing pre with
  | nil => rw [List.append_nil, splitLines]
  | cons c line ih =>
    rw [List.mem_cons, not_or] at hline
    rw [splitLines, if_neg (fun h => hline.1 h.symm), ih hline.2 (pre ++ [c]), List.append_assoc,
      List.singleton_append]

/-- The bytes of a line while the buffer is not full. -/
theorem fgetsAll_append {line : List UInt8} (hline : 10 ∉ line) {pre : List UInt8}
    (hlen : pre.length + line.length ≤ 253) (text : List UInt8) :
    fgetsAll pre (line ++ text) = fgetsAll (pre ++ line) text := by
  induction line generalizing pre with
  | nil => rw [List.nil_append, List.append_nil]
  | cons c line ih =>
    rw [List.mem_cons, not_or] at hline
    rw [List.length_cons] at hlen
    have hgoes : ¬ (c = 10 ∨ pre.length = 253) := by
      rintro (hc | hfull)
      · exact hline.1 hc.symm
      · omega
    rw [List.cons_append, fgetsAll, if_neg hgoes, ih hline.2 (by simp; omega), List.append_assoc]
    rfl

/-- `fgets` cuts no line of at most 254 bytes. -/
theorem fgetsAll_eq (line text : List UInt8)
    (h : ∀ l ∈ splitLines line text, l.length ≤ 254) :
    fgetsAll line text = splitLines line text := by
  induction text generalizing line with
  | nil => rfl
  | cons c text ih =>
    rw [splitLines] at h
    rw [fgetsAll, splitLines]
    by_cases hc : c = 10
    · rw [if_pos hc] at h
      rw [if_pos (.inl hc), if_pos hc, ih [] fun l hl => h l (List.mem_cons_of_mem _ hl)]
    · rw [if_neg hc] at h
      rw [if_neg hc]
      split
      · next hfull =>
        -- a full buffer: the line ends with the text
        have hlen : line.length = 253 := hfull.resolve_left hc
        cases text with
        | nil => simp [fgetsAll, splitLines]
        | cons d text =>
          obtain ⟨l, hl, hlt⟩ := splitLines_long (line ++ [c]) d text
          have hle := h l hl
          rw [List.length_append, List.length_singleton] at hlt
          omega
      · exact ih (line ++ [c]) h

theorem splitLines_mem {line text l : List UInt8} {c : UInt8} (hl : l ∈ splitLines line text)
    (hc : c ∈ l) : c ∈ line ∨ c ∈ text := by
  induction text generalizing line with
  | nil =>
    rw [splitLines] at hl
    split at hl
    · cases hl
    · exact .inl (List.mem_singleton.mp hl ▸ hc)
  | cons d text ih =>
    rw [splitLines] at hl
    split at hl
    · rcases List.mem_cons.mp hl with rfl | hl
      · cases List.mem_append.mp hc with
        | inl hc =>
          exact .inl hc
        | inr hc =>
          exact .inr (by simp [List.mem_singleton.mp hc])
      · cases ih hl with
        | inl hc =>
          cases hc
        | inr hc =>
          exact .inr (List.mem_cons_of_mem _ hc)
    · cases ih hl with
      | inl hc =>
        cases List.mem_append.mp hc with
        | inl hc =>
          exact .inl hc
        | inr hc =>
          exact .inr (by simp [List.mem_singleton.mp hc])
      | inr hc =>
        exact .inr (List.mem_cons_of_mem _ hc)

/-- What a loaded configuration holds. -/
theorem readFromFile_values {junk text : List UInt8} (hnul : 0 ∉ text)
    (hlines : ∀ l ∈ splitLines [] text, l.length ≤ 254) {c : CConfOpt}
    (h : readFromFile junk text = some c) (sectionName name : List UInt8) (hs : sectionName ≠ [])
    (hn : name ≠ []) : valueOf c sectionName name =
      (lastAssigned sectionName name (splitLines [] text)).map storedValue := by
  rw [readFromFile, fgetsAll_eq [] text hlines] at h
  obtain ⟨r, hr, rfl⟩ := Option.map_eq_some_iff.mp h
  have hstart : Follows [] ⟨.initial, junk, [], []⟩ := ⟨rfl, rfl, fun _ _ _ _ => rfl⟩
  have hfollows := readLines_follows hstart (fun l hl hc => ?_) hr
  · exact hfollows.values sectionName name hs hn
  · cases splitLines_mem hl hc with
    | inl hc =>
      cases hc
    | inr hc =>
      exact hnul hc

/-! ## The lookup -/

theorem onSection_isSome {f : CSection → Option CSection} {c : CConfOpt} {k : List UInt8}
    {s : CSection} (hk : c.cSection = some k) (hs : c.searchSection k = some s)
    (hf : ∃ s', f s = some s') : ∃ c', c.onSection f = some c' := by
  obtain ⟨s', hf⟩ := hf
  rw [CConfOpt.onSection, hk, Option.bind_some, hs]
  exact ⟨_, congrArg (Option.map _) hf⟩

/-- The selected section is there. -/
theorem selectSection_search (name : List UInt8) (c : CConfOpt) :
    ∃ s, (c.selectSection name).searchSection name = some s := by
  rw [searchSection_selectSection, if_pos rfl]
  exact ⟨_, rfl⟩

/-- A record with a name is never rejected. -/
theorem setValue_isSome {recordName : List UInt8} (hne : recordName ≠ []) (k value : List UInt8)
    (comment : List (List UInt8)) (s : CSection) :
    ∃ s', s.setValue k recordName value comment = some s' := by
  rw [CSection.setValue]
  split
  · exact ⟨s, rfl⟩
  · split
    · exact ⟨_, rfl⟩
    · next hr =>
      rw [CSection.searchRecord, if_neg hne, Keyed.lookup_eq_none] at hr
      have hnew : s.records.any (fun r => decide (r.name = recordName)) = false := by
        rw [List.any_eq_false]
        intro r hmem
        simpa using hr r hmem
      rw [hnew, if_neg (by simp)]
      exact ⟨_, rfl⟩

theorem setComment_isSome (first : List UInt8) (rest : List (List UInt8)) (s : CSection) :
    ∃ s', s.setComment (first :: rest) = some s' := by
  rw [CSection.setComment]
  split
  · exact ⟨_, rfl⟩
  · rw [pushChain]
    exact ⟨_, rfl⟩

theorem assign_isSome {sectionName name : List UInt8} (hs : FormatFits 256 sectionName)
    (hn : FormatFits 128 name) (strValue : List UInt8) (c : CConfOpt) :
    ∃ c', c.assign sectionName name strValue = some c' := by
  rw [CConfOpt.assign, if_neg (not_or.mpr ⟨hs.ne_nil, hn.ne_nil⟩), if_pos ⟨hs, hn⟩]
  obtain ⟨s, hsearch⟩ := selectSection_search (formatTo sectionName) c
  let selected := { c.selectSection (formatTo sectionName) with configChange := true }
  have hselected : selected.cSection = some (formatTo sectionName) :=
    selectSection_cSection (formatTo sectionName) c
  have hname : formatTo name ≠ [] := by
    rw [formatTo_eq]
    exact format_ne_nil hn
  obtain ⟨c', hc'⟩ := onSection_isSome hselected hsearch
    (setValue_isSome hname (formatTo sectionName) strValue c.chainComment s)
  exact ⟨_, congrArg (Option.map _) hc'⟩

/-- What `AddSection` leaves behind for a name that is not there. -/
theorem addSection_isSome (name : List UInt8) (c : CConfOpt) :
    ∃ c', c.addSection name = some c' ∧ c'.cSection = some name ∧
      ∃ s, c'.searchSection name = some s := by
  obtain ⟨s, hs⟩ := selectSection_search name c
  let selected := { c.selectSection name with configChange := true }
  have hselected : selected.cSection = some name := selectSection_cSection name c
  obtain ⟨c', hc'⟩ := onSection_isSome hselected hs
    (setComment_isSome (newComment ruleComment) [] s)
  refine ⟨{ c' with chainComment := [] }, by rw [CConfOpt.addSection]; exact congrArg _ hc', ?_, ?_⟩
  · exact (onSection_cSection hc').trans hselected
  · obtain ⟨k, s₁, s', hk, -, -, -, hsearch⟩ :=
      searchSection_onSection (fun s s' hset => (setComment_same hset).1) hc'
    have hkn : k = name := by
      rw [hselected, Option.some.injEq] at hk
      exact hk.symm
    exact ⟨s', (hsearch name).trans (if_pos hkn.symm)⟩

/-- The value that is found, if it fits, or that there is none. -/
theorem getStored_cases (size : Nat) {sectionName name : List UInt8}
    (hs : FormatFits 256 sectionName) (hn : FormatFits 128 name)
    (comment : List UInt8) (c : CConfOpt) :
    ∃ c', c.getStored size sectionName name comment =
      match (valueOf c (format sectionName) (format name)).filter (· ≠ []) with
      | some value => if value.length < size then some (some value, c') else none
      | none => some (none, c') := by
  have hstored : ∀ chain (d : CConfOpt), (∃ s, d.searchSection (format sectionName) = some s) →
      d.cSection = some (format sectionName) →
      ∃ d', d.onSection (CSection.setValue (format sectionName) (format name) [] chain) =
        some d' := by
    rintro chain d ⟨s, hsearch⟩ hd
    exact onSection_isSome hd hsearch (setValue_isSome (format_ne_nil hn) _ _ _ s)
  rw [CConfOpt.getStored, if_neg (not_or.mpr ⟨hs.ne_nil, hn.ne_nil⟩), if_pos ⟨hs, hn⟩,
    formatTo_eq, formatTo_eq]
  simp only
  cases hfound : c.searchSection (format sectionName) with
  | none =>
    obtain ⟨c', hadd, hc', hsearch⟩ := addSection_isSome (format sectionName) c
    obtain ⟨d, hd⟩ := hstored (if comment ≠ [] then [newComment comment] else []) c' hsearch hc'
    have hvalue : valueOf c (format sectionName) (format name) = none := by
      rw [valueOf, hfound]
      rfl
    rw [hvalue]
    simp only [Option.isSome_none, Bool.false_eq_true, if_false, hadd, Option.bind_none,
      Option.map_none, hd, Option.map_some, Option.filter_none]
    exact ⟨_, rfl⟩
  | some s =>
    have hvalue : valueOf c (format sectionName) (format name) =
        (s.searchRecord (format name)).map CRecord.value := by
      rw [valueOf, hfound, Option.bind_some, CSection.searchRecord, if_neg (format_ne_nil hn)]
    rw [hvalue]
    simp only [Option.isSome_some, if_true, Option.bind_some]
    cases (s.searchRecord (format name)).map CRecord.value with
    | none =>
      obtain ⟨d, hd⟩ := hstored (if comment ≠ [] then [newComment comment] else [])
        { c with cSection := some (format sectionName) } ⟨s, hfound⟩ rfl
      simp only [hd, Option.map_some, Option.filter_none]
      exact ⟨_, rfl⟩
    | some value =>
      by_cases hv : value = []
      · subst hv
        exact ⟨_, rfl⟩
      · have hfilter : (some value).filter (· ≠ []) = some value :=
          Option.filter_eq_some_iff.mpr ⟨rfl, by
          simpa using hv⟩
        rw [hfilter]
        exact ⟨_, if_neg hv⟩

/-- Where every value fits. -/
theorem getStored_spec (size : Nat) {sectionName name : List UInt8}
    (hs : FormatFits 256 sectionName) (hn : FormatFits 128 name)
    (comment : List UInt8) (c : CConfOpt)
    (hshort : ∀ value, valueOf c (format sectionName) (format name) = some value →
      value.length < size) :
    ∃ c', c.getStored size sectionName name comment =
      some ((valueOf c (format sectionName) (format name)).filter (· ≠ []), c') := by
  obtain ⟨c', hstored⟩ := getStored_cases size hs hn comment c
  refine ⟨c', hstored.trans ?_⟩
  cases hvalue : (valueOf c (format sectionName) (format name)).filter (· ≠ []) with
  | none => rfl
  | some value => exact if_pos (hshort value (Option.filter_eq_some_iff.mp hvalue).1)

theorem getStored_unfit (size : Nat) {sectionName name : List UInt8} (hs : sectionName ≠ [])
    (hn : name ≠ []) (hfits : ¬ (FormatFits 256 sectionName ∧ FormatFits 128 name))
    (comment : List UInt8) (c : CConfOpt) :
    c.getStored size sectionName name comment = none := by
  rw [CConfOpt.getStored, if_neg (not_or.mpr ⟨hs, hn⟩), if_neg hfits]

/-- What is assigned in a line is no longer than the line. -/
theorem lastAssigned_short {text sectionName name value : List UInt8}
    (hlines : ∀ l ∈ splitLines [] text, l.length ≤ 254)
    (h : lastAssigned sectionName name (splitLines [] text) = some value) : value.length ≤ 254 := by
  obtain ⟨i, -, hi⟩ := List.mem_filterMap.mp (List.mem_of_getLast? h)
  rw [assignedAt] at hi
  split at hi
  · obtain ⟨p, hp, hvalue⟩ := Option.bind_eq_some_iff.mp hi
    obtain ⟨line, hline, hassign⟩ := Option.bind_eq_some_iff.mp hp
    have hlen := hlines line (List.mem_of_getElem? hline)
    split at hvalue
    · cases hvalue
      rw [assignment] at hassign
      split at hassign
      · cases hassign
        refine Nat.le_trans ?_ hlen
        change (normalise ((line.dropWhile (· ≠ 61)).drop 1)).length ≤ line.length
        rw [normalise_eq]
        exact (length_format_le _).trans
          (((List.drop_suffix _ _).trans (List.dropWhile_suffix _)).length_le)
      · cases hassign
    · cases hvalue
  · cases hi

theorem storedValue_short {value : List UInt8} {n : Nat} (h : value.length ≤ n) :
    (storedValue value).length ≤ n := by
  rw [storedValue]
  split
  · exact Nat.zero_le _
  · exact h

/-- `CGetValueString` returns what the reference says, for every text that loads and every
section that fits. -/
theorem lookup_spec {junk text : List UInt8} (hnul : 0 ∉ text)
    (hlines : ∀ l ∈ splitLines [] text, l.length ≤ 254) {c : CConfOpt}
    (hload : readFromFile junk text = some c) {sectionName name defv : List UInt8}
    (comment : List UInt8) (hs : FormatFits 256 sectionName) (hn : FormatFits 128 name)
    (hdefv : defv.length ≤ 127) :
    cGetValueString 256 junk text sectionName name defv comment =
      some (reference text sectionName name defv) := by
  have hvalues := readFromFile_values hnul hlines hload _ _ (format_ne_nil hs) (format_ne_nil hn)
  obtain ⟨c', hstored⟩ := getStored_spec 256 hs hn comment c (by
    intro value hvalue
    rw [hvalues] at hvalue
    obtain ⟨v, hv, rfl⟩ := Option.map_eq_some_iff.mp hvalue
    have hlen := storedValue_short (lastAssigned_short hlines hv)
    omega)
  obtain ⟨d, hd⟩ := assign_isSome hs hn defv c'
  have hset : c'.setValue sectionName name defv = some d := by
    rw [CConfOpt.setValue, if_pos (.inr (.inr (by omega))), hd]
  rw [hvalues] at hstored
  rw [cGetValueString, hload, reference, normalise_eq, normalise_eq]
  simp only [CConfOpt.getValue, hstored, if_neg (show ¬ 256 ≤ defv.length by omega)]
  cases lastAssigned (format sectionName) (format name) (splitLines [] text) with
  | none => simp [hset]
  | some value =>
    simp only [Option.map_some, storedValue]
    by_cases hdefault : value = [] ∨ value = defaultWord
    · have hno : ¬ (value ≠ [] ∧ value ≠ defaultWord) := fun h => hdefault.elim h.1 h.2
      rw [if_pos hdefault, if_neg hno]
      simp [hset, Option.filter]
    · rw [not_or] at hdefault
      rw [if_neg (not_or.mpr hdefault), if_pos hdefault]
      simp [hdefault.1, Option.filter]

/-- A section that does not fit. -/
theorem lookup_overflows {size : Nat} {junk text sectionName name defv comment : List UInt8}
    {c : CConfOpt} (hload : readFromFile junk text = some c) (hn : name ≠ [])
    (hlong : 255 < (format sectionName).length) :
    cGetValueString size junk text sectionName name defv comment = none := by
  have hs : sectionName ≠ [] := by
    rintro rfl
    exact absurd hlong (by decide)
  have hunfit : ¬ (FormatFits 256 sectionName ∧ FormatFits 128 name) := fun h => by
    have hlt := h.1.2
    rw [formatTo_eq] at hlt
    omega
  have hstored := getStored_unfit size hs hn hunfit comment c
  rw [cGetValueString, hload]
  simp only [CConfOpt.getValue, hstored, Option.map_none]

/-- The lookup gives what the reference says for just those sections whose normalised
name fits `strSection[256]`. -/
theorem lookup_is_reference_iff (junk text : List UInt8) (hnul : 0 ∉ text)
    (hlines : ∀ l ∈ splitLines [] text, l.length ≤ 254) (c : CConfOpt)
    (hload : readFromFile junk text = some c) (sectionName name defv comment : List UInt8)
    (hs : ∃ b ∈ sectionName, isDelimiter b = false) (hn : ∃ b ∈ name, isDelimiter b = false)
    (hname : name.length ≤ 127) (hdefv : defv.length ≤ 127) :
    cGetValueString 256 junk text sectionName name defv comment =
      some (reference text sectionName name defv) ↔ (normalise sectionName).length ≤ 255 := by
  have hname' := length_formatTo_le name
  have hfits : FormatFits 128 name := ⟨hn, by omega⟩
  rw [normalise_eq]
  constructor
  · intro h
    by_contra hlong
    rw [lookup_overflows hload hfits.ne_nil (by omega)] at h
    cases h
  · intro hlen
    refine lookup_spec hnul hlines hload comment ⟨hs, ?_⟩ hfits hdefv
    rw [formatTo_eq]
    omega

/-- `[s]` with `a=b` under it. -/
def oneValue : List UInt8 := [91, 115, 93, 10, 97, 61, 98, 10]

theorem oneValue_loads : ∃ c, readFromFile (List.replicate 256 0) oneValue = some c :=
  Option.isSome_iff_exists.mp (by decide)

/-- The name `a` looked up in `s`. -/
theorem lookup_one_value :
    cGetValueString 256 (List.replicate 256 0) oneValue [115] [97] [99] [] = some (1, [98]) := by
  obtain ⟨c, hload⟩ := oneValue_loads
  have hlookup := (lookup_is_reference_iff (List.replicate 256 0) oneValue
    (by decide) (by decide) c hload [115] [97] [99] [] ⟨115, by decide⟩ ⟨97, by decide⟩
    (by decide) (by decide)).mpr (by decide)
  have hreference : reference oneValue [115] [97] [99] = (1, [98]) := by
    decide
  rw [hlookup, hreference]

/-- A section of 256 letters does not fit. -/
theorem long_section_overflows : ¬ ∀ (junk text : List UInt8), 0 ∉ text →
    (∀ l ∈ splitLines [] text, l.length ≤ 254) → ∀ c, readFromFile junk text = some c →
    ∀ sectionName name defv comment : List UInt8, (∃ b ∈ sectionName, isDelimiter b = false) →
    (∃ b ∈ name, isDelimiter b = false) → name.length ≤ 127 → defv.length ≤ 127 →
    cGetValueString 256 junk text sectionName name defv comment =
      some (reference text sectionName name defv) := by
  intro h
  obtain ⟨c, hload⟩ := oneValue_loads
  have hlookup := h (List.replicate 256 0) oneValue (by decide) (by decide) c hload
    (List.replicate 256 120) [97] [99] [] ⟨120, List.mem_replicate.mpr ⟨by decide, rfl⟩, rfl⟩
      ⟨97, by decide⟩ (by decide) (by decide)
  rw [lookup_overflows hload (by decide) ?_] at hlookup
  · cases hlookup
  · rw [format_word fun c hc => by rw [List.eq_of_mem_replicate hc]; rfl, List.length_replicate]
    decide

end NetmtIniLookup
