import Netmt.IniLookup

/-!
# What a loaded configuration is like

The chains are sorted, names and values are formatted and free of line feeds, and the
comments start with `#`. Values of the enumeration are whatever `strValue` held, which
are words of the file unless the file has vertical tabs or form feeds.
-/
namespace NetmtIniLoaded

open NetmtIniStr NetmtIniConf NetmtIniLookup

/-! ## Strings of a line -/

/-- What `fgets` returns for a text without NUL bytes. -/
structure LineOk (line : List UInt8) : Prop where
  noNul : 0 ∉ line
  noFeed : 10 ∉ line.dropLast

/-- Neither a NUL nor a line feed. -/
structure Clean (s : List UInt8) : Prop where
  noNul : 0 ∉ s
  noFeed : 10 ∉ s

theorem clean_nil : Clean [] := ⟨by simp, by simp⟩

theorem Clean.subset {s t : List UInt8} (h : Clean t) (hsub : ∀ c ∈ s, c ∈ t) : Clean s :=
  ⟨fun hc => h.noNul (hsub 0 hc), fun hc => h.noFeed (hsub 10 hc)⟩

theorem rightTrim_mem {s : List UInt8} {c : UInt8} (h : c ∈ rightTrim s) : c ∈ s :=
  (List.rdropWhile_prefix isDelimiter s).subset h

theorem leftTrim_mem {s : List UInt8} {c : UInt8} (h : c ∈ leftTrim s) : c ∈ s :=
  (List.dropWhile_suffix _).subset h

section Line

variable {line : List UInt8}

/-- What is in front of something else on the line. -/
theorem LineOk.front (h : LineOk line) {s t : List UInt8} (hsplit : line = s ++ t) (ht : t ≠ []) :
    Clean s := by
  constructor
  · exact fun hc => h.noNul (by rw [hsplit]; exact List.mem_append_left _ hc)
  · intro hc
    apply h.noFeed
    rw [hsplit, List.dropLast_append_of_ne_nil ht]
    exact List.mem_append_left _ hc

/-- The end of the line, without the line feed. -/
theorem LineOk.trimmed (h : LineOk line) {s t : List UInt8} (hsplit : line = s ++ t) :
    Clean (rightTrim t) := by
  rcases List.eq_nil_or_concat t with rfl | ⟨t', c, rfl⟩
  · exact clean_nil
  · rw [List.concat_eq_append, ← List.append_assoc] at hsplit
    have hfront := h.front hsplit (List.cons_ne_nil c [])
    have hclean : Clean t' := hfront.subset fun d hd => List.mem_append_right _ hd
    rw [List.concat_eq_append]
    cases hc : isDelimiter c with
    | true =>
      rw [rightTrim_pad (blank_singleton hc)]
      exact hclean.subset fun d hd => rightTrim_mem hd
    | false =>
      rw [rightTrim_concat hc]
      constructor
      · exact fun hd => h.noNul (by rw [hsplit]; simp only [List.mem_append] at hd ⊢; tauto)
      · intro hd
        cases List.mem_append.mp hd with
        | inl hd =>
          exact hclean.noFeed hd
        | inr hd =>
          rw [← List.mem_singleton.mp hd] at hc
          exact absurd hc (by decide)

/-- The name in a header, with the blanks around it. -/
theorem LineOk.sectionText (h : LineOk line) (hfirst : firstValidChar line = 91)
    (hclosed : 93 ∈ line) :
    Clean (sectionText line) := by
  obtain ⟨pre, rest, hsplit, hpre, -⟩ := firstValidChar_split (s := line) (by rw [hfirst]; decide)
  rw [hfirst] at hsplit
  have hrest : 93 ∈ rest := by
    rw [hsplit] at hclosed
    cases List.mem_append.mp hclosed with
    | inl hmem =>
      exact absurd hmem (hpre.not_mem (by decide))
    | inr hmem =>
      simpa using hmem
  have hclean : Clean (pre ++ 91 :: (rest.rdropWhile (· ≠ 93)).dropLast) := by
    have hne : rest.rdropWhile (· ≠ 93) ≠ [] := by
      rw [Ne, List.rdropWhile_eq_nil_iff]
      exact fun hall => absurd (hall 93 hrest) (by decide)
    obtain ⟨post, hpost⟩ := List.rdropWhile_prefix (· ≠ 93) (l := rest)
    obtain ⟨name, c, hname⟩ := (List.eq_nil_or_concat (rest.rdropWhile (· ≠ 93))).resolve_left hne
    rw [List.concat_eq_append] at hname
    rw [hname] at hpost ⊢
    rw [List.dropLast_concat]
    refine h.front (t := c :: post) ?_ (List.cons_ne_nil _ _)
    rw [hsplit, ← hpost]
    simp
  rw [hsplit, sectionText_eq hpre hrest]
  constructor
  · have hnot := hclean.noNul
    simp only [List.mem_append, List.mem_cons, not_or] at hnot ⊢
    exact ⟨hnot.1, by decide, hnot.2.2⟩
  · have hnot := hclean.noFeed
    simp only [List.mem_append, List.mem_cons, not_or] at hnot ⊢
    exact ⟨hnot.1, by decide, hnot.2.2⟩

theorem clean_format {s : List UInt8} (h : Clean (rightTrim s)) : Clean (format s) :=
  h.subset fun _ hc => leftTrim_mem (mem_squeeze hc)

/-- The first character of a formatted string is the first valid one of the whole. -/
theorem firstValidChar_append {s : List UInt8} {c : UInt8} (h : (format s).head? = some c)
    (t : List UInt8) :
    firstValidChar (s ++ t) = c := by
  obtain ⟨pre, core, post, rfl, hpre, hcore, hpost⟩ := exists_trimmed s
  rw [format_pad hpre hcore hpost] at h
  by_cases hnil : core = []
  · rw [hnil] at h
    cases h
  · obtain ⟨⟨d, u, rfl, hd⟩, -⟩ := hcore.ends hnil
    rw [squeeze_cons hd, List.head?_cons, Option.some.injEq] at h
    have hfirst := firstValidChar_pad hpre hd (u ++ post ++ t)
    rw [← h]
    simpa using hfirst

end Line

/-! ## The invariant -/

structure CommentOk (comment : List UInt8) : Prop where
  head : comment.head? = some 35
  trimmed : Trimmed comment
  clean : Clean comment

theorem CommentOk.cons {comment : List UInt8} (h : CommentOk comment) :
    ∃ rest, comment = 35 :: rest := by
  cases hcomment : comment with
  | nil =>
    rw [hcomment] at h
    cases h.head
  | cons c rest =>
    have hhead := h.head
    rw [hcomment, List.head?_cons, Option.some.injEq] at hhead
    exact ⟨rest, by rw [hhead]⟩

structure RecordOk (r : CRecord) : Prop where
  name : Formatted r.name
  nameClean : Clean r.name
  noEquals : 61 ∉ r.name
  first : ∀ c, r.name.head? = some c → c ∉ [91, 35, 59]
  value : Formatted r.value
  valueClean : Clean r.value
  stored : storedValue r.value = r.value
  blank : r.name = [] → r.value = []
  comment : ∀ c ∈ r.comment, CommentOk c

structure SectionOk (s : CSection) : Prop where
  name : Formatted s.name
  nameClean : Clean s.name
  records : ∀ r ∈ s.records, RecordOk r
  sorted : Keyed.Sorted CRecord.name s.records
  comment : ∀ c ∈ s.comment, CommentOk c
  nodup : s.enums.Nodup
  unnamed : s.name = [] → s.records = [] ∧ s.enums = []

structure Loaded (c : CConfOpt) : Prop where
  sorted : Keyed.Sorted CSection.name c.sections
  sections : ∀ s ∈ c.sections, SectionOk s

structure ReaderOk (r : Reader) : Prop where
  conf : Loaded r.conf
  chain : ∀ c ∈ r.conf.chainComment, CommentOk c
  current : r.conf.cSection = none ∧ r.strSection = [] ∨ r.conf.cSection = some r.strSection

/-- `P` holds of all values of the enumerations. -/
def EnumsAll (P : List UInt8 → Prop) (c : CConfOpt) : Prop := ∀ s ∈ c.sections, ∀ v ∈ s.enums, P v

/-! ## What the parts keep -/

theorem commentOk_new {text : List UInt8} (ht : Trimmed text) (hc : Clean text) :
    CommentOk (newComment text) := by
  rw [newComment]
  split
  · next hhead => exact ⟨hhead, ht, hc⟩
  · refine ⟨rfl, ⟨?_, ?_⟩, ⟨?_, ?_⟩⟩
    · intro c hhead
      cases hhead
      decide
    · intro c hlast
      by_cases hnil : text = []
      · rw [hnil] at hlast
        cases hlast
        decide
      · rw [List.getLast?_cons_of_ne_nil hnil] at hlast
        exact ht.right c hlast
    · simpa using hc.noNul
    · simpa using hc.noFeed

theorem commentOk_pushText {chain : List (List UInt8)} {text : List UInt8}
    (hchain : ∀ c ∈ chain, CommentOk c) (ht : Trimmed text) (hc : Clean text) :
    ∀ c ∈ pushText chain text, CommentOk c := by
  rw [pushText]
  split
  · exact hchain
  · intro c hmem
    cases List.mem_append.mp hmem with
    | inl hmem =>
      exact hchain c hmem
    | inr hmem =>
      rw [List.mem_singleton.mp hmem]
      exact commentOk_new ht hc

theorem pushChain_all {P : List UInt8 → Prop} {chain comment chain' : List (List UInt8)}
    (h : pushChain chain comment = some chain') (hchain : ∀ c ∈ chain, P c)
    (hcomment : ∀ c ∈ comment, P c) :
    ∀ c ∈ chain', P c := by
  cases comment with
  | nil => cases h
  | cons first rest =>
    rw [pushChain] at h
    cases h
    split
    · exact hchain
    · intro c hmem
      exact (List.mem_append.mp hmem).elim (hchain c) (hcomment c)

theorem storedValue_idem (value : List UInt8) :
    storedValue (storedValue value) = storedValue value := by
  by_cases h : value = [] ∨ value = defaultWord
  · have hnil : storedValue value = [] := if_pos h
    rw [hnil]
    rfl
  · have hsame : storedValue value = value := if_neg h
    rw [hsame, hsame]

theorem formatted_stored {value : List UInt8} (h : Formatted value) :
    Formatted (storedValue value) := by
  rw [storedValue]
  split
  · exact formatted_nil
  · exact h

theorem clean_stored {value : List UInt8} (h : Clean value) : Clean (storedValue value) := by
  rw [storedValue]
  split
  · exact clean_nil
  · exact h

/-- A record that is about to be stored. -/
structure AssignmentOk (recordName recordValue : List UInt8) : Prop where
  name : Formatted recordName
  nameClean : Clean recordName
  noEquals : 61 ∉ recordName
  first : ∀ c, recordName.head? = some c → c ∉ [91, 35, 59]
  value : Formatted recordValue
  valueClean : Clean recordValue

/-- The first occurrence of a character. -/
theorem split_at_first {s : List UInt8} {c : UInt8} (h : c ∈ s) :
    s = s.takeWhile (· ≠ c) ++ c :: (s.dropWhile (· ≠ c)).drop 1 := by
  have hsplit : s.takeWhile (· ≠ c) ++ s.dropWhile (· ≠ c) = s := List.takeWhile_append_dropWhile
  have hnot := List.head?_dropWhile_not (fun d => decide (d ≠ c)) s
  cases hrest : s.dropWhile (· ≠ c) with
  | nil =>
    rw [List.dropWhile_eq_nil_iff] at hrest
    exact absurd (hrest c h) (by simp)
  | cons d rest =>
    rw [hrest] at hnot hsplit
    have hd : d = c := by simpa using hnot
    rw [hd] at hsplit
    simpa using hsplit.symm

theorem assignmentOk_line {line : List UInt8} (h : LineOk line)
    (hfirst : firstValidChar line ∉ [91, 35, 59]) (heq : 61 ∈ line) :
    AssignmentOk (separateByFirstDelimiter line 61).1 (separateByFirstDelimiter line 61).2 := by
  have hsplit := split_at_first heq
  have hsplit' : line = (line.takeWhile (· ≠ 61) ++ [61]) ++ (line.dropWhile (· ≠ 61)).drop 1 := by
    rw [List.append_assoc]
    exact hsplit
  have hfront := h.front hsplit (List.cons_ne_nil _ _)
  rw [separateByFirstDelimiter, if_pos heq]
  refine ⟨formatted_format _, hfront.subset fun c hc => mem_format hc, ?_, ?_, formatted_format _,
    clean_format (h.trimmed hsplit')⟩
  · intro hmem
    have htake := List.mem_takeWhile_imp (mem_format hmem)
    simp at htake
  · intro c hc
    have hchar := firstValidChar_append hc (61 :: (line.dropWhile (· ≠ 61)).drop 1)
    rw [← hsplit] at hchar
    rw [← hchar]
    exact hfirst

/-- A new record. -/
theorem recordOk_new {name value : List UInt8} (h : AssignmentOk name value) :
    RecordOk (newRecord name value) := by
  have hvalue : (newRecord name value).value = [] ∨
      name ≠ [] ∧ (newRecord name value).value = storedValue value := by
    by_cases hnil : name = []
    · left
      rw [newRecord, CRecord.setValue, if_pos (Or.inl hnil)]
    · exact Or.inr ⟨hnil, newRecord_value hnil value⟩
  have hname := newRecord_name name value
  have hcomment : (newRecord name value).comment = [] := by
    rw [newRecord, CRecord.setValue]
    split <;> rfl
  generalize newRecord name value = r at *
  refine ⟨by rw [hname]; exact h.name, by rw [hname]; exact h.nameClean,
    by rw [hname]; exact h.noEquals, by rw [hname]; exact h.first, ?_, ?_, ?_, ?_,
    by simp [hcomment]⟩
  · rcases hvalue with hvalue | ⟨-, hvalue⟩
    · rw [hvalue]
      exact formatted_nil
    · rw [hvalue]
      exact formatted_stored h.value
  · rcases hvalue with hvalue | ⟨-, hvalue⟩
    · rw [hvalue]
      exact clean_nil
    · rw [hvalue]
      exact clean_stored h.valueClean
  · rcases hvalue with hvalue | ⟨-, hvalue⟩
    · rw [hvalue]
      rfl
    · rw [hvalue]
      exact storedValue_idem value
  · intro hnil
    rw [hname] at hnil
    exact hvalue.resolve_right fun hv => hv.1 hnil

/-- Another value for a record. -/
theorem RecordOk.setValue {name value : List UInt8} {r : CRecord} (hr : RecordOk r)
    (h : AssignmentOk name value) :
    RecordOk (r.setValue name value) := by
  rw [CRecord.setValue]
  split
  · exact hr
  · next hne =>
    rw [not_or, not_not] at hne
    exact { hr with
      value := formatted_stored h.value
      valueClean := clean_stored h.valueClean
      stored := storedValue_idem value
      blank := fun hnil => absurd (hne.2.symm.trans hnil) hne.1 }

theorem RecordOk.setComment {comment : List (List UInt8)} {r : CRecord} (hr : RecordOk r)
    (h : ∀ c ∈ comment, CommentOk c) : RecordOk (r.setComment comment) := by
  rw [CRecord.setComment]
  split
  · exact hr
  · split
    · exact { hr with comment := h }
    · refine { hr with comment := ?_ }
      cases hpush : pushChain r.comment comment with
      | none => exact hr.comment
      | some chain => exact pushChain_all hpush hr.comment h

theorem sectionOk_new {name : List UInt8} (hf : Formatted name) (hc : Clean name) :
    SectionOk (newSection name) :=
  ⟨hf, hc, by simp [newSection], List.Pairwise.nil, by simp [newSection], List.nodup_nil,
    fun _ => ⟨rfl, rfl⟩⟩

theorem SectionOk.setComment {comment : List (List UInt8)} {s s' : CSection} (hs : SectionOk s)
    (h : ∀ c ∈ comment, CommentOk c) (hset : s.setComment comment = some s') : SectionOk s' := by
  obtain ⟨chain, rfl, ⟨-, rfl⟩ | ⟨-, hpush⟩⟩ := setComment_cases hset
  · exact { hs with comment := h }
  · exact { hs with comment := pushChain_all hpush hs.comment h }

/-- No value comes twice. -/
theorem setEnumValue_nodup {s : CSection} (name value : List UInt8) (h : s.enums.Nodup) :
    (s.setEnumValue name value).enums.Nodup := by
  rw [CSection.setEnumValue]
  split
  · exact h
  · simp only
    split
    · exact h
    · next hnew =>
      exact (List.perm_append_singleton value s.enums).nodup_iff.mpr
        (List.nodup_cons.mpr ⟨hnew, h⟩)

theorem SectionOk.setEnumValue (name value : List UInt8) {s : CSection} (hs : SectionOk s)
    (hne : name ≠ []) :
    SectionOk (s.setEnumValue name value) := by
  have hnodup := setEnumValue_nodup name value hs.nodup
  by_cases hname : s.name = name
  · rw [CSection.setEnumValue, if_neg (not_not.mpr hname)] at hnodup ⊢
    exact { hs with
      nodup := hnodup
      unnamed := fun hnil => absurd (hname.symm.trans hnil) hne }
  · rw [CSection.setEnumValue, if_pos hname]
    exact hs

theorem SectionOk.setValue {k name value : List UInt8} {comment : List (List UInt8)}
    {s s' : CSection} (hs : SectionOk s) (hne : k ≠ []) (h : AssignmentOk name value)
    (hc : ∀ c ∈ comment, CommentOk c) (hset : s.setValue k name value comment = some s') :
    SectionOk s' := by
  have hunnamed : s.name = k → s.name ≠ [] := fun hname hnil => hne (hname.symm.trans hnil)
  cases setValue_cases hset with
  | otherSection => exact hs
  | changed hname =>
    have hkeep : ∀ r : CRecord, r.name = name →
        (CRecord.setComment comment (r.setValue name value)).name = name := fun r hr => by
          simpa using hr
    exact { hs with
      records := Keyed.forall_modify CRecord.name hs.records fun r hr _ =>
        ((hs.records r hr).setValue h).setComment hc
      sorted := Keyed.modify_sorted CRecord.name hs.sorted hkeep
      unnamed := fun hnil => absurd hnil (hunnamed hname) }
  | inserted hname =>
    refine { hs with
      records := fun r hr => ?_
      sorted := Keyed.insert_sorted CRecord.name hs.sorted
      unnamed := fun hnil => absurd hnil (hunnamed hname) }
    rcases Keyed.mem_insert CRecord.name hr with rfl | hr
    · exact (recordOk_new h).setComment hc
    · exact hs.records r hr

/-! ## One pass -/

theorem Loaded.search {c : CConfOpt} (h : Loaded c) {name : List UInt8} {s : CSection}
    (hs : c.searchSection name = some s) : SectionOk s := h.sections s (Keyed.lookup_mem _ hs).1

/-- A change of `m_cSection`. -/
theorem Loaded.onSection {f : CSection → Option CSection} {c c' : CConfOpt} (h : Loaded c)
    (hname : ∀ s s', f s = some s' → s'.name = s.name)
    (hok : ∀ s s', SectionOk s → f s = some s' → SectionOk s') (hc : c.onSection f = some c') :
    Loaded c' := by
  obtain ⟨k, s, s', -, hs, hf, hk, rfl⟩ := onSection_spec hc
  refine ⟨Keyed.modify_sorted CSection.name h.sorted fun _ _ => (hname s s' hf).trans hk, ?_⟩
  exact Keyed.forall_modify CSection.name h.sections fun _ _ _ => hok s s' (h.search hs) hf

theorem Loaded.selectSection {name : List UInt8} {c : CConfOpt} (h : Loaded c) (hf : Formatted name)
    (hclean : Clean name) : Loaded (c.selectSection name) := by
  refine ⟨selectSection_sorted h.sorted, fun s hs => ?_⟩
  rcases mem_selectSection hs with rfl | hs
  · exact sectionOk_new hf hclean
  · exact h.sections s hs

section Pass

variable {r r' : Reader} {line : List UInt8}

theorem ReaderOk.section (h : ReaderOk r) (hline : LineOk line) (hfirst : firstValidChar line = 91)
    (hr : readSection line r = some r') : ReaderOk r' := by
  rcases readSection_cases hr with ⟨-, rfl⟩ | ⟨hclosed, conf, hconf, rfl⟩
  · exact h
  · have hclean : Clean (format (NetmtIniConf.sectionText line)) :=
      (hline.sectionText hfirst hclosed).subset fun _ hc => mem_format hc
    have hloaded := (h.conf.selectSection (formatted_format _) hclean).onSection
      (fun s s' hset => (setComment_same hset).1)
        (fun s s' hs hset => hs.setComment h.chain hset) hconf
    refine ⟨⟨hloaded.sorted, hloaded.sections⟩, by simp, Or.inr ?_⟩
    change conf.cSection = _
    rw [onSection_cSection hconf, selectSection_cSection]

theorem ReaderOk.comment (h : ReaderOk r) (hline : LineOk line)
    (hr : readComment line r = some r') :
    ReaderOk r' := by
  have htext : Trimmed (leftTrim (rightTrim line)) := trimmed_trim line
  have hclean : Clean (leftTrim (rightTrim line)) :=
    (hline.trimmed (List.nil_append line).symm).subset fun _ hc => leftTrim_mem hc
  cases hr
  refine ⟨⟨h.conf.sorted, h.conf.sections⟩, ?_, h.current⟩
  simp only
  split
  · intro c hc
    rw [List.mem_singleton.mp hc]
    exact commentOk_new htext hclean
  · exact commentOk_pushText h.chain htext hclean

theorem ReaderOk.record (h : ReaderOk r) (hline : LineOk line)
    (hfirst : firstValidChar line ∉ [91, 35, 59]) (hne : r.strSection ≠ []) (heq : 61 ∈ line)
    (hr : readRecord line r = some r') : ReaderOk r' := by
  have hassign := assignmentOk_line hline hfirst heq
  rw [readRecord] at hr
  obtain ⟨conf, hconf, rfl⟩ := Option.map_eq_some_iff.mp hr
  have hloaded := h.conf.onSection (fun s s' hset => setValue_section hset)
    (fun s s' hs hset => hs.setValue hne hassign h.chain hset) hconf
  refine ⟨⟨hloaded.sorted, hloaded.sections⟩, by simp, ?_⟩
  change conf.cSection = none ∧ _ ∨ conf.cSection = _
  rw [onSection_cSection hconf]
  exact h.current

/-- The words of a line. -/
theorem ReaderOk.words {strSection : List UInt8} {fuel pTemp : Nat} (h : ReaderOk r)
    (hne : strSection ≠ []) (hr : enumLoop strSection fuel pTemp r = some r') : ReaderOk r' := by
  induction fuel generalizing pTemp r with
  | zero => cases hr
  | succ fuel ih =>
    obtain rfl | ⟨n, start, c, rest, conf, strValue, hfuel, -, -, -, -, -, hconf, hrest⟩ :=
      enumLoop_cases hr
    · exact h
    · cases hfuel
      refine ih ⟨?_, ?_, ?_⟩ hrest
      · refine h.conf.onSection (fun s s' hs => ?_) (fun s s' hs hset => ?_) hconf
        · cases hs
          exact (setEnumValue_same strSection strValue s).1
        · cases hset
          exact hs.setEnumValue strSection strValue hne
      · rw [onSection_chainComment hconf]
        exact h.chain
      · rw [onSection_cSection hconf]
        exact h.current

/-- One line. -/
theorem ReaderOk.step (h : ReaderOk r) (hline : LineOk line) (hr : readLine r line = some r') :
    ReaderOk r' := by
  have hbuf : ReaderOk { r with strBuf := putString r.strBuf line } := ⟨h.conf, h.chain, h.current⟩
  have hpass := readLine_pass hr
  rw [lineText_eq hline.noNul] at hpass
  cases hpass with
  | blank => exact hbuf
  | header hfirst hsection => exact hbuf.section hline hfirst hsection
  | comment _ _ _ hcomment => exact hbuf.comment hline hcomment
  | nowhere => exact hbuf
  | record hfirst hne heq hrecord =>
    exact hbuf.record hline (fun hmem => hfirst (List.mem_cons_of_mem _ hmem)) hne heq hrecord
  | words _ hne _ hloop =>
    have hwords := hbuf.words hne hloop
    exact ⟨⟨hwords.conf.sorted, hwords.conf.sections⟩, hwords.chain, hwords.current⟩

end Pass

/-! ## The values of the enumerations -/

/-- A property of the values of each section. -/
def ListsAll (Q : List (List UInt8) → Prop) (c : CConfOpt) : Prop := ∀ s ∈ c.sections, Q s.enums

section Values

variable {P : List UInt8 → Prop} {Q : List (List UInt8) → Prop} {r r' : Reader} {line : List UInt8}

theorem listsAll_onSection {f : CSection → Option CSection} {c c' : CConfOpt} (h : ListsAll Q c)
    (hf : ∀ s s', f s = some s' → Q s.enums → Q s'.enums) (hc : c.onSection f = some c') :
    ListsAll Q c' := by
  obtain ⟨k, s, s', -, hs, hfs, -, rfl⟩ := onSection_spec hc
  exact Keyed.forall_modify CSection.name h fun _ _ _ => hf s s' hfs (h s (Keyed.lookup_mem _ hs).1)

theorem listsAll_selectSection (hnil : Q []) {c : CConfOpt} (h : ListsAll Q c) (name : List UInt8) :
    ListsAll Q (c.selectSection name) := by
  intro s hs
  rcases mem_selectSection hs with rfl | hs
  · exact hnil
  · exact h s hs

/-- Only the words of a line are stored. -/
theorem listsAll_step (hnil : Q []) (h : ListsAll Q r.conf)
    (hwords : ∀ r₁, firstValidChar (lineText line) ∉ [0, 91, 35, 59] → 61 ∉ lineText line →
      enumLoop r.strSection 257 0 { r with strBuf := putString r.strBuf line } = some r₁ →
      ListsAll Q r₁.conf)
    (hr : readLine r line = some r') : ListsAll Q r'.conf := by
  cases readLine_pass hr with
  | blank => exact h
  | nowhere => exact h
  | header _ hsection =>
    rcases readSection_cases hsection with ⟨-, rfl⟩ | ⟨-, conf, hconf, rfl⟩
    · exact h
    · have hkept : ListsAll Q conf := by
        refine listsAll_onSection (listsAll_selectSection hnil h _) (fun s s' hset hs => ?_) hconf
        obtain ⟨chain, rfl, -⟩ := setComment_cases hset
        exact hs
      exact hkept
  | comment _ _ _ hcomment =>
    cases hcomment
    exact h
  | record _ _ _ hrecord =>
    rw [readRecord] at hrecord
    obtain ⟨conf, hconf, rfl⟩ := Option.map_eq_some_iff.mp hrecord
    have hkept : ListsAll Q conf := by
      refine listsAll_onSection (c := r.conf) h (fun s s' hset hs => ?_) hconf
      cases setValue_cases hset <;> exact hs
    exact hkept
  | words hfirst _ hne hloop =>
    have hkept := hwords _ hfirst hne hloop
    exact hkept

/-- The same of each value. -/
theorem enumsAll_step (h : EnumsAll P r.conf)
    (hwords : ∀ r₁, firstValidChar (lineText line) ∉ [0, 91, 35, 59] → 61 ∉ lineText line →
      enumLoop r.strSection 257 0 { r with strBuf := putString r.strBuf line } = some r₁ →
      EnumsAll P r₁.conf)
    (hr : readLine r line = some r') : EnumsAll P r'.conf :=
  listsAll_step (Q := fun vs => ∀ v ∈ vs, P v) (fun _ hv => absurd hv List.not_mem_nil) h hwords hr

theorem setEnumValue_enums {name value v : List UInt8} {s : CSection}
    (h : v ∈ (s.setEnumValue name value).enums) : v ∈ s.enums ∨ v = value := by
  rw [CSection.setEnumValue] at h
  split at h
  · exact .inl h
  · simp only at h
    split at h
    · exact .inl h
    · exact (List.mem_append.mp h).imp_right List.mem_singleton.mp

/-- What the loop stores, where `I` holds of `pTemp` and `strValue` between its passes. -/
theorem enumLoop_lists {I : Nat → List UInt8 → Prop} {buf strSection : List UInt8}
    (hstep : ∀ pTemp strValue c rest, I pTemp strValue →
      buf.drop (pTemp + ((buf.drop pTemp).takeWhile isDelimiter).length) = c :: rest → c ≠ 0 →
      scanWord ((c :: rest).takeWhile (· ≠ 0)) strValue ≠ [] →
      (∀ s : CSection, Q s.enums →
        Q (s.setEnumValue strSection (scanWord ((c :: rest).takeWhile (· ≠ 0)) strValue)).enums) ∧
        I (pTemp + ((buf.drop pTemp).takeWhile isDelimiter).length +
          (scanWord ((c :: rest).takeWhile (· ≠ 0)) strValue).length)
          (scanWord ((c :: rest).takeWhile (· ≠ 0)) strValue))
    {fuel pTemp : Nat} (hbuf : r.strBuf = buf) (hi : I pTemp r.strValue) (h : ListsAll Q r.conf)
    (hr : enumLoop strSection fuel pTemp r = some r') :
      ListsAll Q r'.conf ∧ ∃ p, I p r'.strValue := by
  induction fuel generalizing pTemp r with
  | zero => cases hr
  | succ fuel ih =>
    obtain rfl | ⟨n, start, c, rest, conf, strValue, hfuel, hstart, hdrop, ⟨hc, -⟩,
        hvalue, hne, hconf, hrest⟩ :=
      enumLoop_cases hr
    · exact ⟨h, pTemp, hi⟩
    · cases hfuel
      rw [hbuf] at hstart hdrop
      rw [hstart] at hdrop hrest
      rw [hvalue] at hne
      obtain ⟨hq, hi'⟩ := hstep pTemp r.strValue c rest hi hdrop hc hne
      rw [← hvalue] at hq hi'
      refine ih (r := { r with conf := conf, strValue := strValue }) hbuf hi' ?_ hrest
      refine listsAll_onSection h (fun s s' hset hs => ?_) hconf
      cases hset
      exact hq s hs

/-- The same of each value. -/
theorem enumLoop_all {I : Nat → List UInt8 → Prop} {buf strSection : List UInt8}
    (hstep : ∀ pTemp strValue c rest, I pTemp strValue →
      buf.drop (pTemp + ((buf.drop pTemp).takeWhile isDelimiter).length) = c :: rest → c ≠ 0 →
      scanWord ((c :: rest).takeWhile (· ≠ 0)) strValue ≠ [] →
      P (scanWord ((c :: rest).takeWhile (· ≠ 0)) strValue) ∧
        I (pTemp + ((buf.drop pTemp).takeWhile isDelimiter).length +
          (scanWord ((c :: rest).takeWhile (· ≠ 0)) strValue).length)
          (scanWord ((c :: rest).takeWhile (· ≠ 0)) strValue))
    {fuel pTemp : Nat} (hbuf : r.strBuf = buf) (hi : I pTemp r.strValue) (h : EnumsAll P r.conf)
    (hr : enumLoop strSection fuel pTemp r = some r') :
      EnumsAll P r'.conf ∧ ∃ p, I p r'.strValue := by
  refine enumLoop_lists (Q := fun vs => ∀ v ∈ vs, P v) (fun pTemp strValue c rest hi hdrop hc hne =>
    ?_) hbuf hi h hr
  obtain ⟨hp, hi'⟩ := hstep pTemp strValue c rest hi hdrop hc hne
  refine ⟨fun s hs v hv => ?_, hi'⟩
  rcases setEnumValue_enums hv with hv | rfl
  · exact hs v hv
  · exact hp

end Values

/-! ## Words -/

/-- What `pTemp` points to behind the delimiters. -/
theorem drop_front (buf : List UInt8) (pTemp : Nat) :
    buf.drop (pTemp + ((buf.drop pTemp).takeWhile isDelimiter).length) =
      (buf.drop pTemp).dropWhile isDelimiter := by
  have hsplit : (buf.drop pTemp).takeWhile isDelimiter ++ (buf.drop pTemp).dropWhile isDelimiter =
      buf.drop pTemp := List.takeWhile_append_dropWhile
  have hdrop :
      ((buf.drop pTemp).takeWhile isDelimiter ++ (buf.drop pTemp).dropWhile isDelimiter).drop
        ((buf.drop pTemp).takeWhile isDelimiter).length = (buf.drop pTemp).dropWhile isDelimiter :=
    List.drop_left
  rwa [hsplit, List.drop_drop] at hdrop

/-- The same with `s` left of the line. -/
theorem drop_delimiters {buf s tail : List UInt8} {pTemp : Nat}
    (h : buf.drop pTemp = s ++ 0 :: tail) :
    buf.drop (pTemp + ((buf.drop pTemp).takeWhile isDelimiter).length) =
      s.dropWhile isDelimiter ++ 0 :: tail := by
  rw [drop_front, h, List.dropWhile_append]
  split
  · next hnil =>
    rw [List.isEmpty_iff.mp hnil]
    rfl
  · rfl

/-- How far the delimiters go. -/
theorem length_delimiters {buf s tail : List UInt8} {pTemp : Nat}
    (h : buf.drop pTemp = s ++ 0 :: tail) :
    ((buf.drop pTemp).takeWhile isDelimiter).length +
      (s.dropWhile isDelimiter).length = s.length := by
  have hsplit : (buf.drop pTemp).takeWhile isDelimiter ++ (buf.drop pTemp).dropWhile isDelimiter =
      buf.drop pTemp := List.takeWhile_append_dropWhile
  have hrest := drop_delimiters h
  have hlength := congrArg List.length hrest
  have hwhole := congrArg List.length h
  rw [← List.drop_drop, List.length_drop] at hlength
  have hle := congrArg List.length hsplit
  simp only [List.length_append, List.length_cons] at hlength hwhole hle
  omega

/-- `strlen` of what is left of the line. -/
theorem takeWhile_line {s : List UInt8} (hnul : 0 ∉ s) (tail : List UInt8) :
    (s ++ 0 :: tail).takeWhile (· ≠ 0) = s := by
  rw [List.takeWhile_append_of_pos]
  · simp
  · exact scan_ne hnul

/-- A word that starts where `sscanf` looks for it. -/
theorem scanWord_cons {c : UInt8} (hc : isSpace c = false) (s strValue : List UInt8) :
    scanWord (c :: s) strValue = c :: s.takeWhile fun d => !isSpace d := by
  have hdrop : (c :: s).dropWhile isSpace = c :: s := List.dropWhile_cons_of_neg (by simp [hc])
  rw [scanWord, hdrop, List.takeWhile_cons_of_pos (by simp [hc])]
  rfl

/-- What `sscanf` finds in a text without `=`. -/
structure Word (v : List UInt8) : Prop where
  nonempty : v ≠ []
  noSpace : ∀ c ∈ v, isSpace c = false
  noEquals : 61 ∉ v

theorem isDelimiter_of_isSpace {c : UInt8} (h : isSpace c = false) : isDelimiter c = false := by
  rw [isSpace, Bool.or_eq_false_iff, Bool.or_eq_false_iff] at h
  exact h.1.1

/-- The first character of a word. -/
theorem Word.cons {v : List UInt8} (h : Word v) :
    ∃ c t, v = c :: t ∧ isSpace c = false ∧ isDelimiter c = false := by
  obtain ⟨c, t, hcons⟩ := List.exists_cons_of_ne_nil h.nonempty
  have hspace : isSpace c = false := h.noSpace c (by simp [hcons])
  exact ⟨c, t, hcons, hspace, isDelimiter_of_isSpace hspace⟩

/-- Neither a vertical tab nor a form feed, which only `sscanf` takes for a space. -/
structure Plain (s : List UInt8) : Prop where
  noTab : 11 ∉ s
  noFeed : 12 ∉ s

theorem Plain.isSpace {s : List UInt8} (h : Plain s) {c : UInt8} (hc : c ∈ s) :
    isSpace c = isDelimiter c := by
  have htab : c ≠ 11 := fun heq => h.noTab (heq ▸ hc)
  have hfeed : c ≠ 12 := fun heq => h.noFeed (heq ▸ hc)
  simp [NetmtIniStr.isSpace, htab, hfeed]

/-- The loop stays on a plain line, and finds nothing but words. -/
theorem enumLoop_words {r r' : Reader} {strSection line tail : List UInt8} {fuel : Nat}
    (hnul : 0 ∉ line) (hplain : Plain line) (heq : 61 ∉ line) (hbuf : r.strBuf = line ++ 0 :: tail)
    (h : EnumsAll Word r.conf) (hr : enumLoop strSection fuel 0 r = some r') :
    EnumsAll Word r'.conf := by
  refine (enumLoop_all (I := fun pTemp _ => pTemp ≤ line.length) ?_ hbuf (Nat.zero_le _) h hr).1
  intro pTemp strValue c rest hle hdrop hc _
  have hleft : (line ++ 0 :: tail).drop pTemp = line.drop pTemp ++ 0 :: tail :=
    List.drop_append_of_le_length hle
  have hlength := length_delimiters hleft
  rw [drop_delimiters hleft] at hdrop
  have hsub : ∀ d ∈ (line.drop pTemp).dropWhile isDelimiter, d ∈ line :=
    fun d hd => List.mem_of_mem_drop ((List.dropWhile_suffix isDelimiter).subset hd)
  have hhead := List.head?_dropWhile_not isDelimiter (line.drop pTemp)
  rw [← hdrop, takeWhile_line fun hd => hnul (hsub 0 hd)]
  cases hrest : (line.drop pTemp).dropWhile isDelimiter with
  | nil =>
    rw [hrest] at hdrop
    cases hdrop
    exact absurd rfl hc
  | cons d s =>
    rw [hrest] at hsub hhead hlength
    have hspace : isSpace d = false := (hplain.isSpace (hsub d List.mem_cons_self)).trans hhead
    have hfront : (d :: s.takeWhile fun e => !isSpace e) <+: d :: s := by
      rw [List.prefix_cons_inj]
      exact List.takeWhile_prefix _
    rw [scanWord_cons hspace]
    refine ⟨⟨List.cons_ne_nil _ _, ?_, fun hmem => heq (hsub 61 (hfront.subset hmem))⟩, ?_⟩
    · intro e he
      rcases List.mem_cons.mp he with rfl | he
      · exact hspace
      · simpa using List.mem_takeWhile_imp he
    · have hword := hfront.length_le
      rw [List.length_drop] at hlength
      omega

/-! ## Whole texts -/

theorem fgetsAll_ok {text line : List UInt8} (hline : 10 ∉ line) :
    ∀ l ∈ fgetsAll line text, 10 ∉ l.dropLast ∧ ∀ c ∈ l, c ∈ line ∨ c ∈ text := by
  induction text generalizing line with
  | nil =>
    intro l hl
    rw [fgetsAll] at hl
    split at hl
    · cases hl
    · rw [List.mem_singleton.mp hl]
      exact ⟨fun hmem => hline (List.dropLast_subset _ hmem), fun c hc => .inl hc⟩
  | cons d text ih =>
    intro l hl
    rw [fgetsAll] at hl
    split at hl
    · rcases List.mem_cons.mp hl with rfl | hl
      · rw [List.dropLast_concat]
        refine ⟨hline, fun c hc => ?_⟩
        cases List.mem_append.mp hc with
        | inl hc =>
          exact .inl hc
        | inr hc =>
          exact .inr (by simp [List.mem_singleton.mp hc])
      · obtain ⟨hfeed, hall⟩ := ih List.not_mem_nil l hl
        exact ⟨hfeed, fun c hc =>
          .inr (List.mem_cons_of_mem _ ((hall c hc).resolve_left List.not_mem_nil))⟩
    · next hd =>
      rw [not_or] at hd
      have hline' : 10 ∉ line ++ [d] := by
        simp only [List.mem_append, List.mem_singleton, not_or]
        exact ⟨hline, fun h => hd.1 h.symm⟩
      obtain ⟨hfeed, hall⟩ := ih hline' l hl
      refine ⟨hfeed, fun c hc => ?_⟩
      cases hall c hc with
      | inl hc =>
        cases List.mem_append.mp hc with
        | inl hc =>
          exact .inl hc
        | inr hc =>
          exact .inr (by simp [List.mem_singleton.mp hc])
      | inr hc =>
        exact .inr (List.mem_cons_of_mem _ hc)

/-- What all passes over some lines keep. -/
theorem readLines_all {I : Reader → Prop} {Q : List UInt8 → Prop}
    (hstep : ∀ r r' line, I r → Q line → readLine r line = some r' → I r')
    {lines : List (List UInt8)} (hlines : ∀ line ∈ lines, Q line) {r r' : Reader} (h : I r)
    (hr : readLines lines r = some r') : I r' := by
  induction lines generalizing r with
  | nil =>
    cases hr
    exact h
  | cons line lines ih =>
    rw [readLines, List.foldlM_cons] at hr
    obtain ⟨r₁, hline, hrest⟩ := Option.bind_eq_some_iff.mp hr
    exact ih (fun l hl => hlines l (List.mem_cons_of_mem _ hl))
      (hstep r r₁ line h (hlines line List.mem_cons_self) hline) hrest

section File

variable {junk text : List UInt8} {c : CConfOpt}

/-- What is kept line by line holds of what is loaded. -/
theorem readFromFile_all {I : Reader → Prop} (hstart : I ⟨.initial, junk, [], []⟩)
    (hstep : ∀ r r' line, (∀ b ∈ line, b ∈ text) → 10 ∉ line.dropLast → I r →
      readLine r line = some r' → I r')
    (h : readFromFile junk text = some c) : ∃ r, I r ∧ r.conf = c := by
  obtain ⟨r, hr, rfl⟩ := Option.map_eq_some_iff.mp h
  refine ⟨r, readLines_all (Q := fun line => (∀ b ∈ line, b ∈ text) ∧ 10 ∉ line.dropLast)
    ?_ ?_ hstart hr, rfl⟩
  · exact fun r r' line hi hq hr => hstep r r' line hq.1 hq.2 hi hr
  · intro line hline
    obtain ⟨hfeed, hall⟩ := fgetsAll_ok List.not_mem_nil line hline
    exact ⟨fun b hb => (hall b hb).resolve_left List.not_mem_nil, hfeed⟩

/-- A text without NUL bytes. -/
theorem readFromFile_loaded (hnul : 0 ∉ text) (h : readFromFile junk text = some c) : Loaded c := by
  have hstart : ReaderOk ⟨.initial, junk, [], []⟩ :=
    ⟨⟨List.Pairwise.nil, fun s hs => absurd hs List.not_mem_nil⟩,
      fun c hc => absurd hc List.not_mem_nil,
      .inl ⟨rfl, rfl⟩⟩
  obtain ⟨r, hr, rfl⟩ := readFromFile_all hstart
    (fun r r' line hsub hfeed hr hstep => hr.step ⟨fun hmem => hnul (hsub 0 hmem), hfeed⟩ hstep) h
  exact hr.conf

theorem lineText_noNul (line : List UInt8) : 0 ∉ lineText line := fun hmem => by
  simpa using List.mem_takeWhile_imp hmem

/-- No value of an enumeration has a NUL. -/
theorem readFromFile_noNul (h : readFromFile junk text = some c) : EnumsAll (fun v => 0 ∉ v) c := by
  suffices hstep : ∀ r r' line, (∀ b ∈ line, b ∈ text) → 10 ∉ line.dropLast →
      (EnumsAll (fun v => 0 ∉ v) r.conf ∧ 0 ∉ r.strValue) → readLine r line = some r' →
      EnumsAll (fun v => 0 ∉ v) r'.conf ∧ 0 ∉ r'.strValue by
    obtain ⟨r, hr, rfl⟩ := readFromFile_all
      (I := fun r => EnumsAll (fun v => 0 ∉ v) r.conf ∧ 0 ∉ r.strValue)
      ⟨fun s hs => absurd hs List.not_mem_nil, List.not_mem_nil⟩ hstep h
    exact hr.1
  rintro r r' line - - ⟨hall, hvalue⟩ hstep
  -- a word of the buffer ends at the first NUL, and `strValue` has none
  have hloop : ∀ r₁ buf pTemp, enumLoop r.strSection pTemp 0 { r with strBuf := buf } = some r₁ →
      EnumsAll (fun v => 0 ∉ v) r₁.conf ∧ ∃ _ : Nat, 0 ∉ r₁.strValue := by
    intro r₁ buf pTemp hr
    refine enumLoop_all (r := { r with strBuf := buf })
      (I := fun _ strValue => 0 ∉ strValue) ?_ rfl hvalue
      hall hr
    intro p strValue c rest hnone _ _ _
    have hword : 0 ∉ scanWord ((c :: rest).takeWhile (· ≠ 0)) strValue := by
      rw [scanWord]
      split
      · exact hnone
      · intro hmem
        have htext := (List.dropWhile_suffix _).subset ((List.takeWhile_prefix _).subset hmem)
        simpa using List.mem_takeWhile_imp htext
    exact ⟨hword, hword⟩
  refine ⟨enumsAll_step hall (fun r₁ _ _ hr => (hloop r₁ _ _ hr).1) hstep, ?_⟩
  cases readLine_pass hstep with
  | blank => exact hvalue
  | nowhere => exact hvalue
  | header _ hsection =>
    rcases readSection_cases hsection with ⟨-, rfl⟩ | ⟨-, conf, -, rfl⟩
    · exact hvalue
    · exact hvalue
  | comment _ _ _ hcomment =>
    cases hcomment
    exact hvalue
  | record _ _ heq hrecord =>
    rw [readRecord] at hrecord
    obtain ⟨conf, -, rfl⟩ := Option.map_eq_some_iff.mp hrecord
    rw [separateByFirstDelimiter, if_pos heq]
    exact fun hmem =>
      lineText_noNul line
        ((List.dropWhile_suffix _).subset (List.mem_of_mem_drop (mem_format hmem)))
  | words _ _ _ hr =>
    obtain ⟨-, -, hnone⟩ := hloop _ _ _ hr
    exact hnone

/-- The values of a section are different. -/
theorem readFromFile_distinct (h : readFromFile junk text = some c) : ListsAll List.Nodup c := by
  have hstep : ∀ r r' line, (∀ b ∈ line, b ∈ text) → 10 ∉ line.dropLast →
    ListsAll List.Nodup r.conf →
      readLine r line = some r' → ListsAll List.Nodup r'.conf := by
    intro r r' line _ _ hall hr
    refine listsAll_step .nil hall (fun r₁ _ _ hloop => ?_) hr
    exact (enumLoop_lists (r := { r with strBuf := putString r.strBuf line }) (I := fun _ _ => True)
      (fun _ _ _ _ _ _ _ _ => ⟨fun s => setEnumValue_nodup _ _, trivial⟩) rfl trivial hall hloop).1
  obtain ⟨r, hr, rfl⟩ := readFromFile_all (I := fun r => ListsAll List.Nodup r.conf)
    (fun s hs => absurd hs List.not_mem_nil) hstep h
  exact hr

/-- Without vertical tabs and form feeds, the values of the enumerations are words. -/
theorem readFromFile_words (hnul : 0 ∉ text) (hplain : Plain text)
    (h : readFromFile junk text = some c) :
    EnumsAll Word c := by
  have hstep : ∀ r r' line, (∀ b ∈ line, b ∈ text) → 10 ∉ line.dropLast → EnumsAll Word r.conf →
      readLine r line = some r' → EnumsAll Word r'.conf := by
    intro r r' line hsub _ hall hr
    have hline : 0 ∉ line := fun hmem => hnul (hsub 0 hmem)
    refine enumsAll_step hall (fun r₁ _ hne hloop => ?_) hr
    rw [lineText_eq hline] at hne
    have hplain' : Plain line :=
      ⟨fun hmem => hplain.noTab (hsub 11 hmem), fun hmem => hplain.noFeed (hsub 12 hmem)⟩
    exact enumLoop_words (r := { r with strBuf := putString r.strBuf line }) hline
      hplain' hne rfl hall hloop
  obtain ⟨r, hr, rfl⟩ := readFromFile_all (I := fun r => EnumsAll Word r.conf)
    (fun s hs => absurd hs List.not_mem_nil) hstep h
  exact hr

end File

end NetmtIniLoaded
