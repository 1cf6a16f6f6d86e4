import Netmt.IniLoaded

/-!
# Printing and reading back

The printer puts one comment, record or value of an enumeration on a line. Each such
line is read back by itself, and a section by its lines. What comes back is the same
where no comment is repeated and no value starts like a comment or a header.
-/
namespace NetmtIniPrint

open NetmtIniStr NetmtIniConf NetmtIniLookup NetmtIniLoaded

/-! ## The printed lines -/

/-- Lines, each with its line feed. -/
def unlines (lines : List (List UInt8)) : List UInt8 := lines.flatMap (· ++ [10])

theorem unlines_append (ls ls' : List (List UInt8)) :
    unlines (ls ++ ls') = unlines ls ++ unlines ls' :=
  List.flatMap_append

theorem unlines_flatMap {α : Type} (f : α → List (List UInt8)) (xs : List α) :
    unlines (xs.flatMap f) = xs.flatMap fun x => unlines (f x) := by
  induction xs with
  | nil => rfl
  | cons x xs ih => rw [List.flatMap_cons, unlines_append, ih, List.flatMap_cons]

def recordLine (r : CRecord) : List UInt8 := 9 :: (r.name ++ [32, 61, 32] ++ r.value)

def recordLines (r : CRecord) : List (List UInt8) :=
  (if r.comment = [] then [] else [] :: r.comment.map (9 :: ·)) ++ [recordLine r]

def headerLine (name : List UInt8) : List UInt8 := 91 :: (name ++ [93])

def enumLine (maxWidth : Nat) (value : List UInt8) : List UInt8 :=
  value ++ List.replicate (maxWidth + 1 - value.length) 32

/-- The lines of a section, without their line feeds. -/
def sectionLines (s : CSection) : List (List UInt8) :=
  s.comment ++ [headerLine s.name] ++ s.records.flatMap recordLines ++
    (if s.records = [] then [] else [[]]) ++ s.enums.map (enumLine s.maxWidth) ++ [[]]

theorem printComment_plain (chain : List (List UInt8)) : printComment [] chain = unlines chain := by
  induction chain with
  | nil => rfl
  | cons comment chain ih =>
    rw [printComment, if_pos rfl, ih]
    rfl

theorem printComment_tab (chain : List (List UInt8)) :
    printComment [9] chain = unlines (chain.map (9 :: ·)) := by
  induction chain with
  | nil => rfl
  | cons comment chain ih =>
    rw [printComment, if_neg (by simp), ih]
    rfl

theorem print_record (r : CRecord) : r.print true = unlines (recordLines r) := by
  have hcomment : printComment [10, 9] r.comment =
      unlines (if r.comment = [] then [] else [] :: r.comment.map (9 :: ·)) := by
    cases r.comment with
    | nil => rfl
    | cons comment chain =>
      rw [printComment, if_neg (by simp), printComment_tab, if_neg (by simp)]
      rfl
  have hvalue : (if r.value ≠ [] then r.value else if true then [] else defaultWord) = r.value := by
    by_cases hnil : r.value = [] <;> simp [hnil]
  rw [CRecord.print, hcomment, hvalue, recordLines, unlines_append]
  simp [unlines, recordLine]

theorem print_section (s : CSection) : s.print true = unlines (sectionLines s) := by
  have hrecords : s.records.flatMap (CRecord.print true) =
      unlines (s.records.flatMap recordLines) := by
    rw [unlines_flatMap]
    exact congrArg (List.flatMap · s.records) (funext print_record)
  have henums : s.enums.flatMap (printEnum s.maxWidth) =
      unlines (s.enums.map (enumLine s.maxWidth)) := by
    rw [unlines, List.flatMap_map]
    rfl
  have hblank : (if s.records = [] then [] else [10]) =
      unlines (if s.records = [] then [] else [[]]) := by
    split <;> rfl
  rw [CSection.print, printComment_plain, hrecords, henums, hblank, sectionLines]
  simp only [unlines_append]
  simp [unlines, headerLine]

theorem print_conf (c : CConfOpt) : c.print true = unlines (c.sections.flatMap sectionLines) := by
  rw [unlines_flatMap, CConfOpt.print]
  exact congrArg (List.flatMap · c.sections) (funext print_section)

/-! ## The lines that are read -/

/-- What `fgets` makes of a line of at most 254 bytes and a line feed. -/
def fgetsLine (line : List UInt8) : List (List UInt8) :=
  if line.length = 254 then [line, [10]] else [line ++ [10]]

theorem splitLines_lines {lines : List (List UInt8)} (h : ∀ l ∈ lines, 10 ∉ l) :
    splitLines [] (unlines lines) = lines.map (· ++ [10]) := by
  induction lines with
  | nil => rfl
  | cons line lines ih =>
    have hfirst := splitLines_feed (h line List.mem_cons_self) [] (unlines lines)
    rw [ih fun l hl => h l (List.mem_cons_of_mem _ hl)] at hfirst
    rw [List.map_cons, ← List.nil_append line, ← hfirst, unlines, List.flatMap_cons]
    simp [unlines]

theorem fgetsAll_line {line : List UInt8} (hline : 10 ∉ line) (hlen : line.length ≤ 254)
    (text : List UInt8) :
    fgetsAll [] (line ++ 10 :: text) = fgetsLine line ++ fgetsAll [] text := by
  by_cases hfull : line.length = 254
  · -- the line feed is left for a line of its own
    obtain ⟨front, c, hfront⟩ :=
      (List.eq_nil_or_concat line).resolve_left (by rintro rfl; cases hfull)
    rw [List.concat_eq_append] at hfront
    subst hfront
    rw [List.length_append, List.length_singleton] at hfull
    have hfeed : 10 ∉ front := fun hmem => hline (List.mem_append_left _ hmem)
    rw [fgetsLine, if_pos (by simp; omega), List.append_assoc,
      fgetsAll_append hfeed (by simp; omega),
      List.nil_append, List.cons_append, List.nil_append, fgetsAll,
      if_pos (.inr (by omega)), fgetsAll,
      if_pos (.inl rfl)]
    rfl
  · rw [fgetsLine, if_neg hfull, fgetsAll_append hline (by simp; omega), fgetsAll,
      if_pos (.inl rfl)]
    rfl

theorem fgetsAll_lines {lines : List (List UInt8)} (h : ∀ l ∈ lines, 10 ∉ l ∧ l.length ≤ 254) :
    fgetsAll [] (unlines lines) = lines.flatMap fgetsLine := by
  induction lines with
  | nil => rfl
  | cons line lines ih =>
    obtain ⟨hfeed, hlen⟩ := h line List.mem_cons_self
    have hfirst := fgetsAll_line hfeed hlen (unlines lines)
    rw [ih fun l hl => h l (List.mem_cons_of_mem _ hl)] at hfirst
    rw [List.flatMap_cons, ← hfirst, unlines, List.flatMap_cons]
    simp [unlines]

/-! ## Reading a line back -/

/-- Reading some lines takes the reader from `P` to `Q`. -/
def Leads (lines : List (List UInt8)) (P Q : Reader → Prop) : Prop :=
  ∀ r, P r → ∃ r', readLines lines r = some r' ∧ Q r'

theorem leads_nil (P : Reader → Prop) : Leads [] P P := fun r hr => ⟨r, rfl, hr⟩

theorem Leads.append {ls ls' : List (List UInt8)} {P Q R : Reader → Prop} (h : Leads ls P Q)
    (h' : Leads ls' Q R) : Leads (ls ++ ls') P R := by
  intro r hr
  obtain ⟨r₁, hfirst, hq⟩ := h r hr
  obtain ⟨r₂, hrest, hr'⟩ := h' r₁ hq
  refine ⟨r₂, ?_, hr'⟩
  rw [readLines, List.foldlM_append]
  exact (congrArg (Option.bind · (readLines ls')) hfirst).trans hrest

theorem leads_line {line : List UInt8} {P Q : Reader → Prop}
    (h : ∀ r, P r → ∃ r', readLine r line = some r' ∧ Q r') : Leads [line] P Q := by
  intro r hr
  obtain ⟨r', hline, hq⟩ := h r hr
  exact ⟨r', by rw [readLines, List.foldlM_cons, hline]; rfl, hq⟩

/-- The sections so far, the current one, and the comments for what comes next. -/
structure At (ss : List CSection) (cur : Option (List UInt8)) (ch : List (List UInt8))
    (r : Reader) : Prop where
  sections : r.conf.sections = ss
  cSection : r.conf.cSection = cur
  chain : r.conf.chainComment = ch
  strSection : r.strSection = cur.getD []

/-- A change of a section that is the last one. -/
theorem onSection_last {f : CSection → Option CSection} {c : CConfOpt} {ss : List CSection}
    {s s' : CSection} (hne : ∀ t ∈ ss, t.name ≠ s.name) (hsections : c.sections = ss ++ [s])
    (hcur : c.cSection = some s.name) (hf : f s = some s') :
    c.onSection f = some { c with sections := ss ++ [s'] } := by
  have hlookup : c.searchSection s.name = some s := by
    rw [CConfOpt.searchSection, hsections, Keyed.lookup_append,
      (Keyed.lookup_eq_none CSection.name).mpr hne,
      Option.none_or, Keyed.lookup_cons, if_pos rfl]
  rw [CConfOpt.onSection, hcur, Option.bind_some, hlookup]
  simp only
  rw [hf, Option.map_some, hsections, Keyed.modify_last CSection.name hne]

section Lines

variable {ss : List CSection} {cur : Option (List UInt8)} {ch : List (List UInt8)}
  {post : List UInt8}

theorem leads_blank (hpost : Blank post) : Leads [post] (At ss cur ch) (At ss cur ch) := by
  apply leads_line
  intro r hr
  refine ⟨{ r with strBuf := putString r.strBuf post }, ?_,
    ⟨hr.sections, hr.cSection, hr.chain, hr.strSection⟩⟩
  rw [readLine, lineText_eq (hpost.not_mem (by decide))]
  exact if_pos (firstValidChar_blank hpost)

/-- A line as `fgets` cuts it. -/
theorem leads_fgetsLine {P : Reader → Prop} {line : List UInt8}
    (h : ∀ post, Blank post → Leads [line ++ post] P (At ss cur ch)) :
    Leads (fgetsLine line) P (At ss cur ch) := by
  have hfeed : Blank [10] := blank_singleton (by decide)
  rw [fgetsLine]
  split
  · have hline := h [] blank_nil
    rw [List.append_nil] at hline
    exact hline.append (leads_blank hfeed)
  · exact h [10] hfeed

theorem leads_comment {pre comment : List UInt8} (hpre : Blank pre) (hc : CommentOk comment)
    (hpost : Blank post) :
    Leads [pre ++ comment ++ post] (At ss cur ch) (At ss cur (pushText ch comment)) := by
  obtain ⟨rest, hcons⟩ := hc.cons
  have hnul : 0 ∉ pre ++ comment ++ post := by
    simp only [List.mem_append, not_or]
    exact ⟨⟨hpre.not_mem (by decide), hc.clean.noNul⟩, hpost.not_mem (by decide)⟩
  have hfirst : firstValidChar (pre ++ comment ++ post) = 35 := by
    rw [hcons, List.append_assoc]
    exact firstValidChar_pad hpre (by decide) (rest ++ post)
  have hchain : (if ch = [] then [newComment comment] else pushText ch comment) =
      pushText ch comment := by
    split
    · next hnil => simp [hnil, pushText]
    · rfl
  apply leads_line
  intro r hr
  rw [readLine, lineText_eq hnul]
  simp only
  rw [if_neg (by rw [hfirst]; decide), if_neg (by rw [hfirst]; decide),
    if_pos (.inl hfirst), readComment]
  simp only
  rw [trim_pad hpre hc.trimmed hpost, hr.chain, hchain]
  exact ⟨_, rfl, ⟨hr.sections, hr.cSection, rfl, hr.strSection⟩⟩

/-- A name that belongs behind all others. -/
theorem search_greater {name : List UInt8} (hss : ∀ t ∈ ss, t.name < name) :
    ∀ t ∈ ss, t.name ≠ name :=
  fun t ht heq => Std.Asymm.asymm _ _ (hss t ht) (heq ▸ heq ▸ hss t ht)

theorem leads_header {name : List UInt8} (hf : Formatted name) (hclean : Clean name)
    (hss : ∀ t ∈ ss, t.name < name) (hpost : Blank post) :
    Leads [headerLine name ++ post] (At ss cur ch)
      (At (ss ++ [{ newSection name with comment := ch }]) (some name) []) := by
  have hline : headerLine name ++ post = 91 :: (name ++ [93] ++ post) := rfl
  have hopen : firstValidChar (headerLine name ++ post) = 91 :=
    firstValidChar_pad (c := 91) blank_nil (by decide) (name ++ [93] ++ post)
  have hnul : 0 ∉ headerLine name ++ post := by
    simp only [headerLine, List.mem_append, List.mem_cons, List.not_mem_nil, or_false, not_or]
    exact ⟨⟨by decide, hclean.noNul, by decide⟩, hpost.not_mem (by decide)⟩
  have hclosed : 93 ∈ headerLine name ++ post := by simp [headerLine]
  have htext : format (sectionText (headerLine name ++ post)) = name := by
    have hlast : (name ++ [93] ++ post).rdropWhile (· ≠ 93) = name ++ [93] := by
      rw [List.rdropWhile, List.reverse_append, List.dropWhile_append_of_pos]
      · simp
      · exact scan_ne fun hmem => hpost.not_mem (by decide) (List.mem_reverse.mp hmem)
    have hsection : sectionText ([] ++ 91 :: (name ++ [93] ++ post)) =
        [] ++ 32 :: ((name ++ [93] ++ post).rdropWhile (· ≠ 93)).dropLast :=
          sectionText_eq blank_nil (by simp)
    rw [hlast, List.dropLast_concat, List.nil_append, List.nil_append] at hsection
    have hblank : Blank [32] := blank_singleton (by decide)
    have hformat := hf.format_pad hblank blank_nil
    rw [List.append_nil] at hformat
    rw [hline, hsection]
    exact hformat
  have hne := search_greater hss
  apply leads_line
  intro r hr
  have hsearch : r.conf.searchSection name = none := by
    rw [CConfOpt.searchSection, hr.sections, Keyed.lookup_eq_none]
    exact hne
  have hselect : r.conf.selectSection name =
      { r.conf with cSection := some name, sections := ss ++ [newSection name] } := by
    rw [CConfOpt.selectSection, hsearch, hr.sections, Keyed.insert_last CSection.name hss]
    rfl
  have hset : CSection.setComment ch (newSection name) =
      some { newSection name with comment := ch } :=
    if_pos rfl
  have hon := onSection_last
      (c := { r.conf with cSection := some name, sections := ss ++ [newSection name] })
    (s := newSection name) hne rfl rfl hset
  rw [readLine, lineText_eq hnul]
  simp only
  rw [if_neg (by rw [hopen]; decide), if_pos hopen, readSection, if_pos hclosed]
  simp only
  rw [htext, hselect, hr.chain, hon]
  exact ⟨_, rfl, ⟨rfl, rfl, rfl, rfl⟩⟩

/-- An assignment under a name that belongs behind all others. -/
theorem setValue_last (ch : List (List UInt8)) {s : CSection} {rec : CRecord} (hrec : RecordOk rec)
    (hnew : ∀ q ∈ s.records, q.name < rec.name) : s.setValue s.name rec.name rec.value ch =
      some { s with records := s.records ++ [{ rec with comment := ch }] } := by
  have hne : ∀ q ∈ s.records, q.name ≠ rec.name :=
    fun q hq heq => Std.Asymm.asymm _ _ (hnew q hq) (heq ▸ heq ▸ hnew q hq)
  have hsearch : s.searchRecord rec.name = none := by
    rw [CSection.searchRecord]
    split
    · rfl
    · exact (Keyed.lookup_eq_none CRecord.name).mpr hne
  have hnone : s.records.any (fun q => q.name = rec.name) = false := by
    rw [List.any_eq_false]
    intro q hq
    simpa using hne q hq
  have hvalue : newRecord rec.name rec.value = ⟨rec.name, rec.value, []⟩ := by
    rw [newRecord, CRecord.setValue]
    split
    · next hnil =>
      rw [hrec.blank (hnil.resolve_right fun h => h rfl)]
    · rw [hrec.stored]
  have hrecord : (newRecord rec.name rec.value).setComment ch = { rec with comment := ch } := by
    rw [hvalue, CRecord.setComment]
    split
    · next hnil => rw [hnil]
    · rfl
  rw [CSection.setValue, if_neg (by simp), hsearch]
  simp only
  have hinsert : Keyed.insert CRecord.name { rec with comment := ch } s.records =
      s.records ++ [{ rec with comment := ch }] := Keyed.insert_last CRecord.name hnew
  rw [hnone, if_neg (by simp), hrecord, hinsert]

section RecordLine

variable {rec : CRecord} (hrec : RecordOk rec)

theorem recordLine_split (rec : CRecord) (post : List UInt8) : recordLine rec ++ post =
    [9] ++ rec.name ++ [32] ++ 61 :: ([32] ++ rec.value ++ post) := by
  simp [recordLine]

include hrec in
/-- Both sides of a printed assignment. -/
theorem recordLine_parts (hpost : Blank post) :
    separateByFirstDelimiter (recordLine rec ++ post) 61 = (rec.name, rec.value) := by
  have htab : Blank [9] := blank_singleton (by decide)
  have hspace : Blank [32] := blank_singleton (by decide)
  have hname : format ([9] ++ rec.name ++ [32]) = rec.name := hrec.name.format_pad htab hspace
  have hvalue : format ([32] ++ rec.value ++ post) = rec.value := hrec.value.format_pad hspace hpost
  have hnone : 61 ∉ [9] ++ rec.name ++ [32] := by
    simp only [List.mem_append, not_or]
    exact ⟨⟨by decide, hrec.noEquals⟩, by decide⟩
  have hfront := scan_ne hnone
  rw [recordLine_split, separateByFirstDelimiter, if_pos (by simp),
    List.takeWhile_append_of_pos hfront,
    List.dropWhile_append_of_pos hfront]
  simp only [ne_eq, not_true_eq_false, decide_false, Bool.false_eq_true, not_false_eq_true,
    List.takeWhile_cons_of_neg, List.append_nil, List.dropWhile_cons_of_neg,
    List.drop_succ_cons, List.drop_zero]
  rw [hname, hvalue]

include hrec in
/-- A printed assignment is read as one: it starts with its name, or with the `=`. -/
theorem recordLine_first (post : List UInt8) :
    firstValidChar (recordLine rec ++ post) ∉ [0, 91, 35, 59] := by
  have htab : Blank [9] := blank_singleton (by decide)
  have hspace : Blank [32] := blank_singleton (by decide)
  rw [recordLine_split]
  cases hchars : rec.name with
  | nil =>
    have hequals : firstValidChar ([9] ++ [] ++ [32] ++ 61 :: ([32] ++ rec.value ++ post)) = 61 :=
      firstValidChar_pad (htab.append hspace) (by decide) _
    rw [hequals]
    decide
  | cons c name =>
    have hdel := hrec.name.trimmed.left c (by rw [hchars]; rfl)
    have hchar : firstValidChar
        ([9] ++ c :: name ++ [32] ++ 61 :: ([32] ++ rec.value ++ post)) = c := by
      have hpad := firstValidChar_pad htab hdel (name ++ [32] ++ 61 :: ([32] ++ rec.value ++ post))
      simpa using hpad
    rw [hchar, List.mem_cons, not_or]
    refine ⟨?_, hrec.first c (by rw [hchars]; rfl)⟩
    rintro rfl
    exact hrec.nameClean.noNul (by simp [hchars])

end RecordLine

theorem leads_record {s : CSection} {rec : CRecord} (hrec : RecordOk rec) (hs : s.name ≠ [])
    (hss : ∀ t ∈ ss, t.name < s.name) (hnew : ∀ q ∈ s.records, q.name < rec.name)
    (hpost : Blank post) :
    Leads [recordLine rec ++ post] (At (ss ++ [s]) (some s.name) ch)
      (At (ss ++ [{ s with records := s.records ++ [{ rec with comment := ch }] }])
        (some s.name) []) := by
  have hnul : 0 ∉ recordLine rec ++ post := by
    simp only [recordLine, List.mem_append, List.mem_cons, List.not_mem_nil, or_false, not_or]
    exact ⟨⟨by decide, ⟨hrec.nameClean.noNul, by decide⟩, hrec.valueClean.noNul⟩,
      hpost.not_mem (by decide)⟩
  have heq : 61 ∈ recordLine rec ++ post := by simp [recordLine]
  have hfirst := recordLine_first hrec post
  have hne := search_greater hss
  simp only [List.mem_cons, List.not_mem_nil, or_false, not_or] at hfirst
  obtain ⟨hzero, hopen, hhash, hsemicolon⟩ := hfirst
  apply leads_line
  intro r hr
  have hstr : r.strSection = s.name := hr.strSection
  have hon := onSection_last (c := r.conf) hne hr.sections hr.cSection (setValue_last ch hrec hnew)
  rw [readLine, lineText_eq hnul]
  simp only
  rw [if_neg hzero, if_neg hopen, if_neg (by rw [hstr]; simp [hhash, hsemicolon, hs]),
    if_neg (by rw [hr.cSection]; simp), if_pos heq, readRecord]
  simp only
  rw [recordLine_parts hrec hpost, hstr, hr.chain, hon]
  exact ⟨_, rfl, ⟨rfl, hr.cSection, rfl, rfl⟩⟩

/-- The loop on a line with one word. -/
theorem enumLoop_single {r : Reader} {v tail : List UInt8} (hnul : 0 ∉ v) (hword : Word v)
    (hpost : Blank post) (hbuf : r.strBuf = v ++ post ++ 0 :: tail) (strSection : List UInt8) :
    enumLoop strSection 257 0 r = (r.conf.onSection fun s => some (s.setEnumValue strSection v)).map
      fun conf => { r with conf := conf, strValue := v } := by
  obtain ⟨c, t, hcons, hspace, hdel⟩ := hword.cons
  -- the first pass starts at the word
  have hstart : (v ++ post).dropWhile isDelimiter = v ++ post := by
    rw [hcons]
    exact List.dropWhile_cons_of_neg (by simp [hdel])
  have hfirst : (v ++ post ++ 0 :: tail).drop 0 = v ++ post ++ 0 :: tail := rfl
  have hzero := length_delimiters hfirst
  rw [hstart] at hzero
  have hlen : (((v ++ post ++ 0 :: tail).drop 0).takeWhile isDelimiter).length = 0 := by omega
  have hnul' : 0 ∉ v ++ post := by
    simp only [List.mem_append, not_or]
    exact ⟨hnul, hpost.not_mem (by decide)⟩
  have hscan : scanWord (v ++ post) r.strValue = v := by
    have hwhole : ((t ++ post).takeWhile fun d => !isSpace d) = t := by
      rw [List.takeWhile_append_of_pos fun d hd => by simp [hword.noSpace d (by simp [hcons, hd])]]
      cases post with
      | nil => simp
      | cons d post =>
        have hd : isSpace d = true := by
          rw [isSpace, hpost d List.mem_cons_self]
          rfl
        rw [List.takeWhile_cons_of_neg (by simp [hd]), List.append_nil]
    rw [hcons, List.cons_append, scanWord_cons hspace, hwhole]
  -- the second one finds the end of the line
  have hrest : (v ++ post ++ 0 :: tail).drop v.length = post ++ 0 :: tail := by
    rw [List.append_assoc, List.drop_left]
  have hend := drop_delimiters hrest
  have hblank : post.dropWhile isDelimiter = [] := List.dropWhile_eq_nil_iff.mpr hpost
  rw [hblank, List.nil_append] at hend
  rw [enumLoop]
  simp only [hbuf]
  rw [hlen, Nat.zero_add, hfirst]
  have hchars : v ++ post ++ 0 :: tail = c :: (t ++ post ++ 0 :: tail) := by simp [hcons]
  have hc : c ≠ 0 := by
    rintro rfl
    exact hnul (by simp [hcons])
  have htext := takeWhile_line hnul' tail
  rw [hchars] at htext ⊢
  simp only
  rw [if_neg hc, if_pos (by simp), htext, hscan, if_neg hword.nonempty]
  cases hon : r.conf.onSection fun s => some (s.setEnumValue strSection v) with
  | none => rfl
  | some conf =>
    simp only
    rw [Nat.zero_add, enumLoop, Option.map_some]
    simp only
    rw [← hchars, hend]
    exact if_pos rfl

/-- The first character of a value that is read back as one. -/
def GoodHead (v : List UInt8) : Prop := ∀ c, v.head? = some c → c ∉ [91, 35, 59]

theorem leads_enum {s : CSection} {v : List UInt8} (hnul : 0 ∉ v) (hword : Word v)
    (hhead : GoodHead v) (hs : s.name ≠ []) (hss : ∀ t ∈ ss, t.name < s.name) (hnew : v ∉ s.enums)
    (hpost : Blank post) :
    Leads [v ++ post] (At (ss ++ [s]) (some s.name) ch)
      (At (ss ++ [{ s with maxWidth := max s.maxWidth v.length, enums := s.enums ++ [v] }])
        (some s.name) ch) := by
  obtain ⟨c, t, hcons, -, hdel⟩ := hword.cons
  have hfirst : firstValidChar (v ++ post) = c := by
    rw [hcons]
    exact firstValidChar_pad blank_nil hdel (t ++ post)
  have hgood := hhead c (by rw [hcons]; rfl)
  simp only [List.mem_cons, List.not_mem_nil, or_false, not_or] at hgood
  have hnul' : 0 ∉ v ++ post := by
    simp only [List.mem_append, not_or]
    exact ⟨hnul, hpost.not_mem (by decide)⟩
  have heq : 61 ∉ v ++ post := by
    simp only [List.mem_append, not_or]
    exact ⟨hword.noEquals, hpost.not_mem (by decide)⟩
  have hc : c ≠ 0 := by
    rintro rfl
    exact hnul (by simp [hcons])
  have hne := search_greater hss
  have hset : s.setEnumValue s.name v =
      { s with maxWidth := max s.maxWidth v.length, enums := s.enums ++ [v] } := by
    rw [CSection.setEnumValue, if_neg (by simp), if_neg hnew]
  apply leads_line
  intro r hr
  have hstr : r.strSection = s.name := hr.strSection
  have hon := onSection_last (f := fun s => some (s.setEnumValue r.strSection v))
      (c := r.conf) hne hr.sections
    hr.cSection (by rw [hstr, hset])
  rw [readLine, lineText_eq hnul']
  simp only
  rw [if_neg (by rw [hfirst]; exact hc), if_neg (by rw [hfirst]; exact hgood.1),
    if_neg (by rw [hstr, hfirst]; simp [hgood.2, hs]), if_neg (by rw [hr.cSection]; simp),
    if_neg heq, readEnum]
  simp only
  rw [enumLoop_single hnul hword hpost rfl]
  simp only
  rw [hon]
  exact ⟨_, rfl, ⟨rfl, hr.cSection, hr.chain, hstr⟩⟩

end Lines

/-! ## Reading a section back -/

/-- The comments that come back: one that is there already is not taken again. -/
def backComments (chain : List (List UInt8)) : List (List UInt8) := chain.foldl pushText []

def backRecord (r : CRecord) : CRecord := { r with comment := backComments r.comment }

def backSection (s : CSection) : CSection :=
  { s with
    records := s.records.map backRecord
    maxWidth := s.enums.foldl (fun width v => max width v.length) 10
    comment := backComments s.comment }

section Blocks

variable {ss : List CSection} {cur : Option (List UInt8)} {ch : List (List UInt8)}

theorem leads_comments {pre : List UInt8} (hpre : Blank pre) {chain : List (List UInt8)}
    (hchain : ∀ c ∈ chain, CommentOk c) :
    Leads ((chain.map (pre ++ ·)).flatMap fgetsLine) (At ss cur ch)
      (At ss cur (chain.foldl pushText ch)) := by
  induction chain generalizing ch with
  | nil => exact leads_nil _
  | cons comment chain ih =>
    have hfirst : Leads (fgetsLine (pre ++ comment)) (At ss cur ch)
        (At ss cur (pushText ch comment)) :=
      leads_fgetsLine fun _ hpost => leads_comment hpre (hchain comment List.mem_cons_self) hpost
    rw [List.map_cons, List.flatMap_cons, List.foldl_cons]
    exact hfirst.append (ih fun c hc => hchain c (List.mem_cons_of_mem _ hc))

theorem leads_empty : Leads (fgetsLine []) (At ss cur ch) (At ss cur ch) :=
  leads_fgetsLine fun _ hpost => leads_blank hpost

theorem leads_recordLines {s : CSection} {rec : CRecord} (hrec : RecordOk rec) (hs : s.name ≠ [])
    (hss : ∀ t ∈ ss, t.name < s.name) (hnew : ∀ q ∈ s.records, q.name < rec.name) :
    Leads ((recordLines rec).flatMap fgetsLine) (At (ss ++ [s]) (some s.name) [])
      (At (ss ++ [{ s with records := s.records ++ [backRecord rec] }]) (some s.name) []) := by
  have htab : Blank [9] := blank_singleton (by decide)
  have hcomments : Leads
    ((if rec.comment = [] then [] else [] :: rec.comment.map (9 :: ·)).flatMap fgetsLine)
      (At (ss ++ [s]) (some s.name) [])
        (At (ss ++ [s]) (some s.name) (backComments rec.comment)) := by
    split
    · next hnil =>
      rw [hnil]
      exact leads_nil _
    · rw [List.flatMap_cons]
      exact leads_empty.append (leads_comments htab hrec.comment)
  have hline : Leads (fgetsLine (recordLine rec))
      (At (ss ++ [s]) (some s.name) (backComments rec.comment))
      (At (ss ++ [{ s with records := s.records ++ [backRecord rec] }]) (some s.name) []) :=
    leads_fgetsLine fun _ hpost => leads_record hrec hs hss hnew hpost
  rw [recordLines, List.flatMap_append, List.flatMap_singleton]
  exact hcomments.append hline

theorem leads_records {rs : List CRecord} {s : CSection} (hrs : ∀ r ∈ rs, RecordOk r)
    (hsorted : Keyed.Sorted CRecord.name rs) (hs : s.name = [] → rs = [])
    (hss : ∀ t ∈ ss, t.name < s.name) (hnew : ∀ q ∈ s.records, ∀ r ∈ rs, q.name < r.name) :
    Leads ((rs.flatMap recordLines).flatMap fgetsLine) (At (ss ++ [s]) (some s.name) [])
      (At (ss ++ [{ s with records := s.records ++ rs.map backRecord }]) (some s.name) []) := by
  induction rs generalizing s with
  | nil =>
    rw [List.map_nil, List.append_nil]
    exact leads_nil _
  | cons rec rs ih =>
    rw [Keyed.Sorted, List.pairwise_cons] at hsorted
    have hname : s.name ≠ [] := fun hnil => (by cases hs hnil)
    have hfirst := leads_recordLines (hrs rec List.mem_cons_self) hname hss
      fun q hq => hnew q hq rec List.mem_cons_self
    have hrest := ih (s := { s with records := s.records ++ [backRecord rec] })
      (fun r hr => hrs r (List.mem_cons_of_mem _ hr)) hsorted.2
        (fun hnil => absurd hnil hname) hss ?_
    · rw [List.flatMap_cons, List.flatMap_append, List.map_cons]
      have hboth := hfirst.append hrest
      simp only [List.append_assoc, List.singleton_append] at hboth
      exact hboth
    · intro q hq r hr
      cases List.mem_append.mp hq with
      | inl hq =>
        exact hnew q hq r (List.mem_cons_of_mem _ hr)
      | inr hq =>
        rw [List.mem_singleton.mp hq]
        exact hsorted.1 r hr

theorem leads_enums (ch : List (List UInt8)) (width : Nat) {vs : List (List UInt8)} {s : CSection}
    (hvs : ∀ v ∈ vs, Word v ∧ GoodHead v ∧ 0 ∉ v) (hnodup : vs.Nodup) (hs : s.name = [] → vs = [])
    (hss : ∀ t ∈ ss, t.name < s.name) (hnew : ∀ v ∈ vs, v ∉ s.enums) :
    Leads ((vs.map (enumLine width)).flatMap fgetsLine) (At (ss ++ [s]) (some s.name) ch)
      (At (ss ++ [{ s with
          maxWidth := vs.foldl (fun width v => max width v.length) s.maxWidth
          enums := s.enums ++ vs }]) (some s.name) ch) := by
  induction vs generalizing s with
  | nil =>
    rw [List.append_nil]
    exact leads_nil _
  | cons v vs ih =>
    rw [List.nodup_cons] at hnodup
    have hname : s.name ≠ [] := fun hnil => (by cases hs hnil)
    obtain ⟨hword, hhead, hnul⟩ := hvs v List.mem_cons_self
    have hpad : Blank (List.replicate (width + 1 - v.length) 32) := by
      intro c hc
      rw [List.eq_of_mem_replicate hc]
      decide
    have hfirst : Leads (fgetsLine (enumLine width v)) (At (ss ++ [s]) (some s.name) ch)
        (At (ss ++ [{ s with maxWidth := max s.maxWidth v.length, enums := s.enums ++ [v] }])
          (some s.name) ch) := by
      apply leads_fgetsLine
      intro post hpost
      rw [enumLine, List.append_assoc]
      exact leads_enum hnul hword hhead hname hss (hnew v List.mem_cons_self) (hpad.append hpost)
    have hrest := ih (s := { s with maxWidth := max s.maxWidth v.length, enums := s.enums ++ [v] })
      (fun w hw => hvs w (List.mem_cons_of_mem _ hw)) hnodup.2
        (fun hnil => absurd hnil hname) hss ?_
    · rw [List.map_cons, List.flatMap_cons, List.foldl_cons]
      have hboth := hfirst.append hrest
      simp only [List.append_assoc, List.singleton_append] at hboth
      exact hboth
    · intro w hw hmem
      cases List.mem_append.mp hmem with
      | inl hmem =>
        exact hnew w (List.mem_cons_of_mem _ hw) hmem
      | inr hmem =>
        rw [List.mem_singleton.mp hmem] at hw
        exact hnodup.1 hw

theorem leads_section (cur : Option (List UInt8)) {s : CSection} (hs : SectionOk s)
    (henums : ∀ v ∈ s.enums, Word v ∧ GoodHead v ∧ 0 ∉ v) (hss : ∀ t ∈ ss, t.name < s.name) :
    Leads ((sectionLines s).flatMap fgetsLine) (At ss cur [])
      (At (ss ++ [backSection s]) (some s.name) []) := by
  have hcomments : Leads (s.comment.flatMap fgetsLine) (At ss cur [])
      (At ss cur (backComments s.comment)) := by
    have hplain : Leads ((s.comment.map ([] ++ ·)).flatMap fgetsLine) (At ss cur [])
        (At ss cur (backComments s.comment)) := leads_comments blank_nil hs.comment
    simp only [List.nil_append, List.map_id'] at hplain
    exact hplain
  have hheader : Leads (fgetsLine (headerLine s.name)) (At ss cur (backComments s.comment))
      (At (ss ++ [{ newSection s.name with comment := backComments s.comment }])
        (some s.name) []) :=
    leads_fgetsLine fun _ hpost => leads_header hs.name hs.nameClean hss hpost
  have hrecords := leads_records (s := { newSection s.name with comment := backComments s.comment })
    hs.records hs.sorted (fun hnil => (hs.unnamed hnil).1) hss
    fun q hq => absurd hq List.not_mem_nil
  have hblank : ∀ ss' : List CSection,
      Leads ((if s.records = [] then [] else [[]]).flatMap fgetsLine)
      (At ss' (some s.name) []) (At ss' (some s.name) []) := by
    intro ss'
    split
    · exact leads_nil _
    · exact leads_empty
  have hwords := leads_enums [] s.maxWidth
    (s := { newSection s.name with
      comment := backComments s.comment, records := s.records.map backRecord })
    henums hs.nodup (fun hnil => (hs.unnamed hnil).2) hss fun v _ => List.not_mem_nil
  rw [sectionLines]
  simp only [List.flatMap_append, List.flatMap_singleton]
  exact ((((hcomments.append hheader).append hrecords).append (hblank _)).append hwords).append
    leads_empty

theorem leads_sections {ts : List CSection} (hts : ∀ s ∈ ts, SectionOk s)
    (henums : ∀ s ∈ ts, ∀ v ∈ s.enums, Word v ∧ GoodHead v ∧ 0 ∉ v)
    (hsorted : Keyed.Sorted CSection.name ts) (hss : ∀ t ∈ ss, ∀ s ∈ ts, t.name < s.name) :
    Leads ((ts.flatMap sectionLines).flatMap fgetsLine) (At ss cur [])
      fun r => r.conf.sections = ss ++ ts.map backSection := by
  induction ts generalizing ss cur with
  | nil =>
    intro r hr
    exact ⟨r, rfl, by simp [hr.sections]⟩
  | cons s ts ih =>
    rw [Keyed.Sorted, List.pairwise_cons] at hsorted
    have hfirst := leads_section cur (hts s List.mem_cons_self) (henums s List.mem_cons_self)
      fun t ht => hss t ht s List.mem_cons_self
    have hss' : ∀ t ∈ ss ++ [backSection s], ∀ u ∈ ts, t.name < u.name := by
      intro t ht u hu
      cases List.mem_append.mp ht with
      | inl ht =>
        exact hss t ht u (List.mem_cons_of_mem _ hu)
      | inr ht =>
        rw [List.mem_singleton.mp ht]
        exact hsorted.1 u hu
    have hrest : Leads ((ts.flatMap sectionLines).flatMap fgetsLine)
      (At (ss ++ [backSection s]) (some s.name) [])
        fun r => r.conf.sections = ss ++ [backSection s] ++ ts.map backSection :=
      ih (fun t ht => hts t (List.mem_cons_of_mem _ ht))
        (fun t ht => henums t (List.mem_cons_of_mem _ ht))
        hsorted.2 hss'
    rw [List.flatMap_cons, List.flatMap_append, List.map_cons]
    simp only [List.append_assoc, List.singleton_append] at hrest
    exact hfirst.append hrest

end Blocks

/-! ## What comes back -/

/-- No printed line is longer than 254 bytes and its line feed. -/
def Fits (c : CConfOpt) : Prop := ∀ line ∈ splitLines [] (c.print true), line.length ≤ 254 + 1

theorem recordLines_clean {r : CRecord} (h : RecordOk r) : ∀ l ∈ recordLines r, Clean l := by
  intro l hl
  rw [recordLines, List.mem_append, List.mem_singleton] at hl
  rcases hl with hl | rfl
  · split at hl
    · cases hl
    · rcases List.mem_cons.mp hl with rfl | hl
      · exact clean_nil
      · obtain ⟨comment, hc, rfl⟩ := List.mem_map.mp hl
        have hclean := (h.comment comment hc).clean
        exact ⟨by simpa using hclean.noNul, by simpa using hclean.noFeed⟩
  · have hname := h.nameClean
    have hvalue := h.valueClean
    exact ⟨by simp [recordLine, hname.noNul, hvalue.noNul],
        by simp [recordLine, hname.noFeed, hvalue.noFeed]⟩

theorem sectionLines_clean {s : CSection} (h : SectionOk s)
    (henums : ∀ v ∈ s.enums, Word v ∧ 0 ∉ v) :
    ∀ l ∈ sectionLines s, Clean l := by
  intro l hl
  simp only [sectionLines, List.mem_append, List.mem_singleton] at hl
  rcases hl with ((((hl | rfl) | hl) | hl) | hl) | rfl
  · exact (h.comment l hl).clean
  · have hname := h.nameClean
    exact ⟨by simp [headerLine, hname.noNul], by simp [headerLine, hname.noFeed]⟩
  · obtain ⟨r, hr, hl⟩ := List.mem_flatMap.mp hl
    exact recordLines_clean (h.records r hr) l hl
  · split at hl
    · cases hl
    · rw [List.mem_singleton.mp hl]
      exact clean_nil
  · obtain ⟨v, hv, rfl⟩ := List.mem_map.mp hl
    obtain ⟨hword, hnul⟩ := henums v hv
    have hfeed : 10 ∉ v := fun hmem => absurd (hword.noSpace 10 hmem) (by decide)
    exact ⟨by simp [enumLine, hnul], by simp [enumLine, hfeed]⟩
  · exact clean_nil

section Back

variable {c : CConfOpt}

/-- The lines of a printed configuration, as they are read. -/
theorem printed_lines (h : Loaded c) (hwords : EnumsAll Word c) (hnul : EnumsAll (fun v => 0 ∉ v) c)
    (hfits : Fits c) :
    fgetsAll [] (c.print true) = (c.sections.flatMap sectionLines).flatMap fgetsLine := by
  have hclean : ∀ l ∈ c.sections.flatMap sectionLines, Clean l := by
    intro l hl
    obtain ⟨s, hs, hl⟩ := List.mem_flatMap.mp hl
    exact sectionLines_clean (h.sections s hs) (fun v hv => ⟨hwords s hs v hv, hnul s hs v hv⟩) l hl
  rw [print_conf]
  apply fgetsAll_lines
  intro l hl
  have hlen := hfits (l ++ [10]) (by
    rw [print_conf, splitLines_lines fun l hl => (hclean l hl).noFeed]
    exact List.mem_map_of_mem hl)
  rw [List.length_append, List.length_singleton] at hlen
  exact ⟨(hclean l hl).noFeed, by omega⟩

/-- A configuration whose values are read back as such. -/
theorem print_back (h : Loaded c) (hwords : EnumsAll Word c) (hheads : EnumsAll GoodHead c)
    (hnul : EnumsAll (fun v => 0 ∉ v) c) (hfits : Fits c) (junk : List UInt8) :
    ∃ c', readFromFile junk (c.print true) = some c' ∧
    c'.sections = c.sections.map backSection := by
  have hread : Leads ((c.sections.flatMap sectionLines).flatMap fgetsLine) (At [] none [])
      fun r => r.conf.sections = [] ++ c.sections.map backSection :=
    leads_sections h.sections
      (fun s hs v hv => ⟨hwords s hs v hv, hheads s hs v hv, hnul s hs v hv⟩) h.sorted
      fun t ht => absurd ht List.not_mem_nil
  obtain ⟨r, hr, hsections⟩ := hread ⟨.initial, junk, [], []⟩ ⟨rfl, rfl, rfl, rfl⟩
  rw [← printed_lines h hwords hnul hfits] at hr
  exact ⟨r.conf, by rw [readFromFile, hr, Option.map_some], hsections⟩

end Back

/-- The comments of a record. -/
def commentOf (c : CConfOpt) (sectionName name : List UInt8) : Option (List (List UInt8)) :=
  ((c.searchSection sectionName).bind fun s => Keyed.lookup CRecord.name name s.records).map
    CRecord.comment

/-- The same sections, with the same values, enumerations and comments. -/
structure SameConf (c c' : CConfOpt) : Prop where
  names : c'.sections.map CSection.name = c.sections.map CSection.name
  values : ∀ sectionName name, valueOf c' sectionName name = valueOf c sectionName name
  enums : ∀ sectionName, (c'.searchSection sectionName).map CSection.enums =
    (c.searchSection sectionName).map CSection.enums
  sectionComments : ∀ sectionName, (c'.searchSection sectionName).map CSection.comment =
    (c.searchSection sectionName).map CSection.comment
  recordComments : ∀ sectionName name, commentOf c' sectionName name = commentOf c sectionName name

/-- Written and read again, a configuration is the same. -/
def Preserved (junk : List UInt8) (c : CConfOpt) : Prop :=
  ∃ c', readFromFile junk (c.print true) = some c' ∧ SameConf c c'

/-- The values of the enumerations are words that start neither like a comment nor like a
header, and no comment stands twice in one list. -/
structure Reprintable (c : CConfOpt) : Prop where
  words : EnumsAll Word c
  heads : EnumsAll GoodHead c
  sectionComments : ∀ s ∈ c.sections, s.comment.Nodup
  recordComments : ∀ s ∈ c.sections, ∀ r ∈ s.records, r.comment.Nodup

/-- Comments come back as they were where none is repeated. -/
theorem foldl_pushText {chain : List (List UInt8)} (hchain : ∀ c ∈ chain, CommentOk c)
    {ch : List (List UInt8)} (hch : ch.Nodup) : (chain.foldl pushText ch).Nodup ∧
      ((ch ++ chain).Nodup → chain.foldl pushText ch = ch ++ chain) := by
  induction chain generalizing ch with
  | nil => exact ⟨hch, fun _ => (List.append_nil ch).symm⟩
  | cons comment chain ih =>
    have hnew : newComment comment = comment := if_pos (hchain comment List.mem_cons_self).head
    have hrest : ∀ c ∈ chain, CommentOk c := fun c hc => hchain c (List.mem_cons_of_mem _ hc)
    rw [List.foldl_cons, pushText, hnew]
    split
    · next hmem =>
      refine ⟨(ih hrest hch).1, fun hnodup => ?_⟩
      exact absurd rfl ((List.nodup_append.mp hnodup).2.2 comment hmem comment List.mem_cons_self)
    · next hmem =>
      have hpush : (ch ++ [comment]).Nodup := by
        rw [List.nodup_append]
        refine ⟨hch, by simp, fun a ha b hb => ?_⟩
        rw [List.mem_singleton.mp hb]
        rintro rfl
        exact hmem ha
      obtain ⟨hnodup, hsame⟩ := ih hrest hpush
      refine ⟨hnodup, fun hall => ?_⟩
      rw [hsame (by simpa using hall), List.append_assoc, List.singleton_append]

theorem backComments_eq {chain : List (List UInt8)} (hchain : ∀ c ∈ chain, CommentOk c) :
    backComments chain = chain ↔ chain.Nodup := by
  obtain ⟨hnodup, hsame⟩ := foldl_pushText hchain List.nodup_nil
  constructor
  · intro h
    rw [← h]
    exact hnodup
  · exact fun h => hsame h

section Search

variable {c c' : CConfOpt}

theorem search_back (hback : c'.sections = c.sections.map backSection) (sectionName : List UInt8) :
    c'.searchSection sectionName = (c.searchSection sectionName).map backSection := by
  rw [CConfOpt.searchSection, hback, Keyed.lookup_map (g := backSection) CSection.name fun _ => rfl]
  rfl

theorem search_record_back (hback : c'.sections = c.sections.map backSection)
    (sectionName name : List UInt8) :
    ((c'.searchSection sectionName).bind fun s => Keyed.lookup CRecord.name name s.records) =
      ((c.searchSection sectionName).bind fun s => Keyed.lookup CRecord.name name s.records).map
        backRecord := by
  rw [search_back hback]
  cases c.searchSection sectionName with
  | none => rfl
  | some s => exact Keyed.lookup_map (g := backRecord) CRecord.name (fun _ => rfl) name s.records

/-- Where the comments come back as they were, everything does. -/
theorem sameConf_back (hback : c'.sections = c.sections.map backSection) (h : Loaded c)
    (hsections : ∀ s ∈ c.sections, s.comment.Nodup)
    (hrecords : ∀ s ∈ c.sections, ∀ r ∈ s.records, r.comment.Nodup) :
    SameConf c c' := by
  have hfound : ∀ {n s}, c.searchSection n = some s → s ∈ c.sections :=
    fun hs => (Keyed.lookup_mem _ hs).1
  refine ⟨?_, fun n k => ?_, fun n => ?_, fun n => ?_, fun n k => ?_⟩
  · rw [hback, List.map_map]
    rfl
  · rw [valueOf, search_record_back hback, Option.map_map]
    rfl
  · rw [search_back hback, Option.map_map]
    rfl
  · rw [search_back hback]
    cases hs : c.searchSection n with
    | none => rfl
    | some s =>
      have hcomment :=
        (backComments_eq (h.sections s (hfound hs)).comment).mpr (hsections s (hfound hs))
      exact congrArg some hcomment
  · rw [commentOf, search_record_back hback, commentOf]
    cases hs : c.searchSection n with
    | none => rfl
    | some s =>
      rw [Option.bind_some]
      cases hr : Keyed.lookup CRecord.name k s.records with
      | none => rfl
      | some r =>
        have hmem := (Keyed.lookup_mem _ hr).1
        have hcomment := (backComments_eq ((h.sections s (hfound hs)).records r hmem).comment).mpr
          (hrecords s (hfound hs) r hmem)
        exact congrArg some hcomment

/-- A comment list that came back is one without repetitions. -/
theorem nodup_of_same (hback : c'.sections = c.sections.map backSection) (h : Loaded c)
    (hsame : SameConf c c') :
    ∀ s ∈ c.sections, s.comment.Nodup ∧ ∀ r ∈ s.records, r.comment.Nodup := by
  intro s hs
  have hok := h.sections s hs
  have hsearch : c.searchSection s.name = some s := Keyed.lookup_of_mem CSection.name h.sorted hs
  constructor
  · have hcomment := hsame.sectionComments s.name
    rw [search_back hback, hsearch] at hcomment
    exact (backComments_eq hok.comment).mp (Option.some.inj hcomment)
  · intro r hr
    have hlookup : Keyed.lookup CRecord.name r.name s.records = some r :=
      Keyed.lookup_of_mem CRecord.name hok.sorted hr
    have hcomment := hsame.recordComments s.name r.name
    rw [commentOf, search_record_back hback, commentOf, hsearch, Option.bind_some,
      hlookup] at hcomment
    exact (backComments_eq (hok.records r hr).comment).mp (Option.some.inj hcomment)

end Search

/-! ## Values that do not come back -/

/-- A printed line that holds no value, or one that is read back. -/
def HeadKept (line : List UInt8) : Prop :=
  0 ∉ line ∧ (firstValidChar line ∈ [0, 91, 35, 59] ∨ 61 ∈ line ∨
    ∃ v post, line = v ++ post ∧ Word v ∧ 0 ∉ v ∧ GoodHead v ∧ Blank post)

theorem headKept_append {line post : List UInt8} (hpost : Blank post) (h : HeadKept line) :
    HeadKept (line ++ post) := by
  obtain ⟨hnul, hline⟩ := h
  have hnul' : 0 ∉ line ++ post := by
    simp only [List.mem_append, not_or]
    exact ⟨hnul, hpost.not_mem (by decide)⟩
  refine ⟨hnul', ?_⟩
  rcases hline with hfirst | heq | ⟨v, post', rfl, hword, hv, hhead, hpost'⟩
  · left
    by_cases hzero : firstValidChar line = 0
    · rw [firstValidChar_blank ((blank_of_firstValidChar hnul hzero).append hpost)]
      decide
    · obtain ⟨pre, rest, hsplit, hpre, hdel⟩ := firstValidChar_split hzero
      have hsame : firstValidChar (line ++ post) = firstValidChar line := by
        have hpad := firstValidChar_pad hpre hdel (rest ++ post)
        rw [← List.cons_append, ← List.append_assoc, ← hsplit] at hpad
        exact hpad
      rwa [hsame]
  · exact .inr (.inl (List.mem_append_left _ heq))
  · exact .inr
      (.inr ⟨v, post' ++ post, by rw [List.append_assoc], hword, hv, hhead, hpost'.append hpost⟩)

theorem sectionLines_headKept {s : CSection} (h : SectionOk s)
    (henums : ∀ v ∈ s.enums, Word v ∧ 0 ∉ v) :
    ∀ l ∈ sectionLines s, HeadKept l := by
  intro l hl
  have hnul := (sectionLines_clean h henums l hl).noNul
  refine ⟨hnul, ?_⟩
  have hcomment : ∀ {pre comment}, Blank pre → CommentOk comment → firstValidChar (pre ++ comment) ∈
      [0, 91, 35, 59] := by
    intro pre comment hpre hc
    obtain ⟨rest, hcons⟩ := hc.cons
    rw [hcons, firstValidChar_pad hpre (by decide)]
    decide
  have hempty : firstValidChar [] ∈ [0, 91, 35, 59] := by decide
  simp only [sectionLines, List.mem_append, List.mem_singleton] at hl
  rcases hl with ((((hl | rfl) | hl) | hl) | hl) | rfl
  · exact .inl (hcomment blank_nil (h.comment l hl))
  · have hopen : firstValidChar (headerLine s.name) = 91 :=
      firstValidChar_pad (c := 91) blank_nil (by decide) (s.name ++ [93])
    exact .inl (by rw [hopen]; decide)
  · obtain ⟨r, hr, hl⟩ := List.mem_flatMap.mp hl
    rw [recordLines, List.mem_append, List.mem_singleton] at hl
    rcases hl with hl | rfl
    · split at hl
      · cases hl
      · rcases List.mem_cons.mp hl with rfl | hl
        · exact .inl hempty
        · obtain ⟨comment, hc, rfl⟩ := List.mem_map.mp hl
          have htab : Blank [9] := blank_singleton (by decide)
          exact .inl (hcomment htab ((h.records r hr).comment comment hc))
    · exact .inr (.inl (by simp [recordLine]))
  · split at hl
    · cases hl
    · rw [List.mem_singleton.mp hl]
      exact .inl hempty
  · obtain ⟨v, hv, rfl⟩ := List.mem_map.mp hl
    obtain ⟨hword, hv0⟩ := henums v hv
    obtain ⟨c, t, hcons, -, hdel⟩ := hword.cons
    have hfirst : firstValidChar (enumLine s.maxWidth v) = c := by
      rw [enumLine, hcons]
      exact firstValidChar_pad blank_nil hdel (t ++ _)
    have hpad : Blank (List.replicate (s.maxWidth + 1 - v.length) 32) := by
      intro c hc
      rw [List.eq_of_mem_replicate hc]
      decide
    by_cases hhead : c ∈ [91, 35, 59]
    · exact .inl (by rw [hfirst]; exact List.mem_cons_of_mem _ hhead)
    · refine .inr (.inr ⟨v, _, rfl, hword, hv0, fun d hd => ?_, hpad⟩)
      rw [hcons] at hd
      cases hd
      exact hhead
  · exact .inl hempty

theorem headKept_fgetsLine {line : List UInt8} (h : HeadKept line) :
    ∀ l ∈ fgetsLine line, HeadKept l := by
  have hfeed : Blank [10] := blank_singleton (by decide)
  intro l hl
  rw [fgetsLine] at hl
  split at hl
  · simp only [List.mem_cons, List.not_mem_nil, or_false] at hl
    rcases hl with rfl | rfl
    · exact h
    · exact ⟨by decide, .inl (by decide)⟩
  · rw [List.mem_singleton.mp hl]
    exact headKept_append hfeed h

/-- No printed line brings a value that would be read as something else. -/
theorem headKept_step {r r' : Reader} {line : List UInt8} (hline : HeadKept line)
    (h : EnumsAll GoodHead r.conf) (hr : readLine r line = some r') :
    EnumsAll GoodHead r'.conf := by
  obtain ⟨hnul, hkind⟩ := hline
  refine enumsAll_step h (fun r₁ hfirst hne hloop => ?_) hr
  rw [lineText_eq hnul] at hfirst hne
  rcases hkind with hzero | heq | ⟨v, post, rfl, hword, hv, hhead, hpost⟩
  · exact absurd hzero hfirst
  · exact absurd heq hne
  · rw [enumLoop_single hv hword hpost rfl] at hloop
    obtain ⟨conf, hconf, rfl⟩ := Option.map_eq_some_iff.mp hloop
    refine listsAll_onSection (Q := fun vs => ∀ v ∈ vs, GoodHead v) (c := r.conf) h
      (fun s s' hset hs w hw => ?_) hconf
    cases hset
    rcases setEnumValue_enums hw with hw | rfl
    · exact hs w hw
    · exact hhead

section Reprint

variable {junk text : List UInt8} {c : CConfOpt}

/-- Values that come back start like values. -/
theorem goodHead_of_preserved (h : Loaded c) (hwords : EnumsAll Word c)
    (hnul : EnumsAll (fun v => 0 ∉ v) c) (hfits : Fits c) (hkept : Preserved junk c) :
    EnumsAll GoodHead c := by
  obtain ⟨c', hread, hsame⟩ := hkept
  have hheads : EnumsAll GoodHead c' := by
    rw [readFromFile, printed_lines h hwords hnul hfits] at hread
    obtain ⟨r, hr, rfl⟩ := Option.map_eq_some_iff.mp hread
    refine readLines_all (I := fun r => EnumsAll GoodHead r.conf) (Q := HeadKept)
      (fun r r' line hi hq hstep => headKept_step hq hi hstep) ?_
        (fun s hs => absurd hs List.not_mem_nil) hr
    intro l hl
    obtain ⟨line, hline, hl⟩ := List.mem_flatMap.mp hl
    obtain ⟨s, hs, hline⟩ := List.mem_flatMap.mp hline
    exact headKept_fgetsLine (sectionLines_headKept (h.sections s hs)
      (fun v hv => ⟨hwords s hs v hv, hnul s hs v hv⟩) line hline) l hl
  intro s hs v hv
  have hsearch : c.searchSection s.name = some s := Keyed.lookup_of_mem CSection.name h.sorted hs
  have henums := hsame.enums s.name
  rw [hsearch, Option.map_some] at henums
  obtain ⟨s', hs', heq⟩ := Option.map_eq_some_iff.mp henums
  exact hheads s' (Keyed.lookup_mem _ hs').1 v (heq ▸ hv)

/-- A loaded configuration survives being written and read where it is reprintable, and,
if the file has no vertical tabs and form feeds, nowhere else. -/
theorem preserved_iff (junk junk' text : List UInt8) (hnul : 0 ∉ text) (c : CConfOpt)
    (hload : readFromFile junk text = some c) (hfits : Fits c) :
    (Reprintable c → Preserved junk' c) ∧ (Plain text → (Preserved junk' c ↔ Reprintable c)) := by
  have hloaded := readFromFile_loaded hnul hload
  have hzero := readFromFile_noNul hload
  have hkept : Reprintable c → Preserved junk' c := by
    intro h
    obtain ⟨c', hread, hback⟩ := print_back hloaded h.words h.heads hzero hfits junk'
    exact ⟨c', hread, sameConf_back hback hloaded h.sectionComments h.recordComments⟩
  refine ⟨hkept, fun hplain => ⟨fun h => ?_, hkept⟩⟩
  have hwords := readFromFile_words hnul hplain hload
  have hheads := goodHead_of_preserved hloaded hwords hzero hfits h
  obtain ⟨c', hread, hsame⟩ := h
  obtain ⟨c'', hread', hback⟩ := print_back hloaded hwords hheads hzero hfits junk'
  rw [hread, Option.some.injEq] at hread'
  subst hread'
  have hnodup := nodup_of_same hback hloaded hsame
  exact ⟨hwords, hheads, fun s hs => (hnodup s hs).1, fun s hs => (hnodup s hs).2⟩

end Reprint

/-- The text `#c`, `[s]`, `a=b`, `d` on four lines. -/
def smallText : List UInt8 := [35, 99, 10, 91, 115, 93, 10, 97, 61, 98, 10, 100, 10]

/-- What is loaded from it. -/
def smallConf : CConfOpt :=
  ⟨[⟨[115], [⟨[97], [98], []⟩], [[100]], 10, [[35, 99]]⟩], some [115], [], true, false⟩

instance (c : CConfOpt) : Decidable (Fits c) :=
  inferInstanceAs (Decidable (∀ line ∈ splitLines [] (c.print true), line.length ≤ 254 + 1))

theorem small_preserved : Preserved (List.replicate 256 0) smallConf := by
  have hload : readFromFile (List.replicate 256 0) smallText = some smallConf := by decide
  have hreprint : Reprintable smallConf := by
    refine ⟨fun s hs v hv => ?_, fun s hs v hv => ?_, by decide, by decide⟩
    · rw [List.mem_singleton.mp hs, List.mem_singleton] at hv
      rw [hv]
      refine ⟨by decide, fun b hb => ?_, by decide⟩
      rw [List.mem_singleton.mp hb]
      decide
    · rw [List.mem_singleton.mp hs, List.mem_singleton] at hv
      rw [hv]
      intro b hb
      cases hb
      decide
  exact (preserved_iff (List.replicate 256 0) (List.replicate 256 0) smallText
    (by decide) smallConf hload
    (by decide)).1 hreprint

/-- What is written is read as it was. -/
def RoundTrip : Prop :=
  ∀ junk junk' text c, 0 ∉ text → readFromFile junk text = some c → Fits c → Preserved junk' c

/-- The text `[s]`, `a #b` on two lines. -/
def hashText : List UInt8 := [91, 115, 93, 10, 97, 32, 35, 98, 10]

/-- What is loaded from it, and what is left of that after writing and reading. -/
def hashConf (enums : List (List UInt8)) : CConfOpt :=
  ⟨[⟨[115], [], enums, 10, []⟩], some [115], [], true, false⟩

/-- The value `#b` is printed at the start of a line and comes back as a comment. -/
theorem not_round_trip : ¬ RoundTrip := by
  intro h
  have hload : readFromFile (List.replicate 256 0) hashText = some (hashConf [[97], [35, 98]]) := by
    decide
  obtain ⟨c', hread, hsame⟩ := h (List.replicate 256 0) (List.replicate 256 0) hashText
    (hashConf [[97], [35, 98]]) (by decide) hload (by decide)
  have hback : (readFromFile (List.replicate 256 0) ((hashConf [[97], [35, 98]]).print true)).map
      (fun c => (c.searchSection [115]).map CSection.enums) = some (some [[97]]) := by decide
  rw [hread, Option.map_some, Option.some.injEq, hsame.enums] at hback
  exact absurd hback (by decide)

end NetmtIniPrint
