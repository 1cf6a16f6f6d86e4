import Netmt.IniEnum
import Netmt.IniObjects
import Netmt.IniSizes

/-!
# Lines that do not fit the buffer

`fgets(strBuf, 255, fp)` hands a line of more than 254 bytes over in pieces, and the loop
of `ReadFromFile` judges each piece by its own first character. Beside it stands what a
line says as one entry, however long it is.
-/
namespace NetmtLongLines

open NetmtIniStr NetmtIniConf NetmtIniLookup NetmtIniLoaded NetmtIniEnum NetmtIniSizes Runs
open NetmtIniObjects (Tracks readLines_tracks tracks_start)

/-! ## A line as one entry -/

/-- What a buffer of 256 bytes holds of a string. -/
def clip (s : List UInt8) : List UInt8 := s.take 255

/-- What a line may change. -/
structure Parsed where
  conf : CConfOpt
  strSection : List UInt8

def parseSection (text : List UInt8) (p : Parsed) : Option Parsed :=
  if 93 ∈ text then
    let name := clip (format (sectionText text))
    ((p.conf.selectSection name).onSection (CSection.setComment p.conf.chainComment)).map
      fun conf =>
      ⟨{ conf with chainComment := [] }, name⟩
  else some p

/-- A comment has a buffer of its own length. -/
def parseComment (text : List UInt8) (p : Parsed) : Option Parsed :=
  let comment := leftTrim (rightTrim text)
  let chain := if p.conf.chainComment = [] then [newComment comment]
    else pushText p.conf.chainComment comment
  some { p with conf := { p.conf with chainComment := chain } }

def parseRecord (text : List UInt8) (p : Parsed) : Option Parsed :=
  let parts := separateByFirstDelimiter text 61
  (p.conf.onSection
    (CSection.setValue p.strSection (clip parts.1) (clip parts.2) p.conf.chainComment)).map
      fun conf =>
      { p with conf := { conf with chainComment := [] } }

def parseWords (text : List UInt8) (p : Parsed) : Option Parsed :=
  (setAll p.strSection ((runs isDelimiter text).map clip) p.conf).map fun conf =>
    { p with conf := { conf with configChange := true } }

def parseText (text : List UInt8) (p : Parsed) : Option Parsed :=
  let cFirst := firstValidChar text
  if cFirst = 0 then some p
  else if cFirst = 91 then parseSection text p
  else if cFirst = 35 ∨ cFirst = 59 ∨ p.strSection = [] then parseComment text p
  else if p.conf.cSection = none then some p
  else if 61 ∈ text then parseRecord text p
  else parseWords text p

def parsed (r : Reader) : Parsed := ⟨r.conf, r.strSection⟩

/-- A line as a whole. One that `fgets` does not cut is what the loop makes of it; of
another one `strBuf` and `strValue` keep what its pieces leave there. -/
def readWhole (r : Reader) (line : List UInt8) : Option Reader :=
  if line.length ≤ 254 then readLine r line
  else (parseText (lineText line) (parsed r)).map fun p =>
    { (readLines (fgetsAll [] line) r).getD r with conf := p.conf, strSection := p.strSection }

/-- `ReadFromFile`, line by line. -/
def readWholeLines (junk text : List UInt8) : Option CConfOpt :=
  ((splitLines [] text).foldlM readWhole ⟨.initial, junk, [], []⟩).map Reader.conf

/-! ## Pieces that are read apart -/

inductive Kind where
  | nothing | header | comment | record | words
  deriving DecidableEq, Repr

/-- What a pass makes of a text. -/
def kind (p : Parsed) (text : List UInt8) : Kind :=
  let cFirst := firstValidChar text
  if cFirst = 0 then .nothing
  else if cFirst = 91 then (if 93 ∈ text then .header else .nothing)
  else if cFirst = 35 ∨ cFirst = 59 ∨ p.strSection = [] then .comment
  else if p.conf.cSection = none then .nothing
  else if 61 ∈ text then .record
  else .words

/-- The words of a piece are words of its line: none of them began in `front`, and the
loop tells them apart. -/
def WordsOf (front piece : List UInt8) : Prop :=
  Plain (lineText piece) ∧ runs isDelimiter (lineText (front ++ piece)) =
    runs isDelimiter (lineText front) ++ runs isDelimiter (lineText piece)

/-- Nothing is made of a piece behind what its line began with, but for words of a line
that is read for values. -/
def NeverApart (junk text : List UInt8) : Prop :=
  ∀ before line after, splitLines [] text = before ++ line :: after →
    ∀ front piece rest, fgetsAll [] line = front ++ piece :: rest → ¬ Blank front.flatten →
      ∀ r, readLines (before.flatMap (fgetsAll []) ++ front) ⟨.initial, junk, [], []⟩ = some r →
        kind (parsed r) (lineText piece) = .nothing ∨
          kind (parsed r) (lineText piece) = .words ∧ kind (parsed r) (lineText line) = .words ∧
            WordsOf front.flatten piece

/-- A text that nothing is made of: a blank one, or an open header. -/
def Ignored (text : List UInt8) : Prop :=
  firstValidChar text = 0 ∨ firstValidChar text = 91 ∧ 93 ∉ text

instance (text : List UInt8) : Decidable (Ignored text) := inferInstanceAs (Decidable (_ ∨ _ ∧ _))

/-- A text that is read for values, in a section. -/
def WordsLike (text : List UInt8) : Prop := firstValidChar text ∉ [0, 91, 35, 59] ∧ 61 ∉ text

instance (text : List UInt8) : Decidable (WordsLike text) := inferInstanceAs (Decidable (_ ∧ _))

/-- Values have neither vertical tabs nor form feeds. -/
def WordsPlain (piece : List UInt8) : Prop := WordsLike (lineText piece) → Plain (lineText piece)

/-- No word goes on from `s` to `t`. -/
def CutBetween (s t : List UInt8) : Prop :=
  (∀ c, s.getLast? = some c → isDelimiter c = true) ∨ ∀ c, t.head? = some c → isDelimiter c = true

/-- The first piece says what the line says: the string ends in it, or it begins a header,
or blanks follow; and the other pieces are ignored. -/
def SaidAtOnce (piece : List UInt8) (pieces : List (List UInt8)) : Prop :=
  (∀ later ∈ pieces, Ignored (lineText later)) ∧
    (0 ∈ piece ∨ firstValidChar piece = 91 ∨ Blank (lineText pieces.flatten))

/-- Pieces that are read for values, cut between words, up to the end of the string. -/
def WordPieces : List (List UInt8) → Prop
  | [] => True
  | piece :: pieces => (firstValidChar (lineText piece) = 0 ∨ WordsLike (lineText piece)) ∧
    if 0 ∈ piece then ∀ later ∈ pieces, Ignored (lineText later)
    else CutBetween piece pieces.flatten ∧ WordPieces pieces

/-- Behind blank pieces, the pieces of a line say together what the line says. -/
def HeldPieces (strSection : List UInt8) : List (List UInt8) → Prop
  | [] => True
  | piece :: pieces => (Blank piece ∧ HeldPieces strSection pieces) ∨ SaidAtOnce piece pieces ∨
    (strSection ≠ [] ∧ WordPieces (piece :: pieces))

/-- The line is held together in the section of that name. -/
def Held (strSection line : List UInt8) : Prop :=
  HeldPieces strSection (fgetsAll [] line) ∧ ∀ piece ∈ fgetsAll [] line, WordsPlain piece

/-- The name of the section behind some pieces. -/
def sectionBehind (pieces : List (List UInt8)) : List UInt8 :=
  (currentSection (pieces.map lineText)).getD []

/-- All lines that do not fit the buffer. -/
def AllHeld (text : List UInt8) : Prop :=
  ∀ before line after, splitLines [] text = before ++ line :: after → 254 < line.length →
    Held (sectionBehind (before.flatMap (fgetsAll []))) line

/-- A piece that adds at most words to those of its line. -/
def Continues (strSection front piece line : List UInt8) : Prop :=
  Ignored (lineText piece) ∨
    strSection ≠ [] ∧ WordsLike (lineText piece) ∧ WordsLike (lineText line) ∧
    Plain (lineText piece) ∧
      0 ∉ front ∧ CutBetween front piece

/-- All pieces behind what their lines began with are such. -/
def AllContinue (text : List UInt8) : Prop :=
  ∀ before line after, splitLines [] text = before ++ line :: after →
    ∀ front piece rest, fgetsAll [] line = front ++ piece :: rest → ¬ Blank front.flatten →
      Continues (sectionBehind (before.flatMap (fgetsAll []) ++ front)) front.flatten piece line

/-! ## What `fgets` returns -/

section Pieces

variable {line text : List UInt8}

/-- A line ends with its only line feed, if any. -/
structure OneLine (line : List UInt8) : Prop where
  ne_nil : line ≠ []
  feed : 10 ∉ line.dropLast

theorem fgetsAll_short (h : OneLine line) (hlen : line.length ≤ 254) :
    fgetsAll [] line = [line] := by
  obtain ⟨front, c, heq⟩ := (List.eq_nil_or_concat line).resolve_left h.ne_nil
  rw [List.concat_eq_append] at heq
  subst heq
  have hfeed := h.feed
  rw [List.dropLast_concat] at hfeed
  rw [List.length_append, List.length_singleton] at hlen
  rw [fgetsAll_append hfeed (by simp; omega), List.nil_append, fgetsAll]
  split
  · simp [fgetsAll]
  · simp [fgetsAll]

/-- `fgets` begins a line with a new piece. -/
theorem fgetsAll_feed {l : List UInt8} (hl : 10 ∉ l) (pre rest : List UInt8) :
    fgetsAll pre (l ++ 10 :: rest) = fgetsAll pre (l ++ [10]) ++ fgetsAll [] rest := by
  induction l generalizing pre with
  | nil => simp [fgetsAll]
  | cons c l ih =>
    rw [List.mem_cons, not_or] at hl
    rw [List.cons_append, List.cons_append, fgetsAll, fgetsAll]
    split
    · rw [ih hl.2, List.cons_append]
    · rw [ih hl.2]

/-- The pieces are those of the lines, one line after the other. -/
theorem fgetsAll_lines (text : List UInt8) :
    fgetsAll [] text = (splitLines [] text).flatMap (fgetsAll []) ∧
    ∀ l ∈ splitLines [] text, OneLine l := by
  induction hn : text.length using Nat.strong_induction_on generalizing text with
  | _ n ih =>
    by_cases hfeed : 10 ∈ text
    · obtain ⟨l, rest, rfl, hl⟩ := List.eq_append_cons_of_mem hfeed
      rw [List.length_append, List.length_cons] at hn
      obtain ⟨hpieces, hlines⟩ := ih rest.length (by omega) rest rfl
      rw [splitLines_feed hl, List.nil_append, List.flatMap_cons, ← hpieces]
      refine ⟨fgetsAll_feed hl [] rest, fun k hk => ?_⟩
      rcases List.mem_cons.mp hk with rfl | hk
      · exact ⟨by simp, by rwa [List.dropLast_concat]⟩
      · exact hlines k hk
    · by_cases hnil : text = []
      · subst hnil
        exact ⟨rfl, fun l hl => absurd hl List.not_mem_nil⟩
      · rw [splitLines_open hfeed, if_neg (by simpa using hnil), List.nil_append]
        refine ⟨by simp, fun l hl => ?_⟩
        rw [List.mem_singleton.mp hl]
        exact ⟨hnil, fun hmem => hfeed (List.dropLast_subset _ hmem)⟩

theorem flatten_fgetsAll (pre text : List UInt8) : (fgetsAll pre text).flatten = pre ++ text := by
  induction text generalizing pre with
  | nil =>
    rw [fgetsAll, List.append_nil]
    split
    · next h => rw [h, List.flatten_nil]
    · exact List.flatten_singleton
  | cons c text ih =>
    rw [fgetsAll]
    split
    · rw [List.flatten_cons, ih, List.nil_append, List.append_assoc, List.singleton_append]
    · rw [ih, List.append_assoc, List.singleton_append]

end Pieces

/-! ## Pieces that nothing is made of -/

section Ignored

variable {text : List UInt8}

theorem lineText_append (s t : List UInt8) :
    lineText (s ++ t) = if 0 ∈ s then lineText s else s ++ lineText t := by
  split
  · next hnul =>
    obtain ⟨front, rest, rfl, hfront⟩ := List.eq_append_cons_of_mem hnul
    rw [lineText, lineText, List.append_assoc, List.cons_append, takeWhile_line hfront,
      takeWhile_line hfront]
  · next hnul =>
    rw [lineText, List.takeWhile_append_of_pos (scan_ne hnul), lineText]

/-- The first character of a text that has one is not changed by what is behind it. -/
theorem firstValidChar_append {s : List UInt8} (h : firstValidChar s ≠ 0) (t : List UInt8) :
    firstValidChar (s ++ t) = firstValidChar s := by
  obtain ⟨pre, rest, hsplit, hpre, hdel⟩ := firstValidChar_split h
  have hpad := firstValidChar_pad hpre hdel (rest ++ t)
  rwa [← List.cons_append, ← List.append_assoc, ← hsplit] at hpad

theorem firstValidChar_skip {s : List UInt8} (h : Blank s) (t : List UInt8) :
    firstValidChar (s ++ t) = firstValidChar t := by
  rw [firstValidChar, firstValidChar, List.dropWhile_append_of_pos h]

theorem Ignored.open (hnul : 0 ∉ text) (h : Ignored text) : 93 ∉ text := by
  rcases h with hblank | ⟨-, hopen⟩
  · exact (blank_of_firstValidChar hnul hblank).not_mem (by decide)
  · exact hopen

/-- Such a text, and another behind it. -/
theorem Ignored.append {s t : List UInt8} (hs : 0 ∉ s) (ht : 0 ∉ t) (h : Ignored s)
    (h' : Ignored t) :
    Ignored (s ++ t) := by
  rcases h with hblank | ⟨hfirst, hopen⟩
  · have hall := blank_of_firstValidChar hs hblank
    rw [Ignored, firstValidChar_skip hall, List.mem_append, not_or]
    exact h'.imp_right fun h => ⟨h.1, hall.not_mem (by decide), h.2⟩
  · refine .inr ⟨(firstValidChar_append (by rw [hfirst]; decide) t).trans hfirst, ?_⟩
    rw [List.mem_append, not_or]
    exact ⟨hopen, h'.open ht⟩

/-- Where nothing is made of each piece, nothing would be made of them together. -/
theorem ignored_together {pieces : List (List UInt8)}
    (h : ∀ piece ∈ pieces, Ignored (lineText piece)) :
    Ignored (lineText pieces.flatten) := by
  induction pieces with
  | nil => exact .inl rfl
  | cons piece pieces ih =>
    have hfirst := h piece List.mem_cons_self
    rw [List.flatten_cons, lineText_append]
    split
    · exact hfirst
    · next hnul =>
      rw [lineText_eq hnul] at hfirst
      exact hfirst.append hnul (lineText_noNul _)
        (ih fun later hlater => h later (List.mem_cons_of_mem _ hlater))

theorem parseText_header (h : firstValidChar text = 91) (p : Parsed) :
    parseText text p = parseSection text p := by
  have hne : firstValidChar text ≠ 0 := by
    rw [h]
    decide
  rw [parseText]
  exact (if_neg hne).trans (if_pos h)

theorem parseText_ignored (h : Ignored text) (p : Parsed) : parseText text p = some p := by
  rcases h with hblank | ⟨hfirst, hopen⟩
  · rw [parseText]
    exact if_pos hblank
  · rw [parseText_header hfirst, parseSection, if_neg hopen]

end Ignored

/-! ## The first piece says what the line says -/

section Held

variable {s t : List UInt8}

/-- The last `]` is the same. -/
theorem sectionText_append (s : List UInt8) (ht : 93 ∉ t) :
    sectionText (s ++ t) = sectionText s := by
  have hcut : (s ++ t).rdropWhile (· ≠ 93) = s.rdropWhile (· ≠ 93) := by
    rw [List.rdropWhile, List.rdropWhile, List.reverse_append, List.dropWhile_append_of_pos]
    exact scan_ne fun hmem => ht (List.mem_reverse.mp hmem)
  rw [sectionText, hcut, sectionText]

theorem parseSection_append (ht : 93 ∉ t) (p : Parsed) :
    parseSection (s ++ t) p = parseSection s p := by
  rw [parseSection, parseSection]
  by_cases hclosed : 93 ∈ s
  · rw [if_pos (List.mem_append_left t hclosed), if_pos hclosed, sectionText_append s ht]
  · rw [if_neg (by simp [hclosed, ht]), if_neg hclosed]

theorem format_append (ht : Blank t) (s : List UInt8) : format (s ++ t) = format s := by
  rw [format, rightTrim_pad ht, format]

theorem separate_append (ht : Blank t) (h : 61 ∈ s) :
    separateByFirstDelimiter (s ++ t) 61 = separateByFirstDelimiter s 61 := by
  obtain ⟨name, value, rfl, hname⟩ := List.eq_append_cons_of_mem h
  have hall := scan_ne hname
  rw [separateByFirstDelimiter, separateByFirstDelimiter, if_pos (List.mem_append_left t h),
    if_pos h, List.append_assoc, List.cons_append]
  simp only [List.takeWhile_append_of_pos hall, List.dropWhile_append_of_pos hall]
  simp [format_append ht]

/-- Blanks behind a text change nothing. -/
theorem parseText_blank (hs : 0 ∉ s) (ht : Blank t) (p : Parsed) :
    parseText (s ++ t) p = parseText s p := by
  by_cases hblank : firstValidChar s = 0
  · have hall := (blank_of_firstValidChar hs hblank).append ht
    rw [parseText_ignored (.inl hblank), parseText_ignored (.inl (firstValidChar_blank hall))]
  · have hequals : 61 ∈ s ++ t ↔ 61 ∈ s := by
      rw [List.mem_append, or_iff_left (ht.not_mem (by decide))]
    rw [parseText, parseText]
    simp only [firstValidChar_append hblank, hequals]
    rw [parseSection_append (ht.not_mem (by decide)), parseComment, parseComment, rightTrim_pad ht,
      parseWords, parseWords, runs_append_blank s ht]
    by_cases heq : 61 ∈ s
    · rw [parseRecord, parseRecord, separate_append ht heq]
    · rw [if_neg heq, if_neg heq]

/-- What is behind such a piece adds nothing to it. -/
theorem parseText_said (hlater : Ignored (lineText t))
    (hsaid : 0 ∈ s ∨ firstValidChar s = 91 ∨ Blank (lineText t)) (p : Parsed) :
    parseText (lineText (s ++ t)) p = parseText (lineText s) p := by
  have hnul := lineText_noNul t
  rw [lineText_append]
  split
  · rfl
  · next hs =>
    rw [lineText_eq hs]
    rcases hsaid.resolve_left hs with hheader | hblank
    · have hne : firstValidChar s ≠ 0 := by
        rw [hheader]
        decide
      rw [parseText_header ((firstValidChar_append hne _).trans hheader), parseText_header hheader,
        parseSection_append (hlater.open hnul)]
    · exact parseText_blank hs hblank p

theorem sectionText_skip (hs : Blank s) (hfirst : firstValidChar t = 91) (hclosed : 93 ∈ t) :
    sectionText (s ++ t) = s ++ sectionText t := by
  have hne : firstValidChar t ≠ 0 := by
    rw [hfirst]
    decide
  obtain ⟨pre, rest, hsplit, hpre, -⟩ := firstValidChar_split hne
  rw [hfirst] at hsplit
  have hrest : 93 ∈ rest := by
    rw [hsplit, List.mem_append, List.mem_cons] at hclosed
    exact (hclosed.resolve_left (hpre.not_mem (by decide))).resolve_left (by decide)
  rw [hsplit, ← List.append_assoc, sectionText_eq (hs.append hpre) hrest, sectionText_eq hpre hrest,
    List.append_assoc]

theorem separate_skip (hs : Blank s) (t : List UInt8) :
    separateByFirstDelimiter (s ++ t) 61 = separateByFirstDelimiter t 61 := by
  have hnone : 61 ∉ s := hs.not_mem (by decide)
  have hall := scan_ne hnone
  rw [separateByFirstDelimiter, separateByFirstDelimiter]
  simp only [List.mem_append, hnone, false_or, List.takeWhile_append_of_pos hall,
    List.dropWhile_append_of_pos hall, format_leftPad hs]

/-- Nor do blanks in front of a text. -/
theorem parseText_skip (hs : Blank s) (t : List UInt8) (p : Parsed) :
    parseText (s ++ t) p = parseText t p := by
  have hequals : 61 ∈ s ++ t ↔ 61 ∈ t := by
    rw [List.mem_append, or_iff_right (hs.not_mem (by decide))]
  have hcomment : leftTrim (rightTrim (s ++ t)) = leftTrim (rightTrim t) := by
    obtain ⟨pre, core, post, rfl, hpre, hcore, hpost⟩ := exists_trimmed t
    have hpad := trim_pad (hs.append hpre) hcore hpost
    rw [trim_pad hpre hcore hpost]
    simpa only [List.append_assoc] using hpad
  have hwords : runs isDelimiter (s ++ t) = runs isDelimiter t := by
    rw [runs_split s (.inl fun c hc => hs c (List.mem_of_getLast? hc)),
      runs_blank hs, List.nil_append]
  by_cases hheader : firstValidChar t = 91
  · rw [parseText_header ((firstValidChar_skip hs t).trans hheader), parseText_header hheader,
      parseSection, parseSection]
    by_cases hclosed : 93 ∈ t
    · rw [if_pos (List.mem_append_right s hclosed), if_pos hclosed,
        sectionText_skip hs hheader hclosed,
        format_leftPad hs]
    · rw [if_neg (by simp [hclosed, hs.not_mem (show isDelimiter 93 = false by decide)]),
        if_neg hclosed]
  · rw [parseText, parseText]
    simp only [firstValidChar_skip hs, hequals, if_neg hheader]
    rw [parseComment, parseComment, hcomment, parseRecord, parseRecord, separate_skip hs,
      parseWords, parseWords,
      hwords]

end Held

/-! ## Values -/

section Words

variable {s t : List UInt8} {p : Parsed}

theorem setAll_append (strSection : List UInt8) (vs ws : List (List UInt8)) (c : CConfOpt) :
    setAll strSection (vs ++ ws) c = (setAll strSection vs c).bind (setAll strSection ws) :=
      List.foldlM_append

theorem setAll_cSection {strSection : List UInt8} {vs : List (List UInt8)} {c c' : CConfOpt}
    (h : setAll strSection vs c = some c') : c'.cSection = c.cSection := by
  induction vs generalizing c with
  | nil =>
    cases h
    rfl
  | cons v vs ih =>
    rw [setAll, List.foldlM_cons] at h
    obtain ⟨d, hd, hrest⟩ := Option.bind_eq_some_iff.mp h
    exact (ih hrest).trans (onSection_cSection hd)

theorem onSection_change (f : CSection → Option CSection) (b : Bool) (c : CConfOpt) :
    CConfOpt.onSection f { c with configChange := b } =
      (c.onSection f).map fun c => { c with configChange := b } := by
  have hsame : (CConfOpt.cSection { c with configChange := b }).bind
      (fun name => CConfOpt.searchSection name { c with configChange := b }) =
      c.cSection.bind fun name => c.searchSection name := rfl
  rw [CConfOpt.onSection, CConfOpt.onSection, hsame]
  cases c.cSection.bind fun name => c.searchSection name with
  | none => rfl
  | some s =>
    simp only [Option.map_map]
    rfl

theorem setAll_change (strSection : List UInt8) (vs : List (List UInt8)) (b : Bool) (c : CConfOpt) :
    setAll strSection vs { c with configChange := b } =
      (setAll strSection vs c).map fun c => { c with configChange := b } := by
  induction vs generalizing c with
  | nil => rfl
  | cons v vs ih =>
    rw [setAll, setAll, List.foldlM_cons, List.foldlM_cons, onSection_change]
    cases c.onSection fun s => some (s.setEnumValue strSection v) with
    | none => rfl
    | some d => exact ih d

theorem parseText_wordsLike (h : WordsLike s) (hp : p.strSection ≠ []) :
    parseText s p = if p.conf.cSection = none then some p else parseWords s p := by
  obtain ⟨hfirst, hequals⟩ := h
  simp only [List.mem_cons, List.not_mem_nil, or_false, not_or] at hfirst
  rw [parseText]
  simp only [hfirst, hp, hequals, or_self, if_false]

/-- Values of two parts, where no word is cut. -/
theorem parseText_words (hs : WordsLike s) (hcut : CutBetween s t) (ht : WordsLike t)
    (hp : p.strSection ≠ []) : parseText (s ++ t) p = (parseText s p).bind (parseText t) := by
  have hne : firstValidChar s ≠ 0 := fun hzero => hs.1 (by simp [hzero])
  have hboth : WordsLike (s ++ t) := by
    refine ⟨?_, fun hmem => (List.mem_append.mp hmem).elim hs.2 ht.2⟩
    rw [firstValidChar_append hne]
    exact hs.1
  rw [parseText_wordsLike hboth hp, parseText_wordsLike hs hp]
  by_cases hnull : p.conf.cSection = none
  · rw [if_pos hnull, if_pos hnull, Option.bind_some, parseText_wordsLike ht hp, if_pos hnull]
  · rw [if_neg hnull, if_neg hnull, parseWords, parseWords, runs_split s hcut,
      List.map_append, setAll_append]
    cases hset : setAll p.strSection ((runs isDelimiter s).map clip) p.conf with
    | none => rfl
    | some c =>
      have hcurrent : c.cSection ≠ none := by
        rw [setAll_cSection hset]
        exact hnull
      have hrest :=
        parseText_wordsLike (p := { p with conf := { c with configChange := true } }) ht hp
      rw [Option.bind_some, Option.map_some, Option.bind_some, hrest, if_neg hcurrent, parseWords,
        setAll_change p.strSection _ true c, Option.map_map]
      rfl

/-- A text that is blank or read for values, behind values. -/
theorem parseText_more (hs : WordsLike s) (hnul : 0 ∉ s) (hcut : CutBetween s t) (hnul' : 0 ∉ t)
    (ht : firstValidChar t = 0 ∨ WordsLike t) (hp : p.strSection ≠ []) :
    parseText (s ++ t) p = (parseText s p).bind (parseText t) := by
  rcases ht with hblank | hwords
  · rw [parseText_blank hnul (blank_of_firstValidChar hnul' hblank)]
    cases parseText s p with
    | none => rfl
    | some p' => exact (parseText_ignored (.inl hblank) p').symm
  · exact parseText_words hs hcut hwords hp

theorem parseText_strSection {p' : Parsed} (hs : WordsLike s) (hp : p.strSection ≠ [])
    (h : parseText s p = some p') : p'.strSection = p.strSection := by
  rw [parseText_wordsLike hs hp] at h
  split at h
  · cases h
    rfl
  · obtain ⟨c, -, rfl⟩ := Option.map_eq_some_iff.mp h
    rfl

end Words

/-! ## What the loop makes of a piece -/

section Piece

variable {r : Reader} {line : List UInt8}

theorem clip_eq {s : List UInt8} (h : s.length ≤ 254) : clip s = s :=
  List.take_of_length_le (by omega)

theorem putString_text (buf line : List UInt8) :
    ∃ tail, putString buf line = lineText line ++ 0 :: tail := by
  by_cases hnul : 0 ∈ line
  · obtain ⟨front, rest, rfl, hfront⟩ := List.eq_append_cons_of_mem hnul
    rw [lineText, takeWhile_line hfront, putString, List.append_assoc]
    exact ⟨_, rfl⟩
  · rw [lineText_eq hnul, putString]
    exact ⟨_, rfl⟩

/-- A pass over what fits the buffer does what the text says. -/
theorem readLine_parsed (hlen : line.length ≤ 254) (hwords : WordsPlain line) :
    (readLine r line).map parsed = parseText (lineText line) (parsed r) := by
  have htext := (length_lineText_le line).trans hlen
  obtain ⟨tail, hbuf⟩ := putString_text r.strBuf line
  rw [WordsPlain] at hwords
  have hnul := lineText_noNul line
  rw [readLine, parseText]
  generalize lineText line = text at htext hbuf hwords hnul ⊢
  simp only
  by_cases hblank : firstValidChar text = 0
  · rw [if_pos hblank, if_pos hblank]
    rfl
  · rw [if_neg hblank, if_neg hblank]
    by_cases hheader : firstValidChar text = 91
    · rw [if_pos hheader, if_pos hheader, readSection, parseSection]
      by_cases hclosed : 93 ∈ text
      · have hname : clip (format (sectionText text)) = format (sectionText text) :=
          clip_eq ((length_format_le _).trans ((length_sectionText_le hclosed).trans htext))
        rw [if_pos hclosed, if_pos hclosed, hname, Option.map_map]
        rfl
      · rw [if_neg hclosed, if_neg hclosed]
        rfl
    · rw [if_neg hheader, if_neg hheader]
      by_cases hcomment : firstValidChar text = 35 ∨ firstValidChar text = 59 ∨ r.strSection = []
      · rw [if_pos hcomment]
        exact (if_pos hcomment).symm
      · rw [if_neg hcomment]
        refine Eq.trans ?_ (if_neg hcomment).symm
        by_cases hnull : r.conf.cSection = none
        · rw [if_pos hnull]
          exact (if_pos hnull).symm
        · rw [if_neg hnull]
          refine Eq.trans ?_ (if_neg hnull).symm
          by_cases heq : 61 ∈ text
          · have hparts := length_parts_le text 61
            rw [if_pos heq, if_pos heq, readRecord, parseRecord, clip_eq (by omega),
              clip_eq (by omega),
              Option.map_map]
            rfl
          · rw [if_neg heq, if_neg heq]
            rw [not_or, not_or] at hcomment
            have hplain := hwords ⟨by simp [hblank, hheader, hcomment.1, hcomment.2.1], heq⟩
            obtain ⟨strValue, hrun⟩ :=
              readEnum_runs (r := { r with strBuf := putString r.strBuf line }) hbuf hnul
              (by omega) (.inl hplain)
            have hclip : (runs isDelimiter text).map clip = runs isDelimiter text :=
              List.map_congr_left (fun w hw => clip_eq ((length_le_of_mem_runs hw).trans htext))
                |>.trans
                (List.map_id _)
            rw [hrun, parseWords, hclip, Option.map_map]
            rfl

/-- A piece that is ignored leaves all but the buffer. -/
theorem readLine_ignored (h : Ignored (lineText line)) :
    readLine r line = some { r with strBuf := putString r.strBuf line } := by
  rw [readLine]
  rcases h with hblank | ⟨hfirst, hopen⟩
  · exact if_pos hblank
  · have hne : firstValidChar (lineText line) ≠ 0 := by
      rw [hfirst]
      decide
    refine (if_neg hne).trans ((if_pos hfirst).trans ?_)
    rw [readSection, if_neg hopen]

end Piece

/-! ## What the loop makes of a line -/

section Run

variable {r : Reader} {pieces : List (List UInt8)}

theorem readLines_ignored (h : ∀ piece ∈ pieces, Ignored (lineText piece)) :
    (readLines pieces r).map parsed = some (parsed r) := by
  induction pieces generalizing r with
  | nil => rfl
  | cons piece pieces ih =>
    rw [readLines, List.foldlM_cons, readLine_ignored (h piece List.mem_cons_self)]
    exact ih (r := { r with strBuf := putString r.strBuf piece }) fun p hp =>
      h p (List.mem_cons_of_mem _ hp)

theorem readLines_cons (l : List UInt8) (ls : List (List UInt8)) (r : Reader) :
    readLines (l :: ls) r = (readLine r l).bind (readLines ls) := by
  rw [readLines, List.foldlM_cons]
  rfl

theorem readLines_singleton (l : List UInt8) (r : Reader) : readLines [l] r = readLine r l := by
  rw [readLines_cons]
  exact Option.bind_fun_some _

/-- A piece with ignored ones behind it. -/
theorem readLines_first {piece : List UInt8}
    (h : ∀ later ∈ pieces, Ignored (lineText later)) :
    (readLines (piece :: pieces) r).map parsed = (readLine r piece).map parsed := by
  rw [readLines_cons]
  cases readLine r piece with
  | none => rfl
  | some r' => exact readLines_ignored h

theorem WordsLike.nonblank {s : List UInt8} (h : WordsLike s) : firstValidChar s ≠ 0 :=
  fun hzero => h.1 (by simp [hzero])

theorem WordsLike.skip {s t : List UInt8} (hs : Blank s) (h : WordsLike t) :
    WordsLike (s ++ t) := by
  rw [WordsLike, firstValidChar_skip hs, List.mem_append, not_or]
  exact ⟨h.1, hs.not_mem (by decide), h.2⟩

/-- What is read for values, as a whole. -/
theorem wordPieces_text (h : WordPieces pieces) :
    firstValidChar (lineText pieces.flatten) = 0 ∨ WordsLike (lineText pieces.flatten) := by
  induction pieces with
  | nil => exact .inl rfl
  | cons piece pieces ih =>
    rw [WordPieces] at h
    obtain ⟨hfirst, h⟩ := h
    rw [List.flatten_cons, lineText_append]
    split
    · exact hfirst
    · next hnul =>
      rw [if_neg hnul] at h
      rw [lineText_eq hnul] at hfirst
      have htail := ih h.2
      rcases hfirst with hblank | hwords
      · have hall := blank_of_firstValidChar hnul hblank
        rw [firstValidChar_skip hall]
        exact htail.imp_right (WordsLike.skip hall)
      · refine .inr ⟨?_, ?_⟩
        · rw [firstValidChar_append fun hzero => hwords.1 (by simp [hzero])]
          exact hwords.1
        · rw [List.mem_append, not_or]
          refine ⟨hwords.2, fun hmem => ?_⟩
          rcases htail with hblank | htail
          · exact absurd hmem
              ((blank_of_firstValidChar (lineText_noNul _) hblank).not_mem (by decide))
          · exact htail.2 hmem

theorem cutBetween_text {s t : List UInt8} (h : CutBetween s t) : CutBetween s (lineText t) := by
  refine h.imp_right fun h c hc => ?_
  cases t with
  | nil => cases hc
  | cons d t =>
    rw [lineText, List.takeWhile_cons] at hc
    split at hc
    · exact h c hc
    · cases hc

/-- Pieces that are read for values, one after the other. -/
theorem readLines_words (h : WordPieces pieces) (hlen : ∀ piece ∈ pieces, piece.length ≤ 254)
    (hplain : ∀ piece ∈ pieces, WordsPlain piece) (hr : r.strSection ≠ []) :
    (readLines pieces r).map parsed = parseText (lineText pieces.flatten) (parsed r) := by
  induction pieces generalizing r with
  | nil => exact (parseText_ignored (.inl rfl) _).symm
  | cons piece pieces ih =>
    rw [WordPieces] at h
    obtain ⟨hfirst, h⟩ := h
    have hread :=
      readLine_parsed (r := r) (hlen piece List.mem_cons_self) (hplain piece List.mem_cons_self)
    have hlen' := fun later hlater => hlen later (List.mem_cons_of_mem _ hlater)
    have hplain' := fun later hlater => hplain later (List.mem_cons_of_mem _ hlater)
    rw [List.flatten_cons, lineText_append]
    split
    · next hnul =>
      rw [if_pos hnul] at h
      rw [readLines_first h, hread]
    · next hnul =>
      rw [if_neg hnul] at h
      obtain ⟨hcut, hwords⟩ := h
      rw [readLines_cons]
      rcases hfirst with hblank | hfirst
      · rw [readLine_ignored (.inl hblank), Option.bind_some,
          ih (r := { r with strBuf := putString r.strBuf piece }) hwords hlen' hplain' hr]
        rw [lineText_eq hnul] at hblank
        exact (parseText_skip (blank_of_firstValidChar hnul hblank) _ _).symm
      · rw [lineText_eq hnul] at hread hfirst
        rw [parseText_more hfirst hnul (cutBetween_text hcut) (lineText_noNul _)
          (wordPieces_text hwords) hr,
          ← hread]
        cases hpass : readLine r piece with
        | none => rfl
        | some r' =>
          rw [hpass] at hread
          have hsame := parseText_strSection (p := parsed r) hfirst hr hread.symm
          exact ih hwords hlen' hplain' fun hnil => hr (hsame.symm.trans hnil)

/-- The pieces of a line that is held together. -/
theorem readLines_held (h : HeldPieces r.strSection pieces)
    (hlen : ∀ piece ∈ pieces, piece.length ≤ 254) (hplain : ∀ piece ∈ pieces, WordsPlain piece) :
    (readLines pieces r).map parsed = parseText (lineText pieces.flatten) (parsed r) := by
  induction pieces generalizing r with
  | nil => exact (parseText_ignored (.inl rfl) _).symm
  | cons piece pieces ih =>
    rw [HeldPieces] at h
    rcases h with ⟨hblank, hheld⟩ | ⟨hlater, hsaid⟩ | ⟨hr, hwords⟩
    · have hnul : 0 ∉ piece := hblank.not_mem (by decide)
      have hignored : Ignored (lineText piece) := by
        rw [lineText_eq hnul]
        exact .inl (firstValidChar_blank hblank)
      have hrest := ih (r := { r with strBuf := putString r.strBuf piece }) hheld
        (fun later hlater => hlen later (List.mem_cons_of_mem _ hlater))
        (fun later hlater => hplain later (List.mem_cons_of_mem _ hlater))
      rw [readLines_cons, readLine_ignored hignored, Option.bind_some, hrest, List.flatten_cons,
        lineText_append, if_neg hnul]
      exact (parseText_skip hblank _ _).symm
    · rw [readLines_first hlater, readLine_parsed (hlen piece List.mem_cons_self)
        (hplain piece List.mem_cons_self), List.flatten_cons,
        parseText_said (ignored_together hlater) hsaid]
    · exact readLines_words hwords hlen hplain hr

end Run

/-! ## Whole files -/

section File

variable {junk text : List UInt8} {done : List (List UInt8)} {r r' : Reader}

/-- What the pieces that were read tell of the reader. -/
theorem tracks_pieces {pieces : List (List UInt8)}
    (hr : readLines pieces ⟨.initial, junk, [], []⟩ = some r) :
    Tracks (pieces.map lineText) r := readLines_tracks (tracks_start junk) hr

theorem readLines_append (l l' : List (List UInt8)) (r : Reader) :
    readLines (l ++ l') r = (readLines l r).bind (readLines l') := List.foldlM_append

/-- A line that is held together, piece by piece and as a whole. -/
theorem readLines_whole {line : List UInt8} (hlen : 254 < line.length)
    (h : Held r.strSection line) :
    readLines (fgetsAll [] line) r = readWhole r line := by
  have hpieces := readLines_held h.1 (length_fgetsAll (Nat.zero_le _)) h.2
  rw [flatten_fgetsAll, List.nil_append] at hpieces
  rw [readWhole, if_neg (by omega), ← hpieces]
  cases readLines (fgetsAll [] line) r with
  | none => rfl
  | some r' => rfl

/-- The same reader behind each line. -/
theorem readBefore_whole (junk : List UInt8) (h : AllHeld text) (before after : List (List UInt8))
    (hlines : splitLines [] text = before ++ after) :
    readLines (before.flatMap (fgetsAll [])) ⟨.initial, junk, [], []⟩ =
      before.foldlM readWhole ⟨.initial, junk, [], []⟩ := by
  induction before using List.reverseRecOn generalizing after with
  | nil => rfl
  | append_singleton before line ih =>
    rw [List.append_assoc, List.singleton_append] at hlines
    have hline : OneLine line := (fgetsAll_lines text).2 line (by simp [hlines])
    rw [List.flatMap_append, List.flatMap_singleton, readLines_append, List.foldlM_append,
      ← ih (line :: after) hlines]
    cases hread : readLines (before.flatMap (fgetsAll [])) ⟨.initial, junk, [], []⟩ with
    | none => rfl
    | some r =>
      have hlast : readLines (fgetsAll [] line) r = readWhole r line := by
        by_cases hlen : line.length ≤ 254
        · rw [fgetsAll_short hline hlen, readLines_singleton, readWhole, if_pos hlen]
        · have hheld := h before line after hlines (not_le.mp hlen)
          rw [sectionBehind, ← (tracks_pieces hread).strSection] at hheld
          exact readLines_whole (not_le.mp hlen) hheld
      rw [Option.bind_some, hlast]
      exact (Option.bind_fun_some _).symm

/-- The file is read line by line. -/
theorem readFromFile_whole (h : AllHeld text) :
    readFromFile junk text = readWholeLines junk text := by
  rw [readFromFile, readWholeLines, (fgetsAll_lines text).1,
    readBefore_whole junk h (splitLines [] text) [] (List.append_nil _).symm]

/-! ## Nothing is read apart -/

theorem kind_nothing_iff {p : Parsed} (h : p.conf.cSection = none → p.strSection = [])
    (s : List UInt8) :
    kind p s = .nothing ↔ Ignored s := by
  rw [kind, Ignored]
  by_cases hblank : firstValidChar s = 0
  · simp [hblank]
  · by_cases hheader : firstValidChar s = 91
    · by_cases hclosed : 93 ∈ s <;> simp [hheader, hclosed]
    · have hreached : ¬ (p.conf.cSection = none ∧ p.strSection ≠ []) :=
        fun hall => hall.2 (h hall.1)
      by_cases hcomment : firstValidChar s = 35 ∨ firstValidChar s = 59 ∨ p.strSection = []
      · simp [hblank, hheader, hcomment]
      · have hcurrent : p.conf.cSection ≠ none := fun hnone => hcomment (.inr (.inr (h hnone)))
        by_cases heq : 61 ∈ s <;> simp [hblank, hheader, hcomment, hcurrent, heq]

theorem kind_words_iff {p : Parsed} (h : p.conf.cSection = none → p.strSection = [])
    (s : List UInt8) :
    kind p s = .words ↔ p.strSection ≠ [] ∧ WordsLike s := by
  rw [kind, WordsLike]
  by_cases hblank : firstValidChar s = 0
  · simp [hblank]
  · by_cases hheader : firstValidChar s = 91
    · by_cases hclosed : 93 ∈ s <;> simp [hheader, hclosed]
    · by_cases hcomment : firstValidChar s = 35 ∨ firstValidChar s = 59 ∨ p.strSection = []
      · refine iff_of_false (by simp [hblank, hheader, hcomment]) ?_
        rintro ⟨hname, hfirst, -⟩
        rcases hcomment with hc | hc | hc
        · exact hfirst (by simp [hc])
        · exact hfirst (by simp [hc])
        · exact hname hc
      · have hcurrent : p.conf.cSection ≠ none := fun hnone => hcomment (.inr (.inr (h hnone)))
        have hparts := hcomment
        rw [not_or, not_or] at hparts
        by_cases heq : 61 ∈ s <;> simp [hblank, hheader, hparts, hcurrent, heq]

/-- Where it has words, they are words of the line just where none is cut. -/
theorem wordsOf_iff {front piece : List UInt8} (hpiece : firstValidChar (lineText piece) ≠ 0) :
    WordsOf front piece ↔ Plain (lineText piece) ∧ 0 ∉ front ∧ CutBetween front piece := by
  rw [WordsOf, lineText_append]
  refine and_congr_right fun _ => ?_
  by_cases hnul : 0 ∈ front
  · rw [if_pos hnul]
    refine iff_of_false (fun h => hpiece (firstValidChar_blank ?_)) fun h => h.1 hnul
    exact delimiters_of_runs (List.self_eq_append_right.mp h)
  · rw [if_neg hnul, lineText_eq hnul, runs_split_iff, and_iff_right hnul, CutBetween]
    have hhead : (lineText piece).head? = piece.head? := by
      cases piece with
      | nil => rfl
      | cons c piece =>
        rw [lineText, List.takeWhile_cons] at hpiece ⊢
        split
        · rfl
        · next hc =>
          rw [if_neg hc] at hpiece
          exact absurd rfl hpiece
    rw [hhead]

theorem continues_iff (h : Tracks (done.map lineText) r) (front piece line : List UInt8) :
    kind (parsed r) (lineText piece) = .nothing ∨
        kind (parsed r) (lineText piece) = .words ∧ kind (parsed r) (lineText line) = .words ∧
          WordsOf front piece ↔
      Continues (sectionBehind done) front piece line := by
  have hnull : (parsed r).conf.cSection = none → (parsed r).strSection = [] := by
    intro hnone
    rw [parsed, h.strSection, ← h.cSection]
    exact congrArg (Option.getD · []) hnone
  rw [kind_nothing_iff hnull, kind_words_iff hnull, kind_words_iff hnull, Continues,
    sectionBehind, ← h.strSection]
  refine or_congr_right ⟨fun ⟨h₁, h₂, h₃⟩ => ?_, fun ⟨h₀, h₁, h₂, h₃⟩ => ?_⟩
  · exact ⟨h₁.1, h₁.2, h₂.2, (wordsOf_iff h₁.2.nonblank).mp h₃⟩
  · exact ⟨⟨h₀, h₁⟩, ⟨h₀, h₂⟩, (wordsOf_iff h₁.nonblank).mpr h₃⟩

theorem header_of_ignored {s : List UInt8} (h : Ignored s ∨ WordsLike s) : header s = none := by
  refine header_none fun hall => ?_
  rcases h with (hblank | hopen) | hwords
  · exact absurd (hblank.symm.trans hall.1) (by decide)
  · exact hopen.2 hall.2
  · exact hwords.1 (by simp [hall.1])

theorem sectionBehind_append {front : List (List UInt8)}
    (h : ∀ piece ∈ front, header (lineText piece) = none) (done : List (List UInt8)) :
    sectionBehind (done ++ front) = sectionBehind done := by
  have hnone : (front.map lineText).filterMap header = [] := by
    rw [List.filterMap_eq_nil_iff]
    intro s hs
    obtain ⟨piece, hpiece, rfl⟩ := List.mem_map.mp hs
    exact h piece hpiece
  rw [sectionBehind, currentSection, List.map_append, List.filterMap_append, hnone, List.append_nil,
    sectionBehind, currentSection]

/-- None of them is a header, a comment or a record. -/
theorem wordPieces_each {pieces : List (List UInt8)} (h : WordPieces pieces) :
    ∀ piece ∈ pieces, Ignored (lineText piece) ∨ WordsLike (lineText piece) := by
  induction pieces with
  | nil => exact fun piece hpiece => absurd hpiece List.not_mem_nil
  | cons first pieces ih =>
    rw [WordPieces] at h
    obtain ⟨hfirst, h⟩ := h
    intro piece hpiece
    rcases List.mem_cons.mp hpiece with rfl | hlater
    · exact hfirst.imp_left .inl
    · split at h
      · exact .inl (h piece hlater)
      · exact ih h.2 piece hlater

/-- Where they are blank together, each of them is ignored. -/
theorem wordPieces_blank {pieces : List (List UInt8)} (h : WordPieces pieces)
    (hblank : firstValidChar (lineText pieces.flatten) = 0) :
    ∀ piece ∈ pieces, Ignored (lineText piece) := by
  induction pieces with
  | nil => exact fun piece hpiece => absurd hpiece List.not_mem_nil
  | cons first pieces ih =>
    rw [WordPieces] at h
    obtain ⟨-, h⟩ := h
    rw [List.flatten_cons, lineText_append] at hblank
    intro piece hpiece
    by_cases hnul : 0 ∈ first
    · rw [if_pos hnul] at h hblank
      rcases List.mem_cons.mp hpiece with rfl | hlater
      · exact .inl hblank
      · exact h piece hlater
    · rw [if_neg hnul] at h hblank
      have hfirst : firstValidChar first = 0 :=
        not_not.mp fun hne => hne ((firstValidChar_append hne _).symm.trans hblank)
      rw [firstValidChar_skip (blank_of_firstValidChar hnul hfirst)] at hblank
      rcases List.mem_cons.mp hpiece with rfl | hlater
      · rw [lineText_eq hnul]
        exact .inl hfirst
      · exact ih h.2 hblank piece hlater

theorem CutBetween.append {s t u : List UInt8} (h : CutBetween s (t ++ u)) (h' : CutBetween t u) :
    CutBetween (s ++ t) u := by
  cases t with
  | nil => rwa [List.append_nil]
  | cons c t =>
    refine h'.imp_left fun hlast d hd => hlast d ?_
    rwa [List.getLast?_append, List.getLast?_cons, Option.some_or, ← List.getLast?_cons] at hd

theorem CutBetween.front {s t u : List UInt8} (h : CutBetween s (t ++ u)) : CutBetween s t := by
  cases t with
  | nil => exact .inr fun c hc => by cases hc
  | cons c t => exact h

/-- A piece behind others is ignored, or it is of the same string and no word is cut in
front of it. -/
theorem wordPieces_cut {piece : List UInt8} {front rest : List (List UInt8)}
    (h : WordPieces (front ++ piece :: rest)) (hne : front ≠ []) : Ignored (lineText piece) ∨
      0 ∉ front.flatten ∧ CutBetween front.flatten (piece :: rest).flatten := by
  induction front with
  | nil => exact absurd rfl hne
  | cons first front ih =>
    rw [List.cons_append, WordPieces] at h
    obtain ⟨-, h⟩ := h
    by_cases hnul : 0 ∈ first
    · rw [if_pos hnul] at h
      exact .inl (h piece (List.mem_append_right _ List.mem_cons_self))
    · rw [if_neg hnul, List.flatten_append] at h
      rw [List.flatten_cons, List.mem_append, not_or, and_iff_right hnul]
      by_cases hfront : front = []
      · subst hfront
        exact .inr ⟨List.not_mem_nil, h.1.append (.inl fun c hc => by cases hc)⟩
      · exact (ih h.2 hfront).imp_right fun ⟨hnone, hcut⟩ => ⟨hnone, h.1.append hcut⟩

/-- A piece of a line that is held together, behind what the line began with. -/
theorem heldPieces_at {strSection piece : List UInt8} {front rest : List (List UInt8)}
    (h : HeldPieces strSection (front ++ piece :: rest)) (hne : ¬ Blank front.flatten) :
    Ignored (lineText piece) ∨ strSection ≠ [] ∧ WordsLike (lineText piece) ∧
      WordsLike (lineText (front ++ piece :: rest).flatten) ∧ 0 ∉ front.flatten ∧
      CutBetween front.flatten (piece :: rest).flatten ∧ ∀ p ∈ front,
      header (lineText p) = none := by
  induction front with
  | nil => exact absurd blank_nil hne
  | cons first front ih =>
    have hmem : piece ∈ front ++ piece :: rest := List.mem_append_right _ List.mem_cons_self
    rw [List.cons_append, HeldPieces] at h
    rcases h with ⟨hblank, hheld⟩ | ⟨hlater, -⟩ | ⟨hname, hwords⟩
    · have hnul : 0 ∉ first := hblank.not_mem (by decide)
      have hrest : ¬ Blank front.flatten := fun hall => hne (by
        rw [List.flatten_cons]
        exact hblank.append hall)
      refine (ih hheld hrest).imp_right fun ⟨hname, hpiece, hline, hnone, hcut, hheaders⟩ =>
        ⟨hname, hpiece, ?_, ?_, ?_, ?_⟩
      · rw [List.cons_append, List.flatten_cons, lineText_append, if_neg hnul]
        exact WordsLike.skip hblank hline
      · rw [List.flatten_cons, List.mem_append, not_or]
        exact ⟨hnul, hnone⟩
      · rw [List.flatten_cons]
        exact CutBetween.append (.inl fun c hc => hblank c (List.mem_of_getLast? hc)) hcut
      · intro p hp
        rcases List.mem_cons.mp hp with rfl | hp
        · rw [lineText_eq hnul]
          exact header_of_ignored (.inl (.inl (firstValidChar_blank hblank)))
        · exact hheaders p hp
    · exact .inl (hlater piece hmem)
    · have heach := wordPieces_each hwords
      rcases wordPieces_text hwords with hblank | hline
      · exact .inl (wordPieces_blank hwords hblank piece (List.mem_cons_of_mem _ hmem))
      · rw [← List.cons_append] at hwords
        rcases wordPieces_cut hwords (List.cons_ne_nil first front) with hignored | hcut
        · exact .inl hignored
        · refine (heach piece (List.mem_cons_of_mem _ hmem)).imp_right fun hpiece =>
            ⟨hname, hpiece, hline, hcut.1, hcut.2, fun p hp => header_of_ignored (heach p ?_)⟩
          rw [← List.cons_append]
          exact List.mem_append_left _ hp

theorem allContinue_of_allHeld (h : AllHeld text) : AllContinue text := by
  intro before line after hlines front piece rest hpieces hne
  have hline : OneLine line := (fgetsAll_lines text).2 line (by simp [hlines])
  by_cases hlen : line.length ≤ 254
  · rw [fgetsAll_short hline hlen] at hpieces
    cases front with
    | nil => exact absurd blank_nil hne
    | cons first front => simp at hpieces
  · obtain ⟨hheld, hplain⟩ := h before line after hlines (not_le.mp hlen)
    have hwhole := flatten_fgetsAll [] line
    have hmem : piece ∈ fgetsAll [] line := by
      rw [hpieces]
      exact List.mem_append_right _ List.mem_cons_self
    rw [hpieces] at hheld hwhole
    refine (heldPieces_at hheld hne).imp_right fun ⟨hname, hpiece, hwords, hnone, hcut, hheaders⟩ =>
      ?_
    rw [hwhole] at hwords
    rw [sectionBehind_append hheaders]
    exact ⟨hname, hpiece, hwords, hplain piece hmem hpiece, hnone, hcut.front⟩

theorem neverApart_of_allContinue (h : AllContinue text) : NeverApart junk text :=
  fun before line after hlines front piece rest hpieces hne _ hr =>
    (continues_iff (tracks_pieces hr) _ piece line).mpr
      (h before line after hlines front piece rest hpieces hne)

/-- In a file that is read to its end. -/
theorem neverApart_iff {c : CConfOpt} (hload : readFromFile junk text = some c) :
    NeverApart junk text ↔ AllContinue text := by
  refine ⟨fun hnever before line after hlines front piece rest hpieces hne => ?_,
    neverApart_of_allContinue⟩
  -- the run up to the piece
  obtain ⟨r', hrun, -⟩ := Option.map_eq_some_iff.mp hload
  rw [(fgetsAll_lines text).1, hlines, List.flatMap_append, List.flatMap_cons, hpieces,
    List.append_assoc,
    ← List.append_assoc, readLines_append] at hrun
  obtain ⟨r, hr, -⟩ := Option.bind_eq_some_iff.mp hrun
  exact (continues_iff (tracks_pieces hr) _ piece line).mp
    (hnever before line after hlines front piece rest hpieces hne r hr)

/-- Where all lines are held together, the file is read as its lines are, and nothing of
them is read apart. In a file that is read to its end nothing is read apart just where all
pieces continue their lines. -/
theorem long_lines (junk text : List UInt8) :
    (AllHeld text → readFromFile junk text = readWholeLines junk text ∧ NeverApart junk text) ∧
    ∀ c, readFromFile junk text = some c → (NeverApart junk text ↔ AllContinue text) :=
  ⟨fun h => ⟨readFromFile_whole h, neverApart_of_allContinue (allContinue_of_allHeld h)⟩, fun _ =>
    neverApart_iff⟩

/-- `a=1` under `[s]`, with 300 blanks behind it. -/
theorem long_lines_padded :
    readFromFile (List.replicate 256 0)
        ([91, 115, 93, 10] ++ ([97, 61, 49] ++ List.replicate 300 32 ++ [10])) =
      readWholeLines (List.replicate 256 0)
        ([91, 115, 93, 10] ++ ([97, 61, 49] ++ List.replicate 300 32 ++ [10])) ∧
    NeverApart (List.replicate 256 0)
      ([91, 115, 93, 10] ++ ([97, 61, 49] ++ List.replicate 300 32 ++ [10])) := by
  refine (long_lines _ _).1 fun before line after hsplit hlong => ?_
  have hlines : splitLines []
    ([91, 115, 93, 10] ++ ([97, 61, 49] ++ List.replicate 300 32 ++ [10])) =
      [[91, 115, 93, 10], [97, 61, 49] ++ List.replicate 300 32 ++ [10]] := by
    decide +kernel
  have hpieces : fgetsAll [] ([97, 61, 49] ++ List.replicate 300 32 ++ [10]) =
      [[97, 61, 49] ++ List.replicate 251 32, List.replicate 49 32 ++ [10]] := by
    decide +kernel
  rw [hlines] at hsplit
  rcases before with _ | ⟨first, _ | ⟨second, before⟩⟩
  · obtain ⟨rfl, -⟩ := List.cons.inj hsplit
    exact absurd hlong (by decide)
  · obtain ⟨rfl, hrest⟩ := List.cons.inj hsplit
    obtain ⟨rfl, -⟩ := List.cons.inj hrest
    rw [Held, hpieces]
    refine ⟨.inr (.inl ⟨by decide +kernel, .inr (.inr ?_)⟩), fun piece hpiece hwords => ?_⟩
    · unfold Blank
      decide +kernel
    · rcases List.mem_cons.mp hpiece with rfl | hpiece
      · exact absurd hwords (by decide +kernel)
      · rw [List.mem_singleton.mp hpiece] at hwords
        exact absurd hwords (by decide +kernel)
  · have hlen := congrArg List.length hsplit
    simp only [List.length_append, List.length_cons, List.length_nil] at hlen
    omega

/-- A piece that does not continue its line is read apart. -/
theorem apart_at (before after front rest : List (List UInt8)) (line piece : List UInt8)
    (hload : (readFromFile junk text).isSome = true)
    (hlines : splitLines [] text = before ++ line :: after)
    (hpieces : fgetsAll [] line = front ++ piece :: rest) (hne : ¬ Blank front.flatten)
    (hpiece : ¬ Continues (sectionBehind (before.flatMap (fgetsAll []) ++ front))
      front.flatten piece line) :
    ¬ NeverApart junk text := by
  obtain ⟨c, hread⟩ := Option.isSome_iff_exists.mp hload
  exact fun h =>
    hpiece ((neverApart_iff hread).mp h before line after hlines front piece rest hpieces hne)

/-- What is behind the 254th byte of a record is a record of its own, a header behind
that of a comment is one, and a word of 300 bytes is two values. -/
theorem long_lines_apart :
    (readFromFile (List.replicate 256 0)
        ([91, 115, 93, 10, 97, 61] ++ List.replicate 252 120 ++ [98, 61, 49, 10]) ≠
      readWholeLines (List.replicate 256 0)
        ([91, 115, 93, 10, 97, 61] ++ List.replicate 252 120 ++ [98, 61, 49, 10]) ∧
    ¬ NeverApart (List.replicate 256 0)
      ([91, 115, 93, 10, 97, 61] ++ List.replicate 252 120 ++ [98, 61, 49, 10])) ∧
    (readFromFile (List.replicate 256 0) (List.replicate 254 35 ++ [91, 116, 93, 10])).map
      (fun c => c.sections.map CSection.name) = some [[116]] ∧
    (readWholeLines (List.replicate 256 0) (List.replicate 254 35 ++ [91, 116, 93, 10])).map
      (fun c => c.sections.map CSection.name) = some [] ∧
    (readFromFile (List.replicate 256 0) ([91, 115, 93, 10] ++ List.replicate 300 120 ++ [10]) ≠
      readWholeLines (List.replicate 256 0) ([91, 115, 93, 10] ++ List.replicate 300 120 ++ [10]) ∧
    ¬ NeverApart (List.replicate 256 0) ([91, 115, 93, 10] ++ List.replicate 300 120 ++ [10])) := by
  refine ⟨⟨by decide +kernel, ?_⟩, by decide +kernel, by decide +kernel, by decide +kernel, ?_⟩
  · refine apart_at [[91, 115, 93, 10]] [] [[97, 61] ++ List.replicate 252 120] []
      ([97, 61] ++ List.replicate 252 120 ++ [98, 61, 49, 10]) [98, 61, 49, 10]
      (by decide +kernel) (by decide +kernel) (by decide +kernel)
      (fun hall => absurd (hall 97 (by decide +kernel)) (by decide)) ?_
    rintro (hignored | ⟨-, hwords, -⟩)
    · exact absurd hignored (by decide +kernel)
    · exact absurd hwords (by decide +kernel)
  · refine apart_at [[91, 115, 93, 10]] [] [List.replicate 254 120] []
      (List.replicate 300 120 ++ [10])
      (List.replicate 46 120 ++ [10]) (by decide +kernel) (by decide +kernel) (by decide +kernel)
      (fun hall => absurd (hall 120 (by decide +kernel)) (by decide)) ?_
    rintro (hignored | ⟨-, -, -, -, -, hlast | hhead⟩)
    · exact absurd hignored (by decide +kernel)
    · exact absurd (hlast 120 (by decide +kernel)) (by decide)
    · exact absurd (hhead 120 (by decide +kernel)) (by decide)

end File

end NetmtLongLines
