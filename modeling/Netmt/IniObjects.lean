import Netmt.IniLookup

/-!
# The objects behind the pointers

Which comments, records and sections one pass of `ReadFromFile` uses, and what the
pointer leads to that it uses them by. A section's header may be met again with no
comment waiting, and a record that the chain rejects is freed before it is used.
-/
namespace NetmtIniObjects

open NetmtIniStr NetmtIniConf NetmtIniLookup

inductive Kind where
  | comment | record | section
  deriving DecidableEq, Repr

inductive Pointer where
  | null | live | freed
  deriving DecidableEq, Repr

/-- A call of a method, or an access to a member. -/
structure Use where
  kind : Kind
  pointer : Pointer
  deriving DecidableEq, Repr

/-- A walk over the objects of a chain. -/
def walk (kind : Kind) (n : Nat) : List Use := List.replicate n ⟨kind, .live⟩

/-- The pointer to a comment and those that follow it. -/
def commentPointer (chain : List (List UInt8)) : Pointer := if chain = [] then .null else .live

/-- `CComment::Push(const char *)` -/
def pushTextUses (chain : List (List UInt8)) : List Use := walk .comment chain.length

/-- `CComment::Push(CComment *)` -/
def pushChainUses (chain comment : List (List UInt8)) : List Use :=
  walk .comment chain.length ++ [⟨.comment, commentPointer comment⟩]

/-- `CRecord::SetComment(CComment *&)` -/
def recordSetCommentUses (record : Pointer) (comment : List (List UInt8))
    (r : CRecord) : List Use :=
  ⟨.record, record⟩ ::
    (if comment = [] then [] else if r.comment = [] then [] else pushChainUses r.comment comment)

/-- The pointer that was pushed into a chain of type `CtEM_REJECT`. -/
def pushedPointer (rejected : Bool) : Pointer := if rejected then .freed else .live

/-- `CSection::SetValue` -/
def setValueUses (name recordName value : List UInt8) (comment : List (List UInt8)) (s : CSection) :
    List Use :=
  if s.name ≠ name then []
  else walk .record s.records.length ++
    match s.searchRecord recordName with
    | some r => ⟨.record, .live⟩ :: recordSetCommentUses .live comment (r.setValue recordName value)
    | none =>
      recordSetCommentUses (pushedPointer (s.records.any fun r => r.name = recordName)) comment
        (newRecord recordName value)

/-- `CSection::SetComment(CComment *&)` -/
def sectionSetCommentUses (comment : List (List UInt8)) (s : CSection) : List Use :=
  if s.comment = [] then [] else pushChainUses s.comment comment

/-- Something is called on `m_cSection`. -/
def onSectionUses (uses : CSection → List Use) (c : CConfOpt) : List Use :=
  match c.cSection.bind fun name => c.searchSection name with
  | none => [⟨.section, .null⟩]
  | some s => ⟨.section, .live⟩ :: uses s

/-- `SearchSection`, and the section that is pushed where it finds none. -/
def selectSectionUses (name : List UInt8) (c : CConfOpt) : List Use :=
  walk .section c.sections.length ++
    if (c.searchSection name).isSome then []
    else [⟨.section, pushedPointer (c.sections.any fun s => s.name = name)⟩]

/-- One pass of the loop of `ReadFromFile`. The words of a line all go to the same
`m_cSection`. -/
def lineUses (r : Reader) (line : List UInt8) : List Use :=
  let text := lineText line
  let cFirst := firstValidChar text
  if cFirst = 0 then []
  else if cFirst = 91 then
    if 93 ∈ text then
      let name := format (sectionText text)
      selectSectionUses name r.conf ++
        onSectionUses (sectionSetCommentUses r.conf.chainComment) (r.conf.selectSection name)
    else []
  else if cFirst = 35 ∨ cFirst = 59 ∨ r.strSection = [] then pushTextUses r.conf.chainComment
  else if r.conf.cSection = none then []
  else if 61 ∈ text then
    let parts := separateByFirstDelimiter text 61
    onSectionUses (setValueUses r.strSection parts.1 parts.2 r.conf.chainComment) r.conf
  else onSectionUses (fun _ => []) r.conf

/-- The globals and the locals in front of the first line. -/
def start (junk : List UInt8) : Reader := ⟨.initial, junk, [], []⟩

/-- Every object that the passes over a text use is there. -/
def LoadsSafely (junk text : List UInt8) : Prop :=
  ∀ done line todo r, fgetsAll [] text = done ++ line :: todo →
    readLines done (start junk) = some r →
    ∀ u ∈ lineUses r line, u.pointer = .live

/-! ## Histories of lines -/

/-- What a line is, behind the lines `done`. -/
inductive LineKind where
  | nothing
  | header : List UInt8 → LineKind
  | comment
  | assignment : List UInt8 → LineKind
  | words
  deriving DecidableEq

def lineKind (done : List (List UInt8)) (line : List UInt8) : LineKind :=
  if firstValidChar line = 0 then .nothing
  else if firstValidChar line = 91 then
    match header line with
    | some name => .header name
    | none => .nothing
  else if firstValidChar line = 35 ∨ firstValidChar line = 59 ∨
    (currentSection done).getD [] = [] then
    .comment
  else if 61 ∈ line then .assignment (normalise (line.takeWhile (· ≠ 61)))
  else .words

/-- Comments go to the next header or assignment. -/
def LineKind.takes : LineKind → Prop
  | .header _ => True
  | .assignment _ => True
  | _ => False

/-- A comment is waiting for something to belong to. -/
def Pending (lines : List (List UInt8)) : Prop :=
  ∃ done line todo, lines = done ++ line :: todo ∧ lineKind done line = .comment ∧
    ∀ d l t, todo = d ++ l :: t → ¬ (lineKind (done ++ line :: d) l).takes

/-- A header of the section was met while a comment was waiting. -/
def Commented (name : List UInt8) (lines : List (List UInt8)) : Prop :=
  ∃ done line todo, lines = done ++ line :: todo ∧ lineKind done line = .header name ∧ Pending done

/-- Something was assigned to a blank name in the section. -/
def BlankAssigned (name : List UInt8) (lines : List (List UInt8)) : Prop :=
  ∃ done line todo, lines = done ++ line :: todo ∧ currentSection done = some name ∧
    lineKind done line = .assignment []

/-- The line is a header, with no comment waiting, of a section that has one, or a second
assignment to a blank name in a section. -/
def Bad (done : List (List UInt8)) (line : List UInt8) : Prop :=
  (∃ name, lineKind done line = .header name ∧ Commented name done ∧ ¬ Pending done) ∨
    ∃ name, currentSection done = some name ∧ lineKind done line = .assignment [] ∧
    BlankAssigned name done

/-- A place in a list that grew at its end. -/
theorem exists_split_concat {α : Type} {P : List α → α → List α → Prop} {l : List α} {x : α} :
    (∃ a y b, l ++ [x] = a ++ y :: b ∧ P a y b) ↔ P l x [] ∨ ∃ a y b, l = a ++ y :: b ∧
    P a y (b ++ [x]) := by
  constructor
  · rintro ⟨a, y, b, hsplit, hp⟩
    rcases List.eq_nil_or_concat b with rfl | ⟨b', z, rfl⟩
    · obtain ⟨rfl, hx⟩ := List.append_inj' hsplit rfl
      cases hx
      exact Or.inl hp
    · rw [List.concat_eq_append] at hsplit hp
      have hassoc : a ++ y :: (b' ++ [z]) = (a ++ y :: b') ++ [z] := by simp
      obtain ⟨rfl, hx⟩ := List.append_inj' (hsplit.trans hassoc) rfl
      cases hx
      exact Or.inr ⟨a, y, b', rfl, hp⟩
  · rintro (hp | ⟨a, y, b, rfl, hp⟩)
    · exact ⟨l, x, [], rfl, hp⟩
    · exact ⟨a, y, b ++ [x], by simp, hp⟩

variable {lines : List (List UInt8)} {line : List UInt8}

theorem pending_concat : Pending (lines ++ [line]) ↔
    lineKind lines line = .comment ∨ Pending lines ∧ ¬ (lineKind lines line).takes := by
  rw [Pending, exists_split_concat (P := fun a y b => lineKind a y = .comment ∧
    ∀ d l t, b = d ++ l :: t → ¬ (lineKind (a ++ y :: d) l).takes)]
  constructor
  · rintro (⟨hkind, -⟩ | ⟨a, y, b, rfl, hkind, hrest⟩)
    · exact Or.inl hkind
    · refine Or.inr ⟨⟨a, y, b, rfl, hkind, fun d l t hsplit => ?_⟩, hrest b line [] rfl⟩
      exact hrest d l (t ++ [line]) (by rw [hsplit]; simp)
  · rintro (hkind | ⟨⟨a, y, b, rfl, hkind, hrest⟩, hlast⟩)
    · exact Or.inl ⟨hkind, fun d l t hsplit => by simp at hsplit⟩
    · refine Or.inr ⟨a, y, b, rfl, hkind, fun d l t hsplit => ?_⟩
      have hplace := (exists_split_concat (P := fun a' y' b' => a' = d ∧ y' = l ∧ b' = t)).mp
        ⟨d, l, t, hsplit, rfl, rfl, rfl⟩
      rcases hplace with ⟨rfl, rfl, -⟩ | ⟨_, _, t', hb, rfl, rfl, -⟩
      · exact hlast
      · exact hrest _ _ t' hb

theorem commented_concat (name : List UInt8) : Commented name (lines ++ [line]) ↔
    (lineKind lines line = .header name ∧ Pending lines) ∨ Commented name lines :=
  exists_split_concat (P := fun a y _ => lineKind a y = .header name ∧ Pending a)

theorem blankAssigned_concat (name : List UInt8) : BlankAssigned name (lines ++ [line]) ↔
    (currentSection lines = some name ∧ lineKind lines line = .assignment []) ∨
    BlankAssigned name lines :=
  exists_split_concat (P := fun a y _ => currentSection a = some name ∧
    lineKind a y = .assignment [])

/-! ## What a line is, for the reader -/

section LineKind

variable {done : List (List UInt8)}

theorem lineKind_nothing (h : firstValidChar line = 0) : lineKind done line = .nothing := by
  rw [lineKind, if_pos h]

theorem lineKind_header (hfirst : firstValidChar line = 91) (hclosed : 93 ∈ line) :
    lineKind done line = .header (format (sectionText line)) := by
  rw [lineKind, if_neg (by rw [hfirst]; decide), if_pos hfirst, header_eq hfirst hclosed]

theorem lineKind_open (hfirst : firstValidChar line = 91) (hopen : 93 ∉ line) :
    lineKind done line = .nothing := by
  rw [lineKind, if_neg (by rw [hfirst]; decide), if_pos hfirst, header_none fun h => hopen h.2]

theorem lineKind_comment (hzero : firstValidChar line ≠ 0) (hopen : firstValidChar line ≠ 91)
    (h : firstValidChar line = 35 ∨ firstValidChar line = 59 ∨ (currentSection done).getD [] = []) :
    lineKind done line = .comment := by
  rw [lineKind, if_neg hzero, if_neg hopen, if_pos h]

theorem lineKind_assignment (hzero : firstValidChar line ≠ 0) (hopen : firstValidChar line ≠ 91)
    (h : ¬ (firstValidChar line = 35 ∨ firstValidChar line = 59 ∨
      (currentSection done).getD [] = []))
    (heq : 61 ∈ line) :
    lineKind done line = .assignment (separateByFirstDelimiter line 61).1 := by
  rw [lineKind, if_neg hzero, if_neg hopen, if_neg h, if_pos heq, separateByFirstDelimiter,
    if_pos heq, normalise_eq]

theorem lineKind_words (hzero : firstValidChar line ≠ 0) (hopen : firstValidChar line ≠ 91)
    (h : ¬ (firstValidChar line = 35 ∨ firstValidChar line = 59 ∨
      (currentSection done).getD [] = []))
    (hne : 61 ∉ line) : lineKind done line = .words := by
  rw [lineKind, if_neg hzero, if_neg hopen, if_neg h, if_neg hne]

end LineKind

/-! ## What the chains hold -/

/-- The section has a comment. -/
def HasComment (c : CConfOpt) (name : List UInt8) : Prop :=
  ∃ s, c.searchSection name = some s ∧ s.comment ≠ []

/-- The section has a record with a blank name. -/
def HasBlank (c : CConfOpt) (name : List UInt8) : Prop :=
  ∃ s, c.searchSection name = some s ∧ ∃ r ∈ s.records, r.name = []

/-- The reader behind the lines `done`. -/
structure Tracks (done : List (List UInt8)) (r : Reader) : Prop where
  strSection : r.strSection = (currentSection done).getD []
  cSection : r.conf.cSection = currentSection done
  found : ∀ name, r.conf.cSection = some name → ∃ s, r.conf.searchSection name = some s
  pending : r.conf.chainComment ≠ [] ↔ Pending done
  commented : ∀ name, HasComment r.conf name ↔ Commented name done
  blank : ∀ name, HasBlank r.conf name ↔ BlankAssigned name done

/-- The comments and the records of the sections are the same. -/
def SameObjects (c c' : CConfOpt) : Prop :=
  c'.cSection = c.cSection ∧ c'.chainComment = c.chainComment ∧
    ∀ name, (c'.searchSection name).map (fun s => (s.comment, s.records)) =
      (c.searchSection name).map fun s => (s.comment, s.records)

theorem SameObjects.trans {c c' c'' : CConfOpt} (h : SameObjects c c') (h' : SameObjects c' c'') :
    SameObjects c c'' :=
  ⟨h'.1.trans h.1, h'.2.1.trans h.2.1, fun name => (h'.2.2 name).trans (h.2.2 name)⟩

/-- What is said of the comment and the records of a section is said of both. -/
theorem SameObjects.exists_iff {c c' : CConfOpt} (h : SameObjects c c')
    (P : List (List UInt8) → List CRecord → Prop) (name : List UInt8) :
    (∃ s, c'.searchSection name = some s ∧ P s.comment s.records) ↔
      ∃ s, c.searchSection name = some s ∧ P s.comment s.records := by
  have hsame := h.2.2 name
  cases hc : c.searchSection name with
  | none =>
    rw [hc, Option.map_none, Option.map_eq_none_iff] at hsame
    simp [hsame]
  | some s =>
    rw [hc, Option.map_some, Option.map_eq_some_iff] at hsame
    obtain ⟨s', hs', hpair⟩ := hsame
    obtain ⟨hcomment, hrecords⟩ := Prod.mk.inj hpair
    simp [hs', hcomment, hrecords]

theorem SameObjects.hasComment {c c' : CConfOpt} (h : SameObjects c c') (name : List UInt8) :
    HasComment c' name ↔ HasComment c name := h.exists_iff (fun comment _ => comment ≠ []) name

theorem SameObjects.hasBlank {c c' : CConfOpt} (h : SameObjects c c') (name : List UInt8) :
    HasBlank c' name ↔ HasBlank c name :=
      h.exists_iff (fun _ records => ∃ r ∈ records, r.name = []) name

theorem SameObjects.found {c c' : CConfOpt} (h : SameObjects c c') {name : List UInt8}
    (hs : ∃ s, c.searchSection name = some s) : ∃ s, c'.searchSection name = some s := by
  have hiff := h.exists_iff (fun _ _ => True) name
  simp only [and_true] at hiff
  exact hiff.mpr hs

theorem setEnumValue_objects (name value : List UInt8) {c c' : CConfOpt}
    (h : c.onSection (fun s => some (s.setEnumValue name value)) = some c') : SameObjects c c' := by
  have hkeeps : ∀ s s', some (CSection.setEnumValue name value s) = some s' → s'.name = s.name := by
    intro s s' hs
    cases hs
    exact (setEnumValue_same name value s).1
  obtain ⟨k, s, s', -, hsearch, hf, -, hall⟩ := searchSection_onSection hkeeps h
  refine ⟨onSection_cSection h, onSection_chainComment h, fun n => ?_⟩
  rw [hall]
  split
  · next heq =>
    cases hf
    have hcomment : (s.setEnumValue name value).comment = s.comment := by
      rw [CSection.setEnumValue]
      split <;> rfl
    rw [heq, hsearch, Option.map_some, Option.map_some, hcomment,
      (setEnumValue_same name value s).2]
  · rfl

/-- The words of a line change neither comments nor records. -/
theorem enumLoop_objects {strSection : List UInt8} {fuel pTemp : Nat} {r r' : Reader}
    (h : enumLoop strSection fuel pTemp r = some r') : SameObjects r.conf r'.conf := by
  induction fuel generalizing pTemp r with
  | zero => cases h
  | succ fuel ih =>
    obtain rfl | ⟨n, start, c, rest, conf, strValue, hfuel, -, -, -, -, -, hconf, hrest⟩ :=
      enumLoop_cases h
    · exact ⟨rfl, rfl, fun _ => rfl⟩
    · cases hfuel
      exact (setEnumValue_objects _ _ hconf).trans (ih hrest)

/-! ## One pass -/

section Step

variable {done : List (List UInt8)} {r r' : Reader}

/-- A pass that changes neither the comments, nor the records, nor the section. -/
theorem Tracks.keep (h : Tracks done r) (hheader : header line = none)
    (hkind : lineKind done line ≠ .comment) (htakes : ¬ (lineKind done line).takes)
    (hsec : r'.strSection = r.strSection) (hsame : SameObjects r.conf r'.conf) :
    Tracks (done ++ [line]) r' := by
  have hcurrent : currentSection (done ++ [line]) = currentSection done := by
    rw [currentSection_concat, hheader, Option.none_or]
  refine ⟨by rw [hsec, hcurrent, h.strSection], by rw [hsame.1, hcurrent, h.cSection],
    ?_, ?_, ?_, ?_⟩
  · intro name hname
    rw [hsame.1] at hname
    exact hsame.found (h.found name hname)
  · rw [hsame.2.1, h.pending, pending_concat]
    exact ⟨fun hp => Or.inr ⟨hp, htakes⟩, fun hp => (hp.resolve_left hkind).1⟩
  · intro name
    rw [hsame.hasComment, h.commented, commented_concat]
    refine ⟨Or.inr, fun hc => hc.resolve_left fun hnew => ?_⟩
    rw [hnew.1] at htakes
    exact htakes trivial
  · intro name
    rw [hsame.hasBlank, h.blank, blankAssigned_concat]
    refine ⟨Or.inr, fun hb => hb.resolve_left fun hnew => ?_⟩
    rw [hnew.2] at htakes
    exact htakes trivial

theorem Tracks.comment (h : Tracks done r) (hheader : header line = none)
    (hkind : lineKind done line = .comment) (hr : readComment line r = some r') :
    Tracks (done ++ [line]) r' := by
  have hcurrent : currentSection (done ++ [line]) = currentSection done := by
    rw [currentSection_concat, hheader, Option.none_or]
  cases hr
  refine ⟨by rw [hcurrent, ← h.strSection], by rw [hcurrent, ← h.cSection], h.found, ?_, ?_, ?_⟩
  · rw [pending_concat]
    refine ⟨fun _ => Or.inl hkind, fun _ => ?_⟩
    simp only
    split
    · exact List.cons_ne_nil _ _
    · next hne =>
      rw [pushText]
      split
      · exact hne
      · simp
  · intro name
    rw [commented_concat]
    refine ⟨fun hc => Or.inr ((h.commented name).mp hc), fun hc => (h.commented name).mpr ?_⟩
    refine hc.resolve_left fun hnew => ?_
    rw [hkind] at hnew
    cases hnew.1
  · intro name
    rw [blankAssigned_concat]
    refine ⟨fun hb => Or.inr ((h.blank name).mp hb), fun hb => (h.blank name).mpr ?_⟩
    refine hb.resolve_left fun hnew => ?_
    rw [hkind] at hnew
    cases hnew.2

/-- A section that is new has neither comments nor records. -/
theorem selectSection_objects (name n : List UInt8) (c : CConfOpt) :
    (HasComment (c.selectSection name) n ↔ HasComment c n) ∧
      (HasBlank (c.selectSection name) n ↔ HasBlank c n) := by
  rw [HasComment, HasBlank, searchSection_selectSection, HasComment, HasBlank]
  by_cases hk : name = n
  · subst hk
    cases c.searchSection name <;> simp [newSection]
  · simp [hk]

/-- Behind a change of `m_cSection`, for every property of sections. -/
theorem onSection_exists {f : CSection → Option CSection} {c c' : CConfOpt} {k : List UInt8}
    {s : CSection} (hf : ∀ s s', f s = some s' → s'.name = s.name) (hc : c.cSection = some k)
    (hs : c.searchSection k = some s) (h : c.onSection f = some c') :
    ∃ s', f s = some s' ∧ c'.searchSection k = some s' ∧ ∀ (P : CSection → Prop) name,
      (∃ t, c'.searchSection name = some t ∧ P t) ↔
        (name = k ∧ P s') ∨ (name ≠ k ∧ ∃ t, c.searchSection name = some t ∧ P t) := by
  obtain ⟨k', s₁, s', hk', hs₁, hfs, -, hall⟩ := searchSection_onSection hf h
  rw [hc] at hk'
  cases hk'
  rw [hs] at hs₁
  cases hs₁
  refine ⟨s', hfs, by rw [hall, if_pos rfl], fun P name => ?_⟩
  rw [hall]
  by_cases hname : name = k
  · simp [hname]
  · simp [hname]

theorem setComment_comment {comment : List (List UInt8)} {s s' : CSection}
    (h : s.setComment comment = some s') : s'.comment ≠ [] ↔ s.comment ≠ [] ∨ comment ≠ [] := by
  obtain ⟨chain, rfl, ⟨hnil, rfl⟩ | ⟨hne, hpush⟩⟩ := setComment_cases h
  · simp [hnil]
  · simp only [hne, not_false_eq_true, ne_eq, true_or, iff_true]
    cases comment with
    | nil => cases hpush
    | cons first rest =>
      rw [pushChain] at hpush
      cases hpush
      split
      · exact hne
      · simp

theorem Tracks.section (h : Tracks done r) (hfirst : firstValidChar line = 91)
    (hr : readSection line r = some r') : Tracks (done ++ [line]) r' := by
  rcases readSection_cases hr with ⟨hopen, rfl⟩ | ⟨hclosed, conf, hconf, rfl⟩
  · have hkind : lineKind done line = .nothing := lineKind_open hfirst hopen
    refine h.keep (header_none fun hall => hopen hall.2) ?_ ?_ rfl ⟨rfl, rfl, fun _ => rfl⟩
    · rw [hkind]
      exact fun heq => (by cases heq)
    · rw [hkind]
      exact fun htakes => htakes
  · have hkind : lineKind done line = .header (format (sectionText line)) :=
      lineKind_header hfirst hclosed
    have hheader := header_eq hfirst hclosed
    generalize format (sectionText line) = name at *
    have hcurrent : currentSection (done ++ [line]) = some name := by
      rw [currentSection_concat, hheader, Option.some_or]
    obtain ⟨s, hs⟩ := selectSection_search name r.conf
    obtain ⟨s', hset, hs', hall⟩ := onSection_exists (fun s s' hset => (setComment_same hset).1)
      (selectSection_cSection name r.conf) hs hconf
    have hold : (s.comment ≠ [] ↔ Commented name done) ∧ ((∃ rec ∈ s.records, rec.name = []) ↔
        BlankAssigned name done) := by
      have hobjects := selectSection_objects name name r.conf
      rw [h.commented, h.blank, HasComment, HasBlank, hs] at hobjects
      simpa using hobjects
    have hchain : r.conf.chainComment ≠ [] ↔ Pending done := h.pending
    refine ⟨by rw [hcurrent, Option.getD_some], ?_, ?_, ?_, fun n => ?_, fun n => ?_⟩
    · change conf.cSection = _
      rw [hcurrent, onSection_cSection hconf, selectSection_cSection]
    · intro n hn
      have hn' : conf.cSection = some n := hn
      rw [onSection_cSection hconf, selectSection_cSection] at hn'
      cases hn'
      exact ⟨s', hs'⟩
    · rw [pending_concat, hkind]
      simp [LineKind.takes]
    · have hnew := hall (fun t => t.comment ≠ []) n
      have hother := (selectSection_objects name n r.conf).1
      rw [h.commented] at hother
      rw [commented_concat, hkind]
      change HasComment conf n ↔ _
      refine hnew.trans ?_
      rw [setComment_comment hset, hold.1, hchain]
      by_cases hn : n = name
      · subst hn
        simp [or_comm]
      · have hne : ¬ LineKind.header name = LineKind.header n := fun heq => hn (by cases heq; rfl)
        simp only [hn, hne, false_and, false_or, not_false_eq_true, true_and, ne_eq]
        exact hother
    · have hnew := hall (fun t => ∃ rec ∈ t.records, rec.name = []) n
      have hother := (selectSection_objects name n r.conf).2
      rw [h.blank] at hother
      rw [blankAssigned_concat, hkind]
      change HasBlank conf n ↔ _
      refine hnew.trans ?_
      rw [(setComment_same hset).2, hold.2]
      by_cases hn : n = name
      · subst hn
        simp
      · simp only [hn, false_and, false_or, not_false_eq_true, true_and, ne_eq,
          and_false, reduceCtorEq]
        exact hother

/-- `SetValue` leaves the comment of its section alone, and stores under its name. -/
theorem setValue_objects {k recordName value : List UInt8} {comment : List (List UInt8)}
    {s s' : CSection} (h : s.setValue k recordName value comment = some s') (hk : s.name = k) :
    s'.comment = s.comment ∧ ((∃ rec ∈ s'.records, rec.name = []) ↔
      recordName = [] ∨ ∃ rec ∈ s.records, rec.name = []) := by
  cases setValue_cases h with
  | otherSection hother => exact absurd hk hother
  | changed _ hne =>
    refine ⟨rfl, ?_⟩
    have hnames := Keyed.map_key_modify CRecord.name (k := recordName)
      (g := fun rec => CRecord.setComment comment (rec.setValue recordName value))
      (fun rec hrec => by simpa using hrec) s.records
    have hmem : ∀ l : List CRecord, (∃ rec ∈ l, rec.name = []) ↔ [] ∈ l.map CRecord.name := by simp
    simp only [hmem, hnames, hne, false_or]
  | inserted =>
    refine ⟨rfl, (Keyed.exists_key_insert CRecord.name _ s.records []).trans ?_⟩
    rw [setComment_name, newRecord_name]

theorem Tracks.record (h : Tracks done r) (hzero : firstValidChar line ≠ 0)
    (hopen : firstValidChar line ≠ 91)
    (hcomment : ¬ (firstValidChar line = 35 ∨ firstValidChar line = 59 ∨
      (currentSection done).getD [] = []))
    (heq : 61 ∈ line) (hr : readRecord line r = some r') : Tracks (done ++ [line]) r' := by
  have hkind := lineKind_assignment hzero hopen hcomment heq
  have hheader : header line = none := header_none fun hall => hopen hall.1
  have hcurrent : currentSection (done ++ [line]) = currentSection done := by
    rw [currentSection_concat, hheader, Option.none_or]
  rw [readRecord] at hr
  obtain ⟨conf, hconf, rfl⟩ := Option.map_eq_some_iff.mp hr
  generalize separateByFirstDelimiter line 61 = parts at *
  cases hcur : currentSection done with
  | none => simp [hcur] at hcomment
  | some k =>
    have hc : r.conf.cSection = some k := by rw [h.cSection, hcur]
    have hsec : r.strSection = k := by rw [h.strSection, hcur, Option.getD_some]
    obtain ⟨s, hs⟩ := h.found k hc
    have hname : s.name = k := (Keyed.lookup_mem _ hs).2
    obtain ⟨s', hset, hs', hall⟩ :=
      onSection_exists (fun t t' hset => setValue_section hset) hc hs hconf
    obtain ⟨hsame, hblank⟩ := setValue_objects hset (hname.trans hsec.symm)
    have hold : (s.comment ≠ [] ↔ Commented k done) ∧ ((∃ rec ∈ s.records, rec.name = []) ↔
        BlankAssigned k done) := by
      rw [← h.commented, ← h.blank, HasComment, HasBlank, hs]
      simp
    refine ⟨by rw [hcurrent, ← h.strSection], ?_, ?_, ?_, fun n => ?_, fun n => ?_⟩
    · change conf.cSection = _
      rw [hcurrent, onSection_cSection hconf, h.cSection]
    · intro n hn
      have hn' : conf.cSection = some n := hn
      rw [onSection_cSection hconf, hc] at hn'
      cases hn'
      exact ⟨s', hs'⟩
    · rw [pending_concat, hkind]
      simp [LineKind.takes]
    · have hother := h.commented n
      rw [commented_concat, hkind]
      change HasComment conf n ↔ _
      refine (hall (fun t => t.comment ≠ []) n).trans ?_
      rw [hsame, hold.1]
      by_cases hn : n = k
      · subst hn
        simp
      · simp only [hn, false_and, false_or, not_false_eq_true, true_and, ne_eq, reduceCtorEq]
        exact hother
    · have hother := h.blank n
      rw [blankAssigned_concat, hkind, hcur]
      change HasBlank conf n ↔ _
      refine (hall (fun t => ∃ rec ∈ t.records, rec.name = []) n).trans ?_
      rw [hblank, hold.2]
      by_cases hn : n = k
      · subst hn
        simp
      · have hne : ¬ some k = some n := fun hk => hn (Option.some.inj hk).symm
        simp only [hn, hne, false_and, false_or, not_false_eq_true, true_and, ne_eq]
        exact hother

/-- One pass, and the line it was for. -/
theorem Tracks.step (h : Tracks done r) (hr : readLine r line = some r') :
    Tracks (done ++ [lineText line]) r' := by
  have hbuf : Tracks done { r with strBuf := putString r.strBuf line } :=
    ⟨h.strSection, h.cSection, h.found, h.pending, h.commented, h.blank⟩
  have hpass := readLine_pass hr
  generalize lineText line = text at *
  have hheader : firstValidChar text ≠ 91 → header text = none :=
    fun hopen => header_none fun hall => hopen hall.1
  -- the line is none of the comments
  have hcomment : firstValidChar text ∉ [0, 91, 35, 59] → r.strSection ≠ [] →
      ¬ (firstValidChar text = 35 ∨ firstValidChar text = 59 ∨
        (currentSection done).getD [] = []) := by
    intro hfirst hne hall
    rcases hall with hc | hc | hc
    · exact hfirst (by simp [hc])
    · exact hfirst (by simp [hc])
    · exact hne (h.strSection.trans hc)
  cases hpass with
  | blank hzero =>
    have hkind : lineKind done text = .nothing := lineKind_nothing hzero
    refine hbuf.keep (hheader (by rw [hzero]; decide)) ?_ ?_ rfl ⟨rfl, rfl, fun _ => rfl⟩
    · rw [hkind]
      exact fun heq => (by cases heq)
    · rw [hkind]
      exact fun htakes => htakes
  | header hfirst hsection => exact hbuf.section hfirst hsection
  | comment hzero hopen hfirst hread =>
    have hstr : firstValidChar text = 35 ∨ firstValidChar text = 59 ∨
        (currentSection done).getD [] = [] := by
      rw [← h.strSection]
      exact hfirst
    exact hbuf.comment (hheader hopen) (lineKind_comment hzero hopen hstr) hread
  | nowhere _ hne hnull =>
    have hstr : r.strSection = [] := by
      rw [h.strSection, ← h.cSection]
      exact congrArg (Option.getD · []) hnull
    exact absurd hstr hne
  | record hfirst hne heq hread =>
    exact hbuf.record (fun hzero => hfirst (by simp [hzero]))
      (fun hopen => hfirst (by simp [hopen]))
      (hcomment hfirst hne) heq hread
  | words hfirst hne hno hloop =>
    have hopen : firstValidChar text ≠ 91 := fun hopen => hfirst (by simp [hopen])
    have hkind : lineKind done text = .words :=
      lineKind_words (fun hzero => hfirst (by simp [hzero])) hopen (hcomment hfirst hne) hno
    refine hbuf.keep (hheader hopen) ?_ ?_ (enumLoop_same hloop).1
      ((enumLoop_objects hloop).trans ⟨rfl, rfl, fun _ => rfl⟩)
    · rw [hkind]
      exact fun heq => (by cases heq)
    · rw [hkind]
      exact fun htakes => htakes

end Step

/-- All lines. -/
theorem readLines_tracks {done : List (List UInt8)} {r r' : Reader} (h : Tracks done r)
    (hr : readLines lines r = some r') : Tracks (done ++ lines.map lineText) r' := by
  induction lines generalizing done r with
  | nil =>
    cases hr
    rwa [List.map_nil, List.append_nil]
  | cons line lines ih =>
    rw [readLines, List.foldlM_cons] at hr
    cases hline : readLine r line with
    | none => simp [hline] at hr
    | some r₁ =>
      rw [hline] at hr
      have hrest := ih (h.step hline) hr
      rwa [List.append_assoc] at hrest

/-! ## What a pass uses -/

/-- All objects are there. -/
def AllLive (uses : List Use) : Prop := ∀ u ∈ uses, u.pointer = .live

theorem allLive_nil : AllLive [] := by simp [AllLive]

theorem allLive_walk (kind : Kind) (n : Nat) : AllLive (walk kind n) := by
  intro u hu
  rw [List.eq_of_mem_replicate hu]

theorem allLive_cons (u : Use) (uses : List Use) :
    AllLive (u :: uses) ↔ u.pointer = .live ∧ AllLive uses := by
  simp [AllLive]

theorem allLive_append (us vs : List Use) : AllLive (us ++ vs) ↔ AllLive us ∧ AllLive vs := by
  simp [AllLive, or_imp, forall_and]

/-- `CComment::Push` looks at the comment it is given. -/
theorem pushChainUses_live (chain comment : List (List UInt8)) :
    AllLive (pushChainUses chain comment) ↔ comment ≠ [] := by
  rw [pushChainUses, allLive_append, allLive_cons, commentPointer]
  by_cases hnil : comment = []
  · simp [hnil]
  · simp [hnil, allLive_walk, allLive_nil]

theorem sectionSetCommentUses_live (comment : List (List UInt8)) (s : CSection) :
    AllLive (sectionSetCommentUses comment s) ↔ (s.comment ≠ [] → comment ≠ []) := by
  rw [sectionSetCommentUses]
  split
  · next hnil => simp [hnil, allLive_nil]
  · next hne => simp [hne, pushChainUses_live]

theorem recordSetCommentUses_live (record : Pointer) (comment : List (List UInt8)) (r : CRecord) :
    AllLive (recordSetCommentUses record comment r) ↔ record = .live := by
  rw [recordSetCommentUses, allLive_cons, and_iff_left_iff_imp]
  intro _
  split
  · exact allLive_nil
  · next hne =>
    split
    · exact allLive_nil
    · exact (pushChainUses_live _ _).mpr hne

theorem pushedPointer_live (rejected : Bool) :
    pushedPointer rejected = .live ↔ rejected = false := by
  cases rejected <;> simp [pushedPointer]

/-- Only a blank name is looked for in vain and rejected all the same. -/
theorem setValueUses_live {k : List UInt8} (recordName value : List UInt8)
    (comment : List (List UInt8)) {s : CSection} (hk : s.name = k) :
    AllLive (setValueUses k recordName value comment s) ↔
      ¬ (recordName = [] ∧ ∃ rec ∈ s.records, rec.name = []) := by
  rw [setValueUses, if_neg (by simp [hk]), allLive_append, and_iff_right (allLive_walk _ _)]
  split
  · next found hfound =>
    have hne : recordName ≠ [] := by
      rintro rfl
      rw [CSection.searchRecord, if_pos rfl] at hfound
      cases hfound
    simp [hne, allLive_cons, recordSetCommentUses_live]
  · next hnone =>
    rw [recordSetCommentUses_live, pushedPointer_live]
    by_cases hnil : recordName = []
    · simp [hnil]
    · rw [CSection.searchRecord, if_neg hnil, Keyed.lookup_eq_none] at hnone
      simpa [hnil] using hnone

theorem selectSectionUses_live (name : List UInt8) (c : CConfOpt) :
    AllLive (selectSectionUses name c) := by
  rw [selectSectionUses, allLive_append]
  refine ⟨allLive_walk _ _, ?_⟩
  split
  · exact allLive_nil
  · next hnew =>
    rw [Option.not_isSome_iff_eq_none, CConfOpt.searchSection, Keyed.lookup_eq_none] at hnew
    rw [allLive_cons, pushedPointer_live]
    exact ⟨by simpa using hnew, allLive_nil⟩

theorem onSectionUses_live {uses : CSection → List Use} {c : CConfOpt} {k : List UInt8}
    {s : CSection} (hc : c.cSection = some k) (hs : c.searchSection k = some s) :
    AllLive (onSectionUses uses c) ↔ AllLive (uses s) := by
  rw [onSectionUses, hc, Option.bind_some, hs]
  simp [allLive_cons]

section Uses

variable {done : List (List UInt8)} {r : Reader}

theorem bad_header {name : List UInt8} (hkind : lineKind done line = .header name) :
    Bad done line ↔ Commented name done ∧ ¬ Pending done := by
  rw [Bad, hkind]
  constructor
  · rintro (⟨n, hn, hbad⟩ | ⟨n, -, hn, -⟩)
    · cases hn
      exact hbad
    · cases hn
  · exact fun hbad => Or.inl ⟨name, rfl, hbad⟩

theorem bad_assignment {k name : List UInt8} (hcur : currentSection done = some k)
    (hkind : lineKind done line = .assignment name) :
    Bad done line ↔ name = [] ∧ BlankAssigned k done := by
  rw [Bad, hkind, hcur]
  constructor
  · rintro (⟨n, hn, -⟩ | ⟨n, hk, hn, hbad⟩)
    · cases hn
    · cases hk
      cases hn
      exact ⟨rfl, hbad⟩
  · rintro ⟨rfl, hbad⟩
    exact Or.inr ⟨k, rfl, rfl, hbad⟩

theorem not_bad (h : ¬ (lineKind done line).takes) : ¬ Bad done line := by
  rintro (⟨name, hkind, -⟩ | ⟨-, -, hkind, -⟩)
  · rw [hkind] at h
    exact h trivial
  · rw [hkind] at h
    exact h trivial

/-- What a pass uses is there, unless the line is a bad one. -/
theorem Tracks.uses (h : Tracks done r) (line : List UInt8) :
    AllLive (lineUses r line) ↔ ¬ Bad done (lineText line) := by
  rw [lineUses]
  simp only
  generalize lineText line = text
  have hidle : ∀ {kind}, lineKind done text = kind → ¬ kind.takes → ¬ Bad done text := by
    rintro kind rfl hno
    exact not_bad hno
  split
  · next hzero => exact iff_of_true allLive_nil (hidle (lineKind_nothing hzero) id)
  · next hzero =>
    split
    · next hfirst =>
      split
      · next hclosed =>
        rw [bad_header (lineKind_header hfirst hclosed)]
        generalize format (sectionText text) = name
        obtain ⟨s, hs⟩ := selectSection_search name r.conf
        have hold : s.comment ≠ [] ↔ Commented name done := by
          have hobjects := (selectSection_objects name name r.conf).1
          rw [h.commented, HasComment, hs] at hobjects
          simpa using hobjects
        rw [allLive_append, and_iff_right (selectSectionUses_live _ _),
          onSectionUses_live (selectSection_cSection name r.conf) hs,
          sectionSetCommentUses_live, hold, h.pending,
          not_and_not_right]
      · next hopen => exact iff_of_true allLive_nil (hidle (lineKind_open hfirst hopen) id)
    · next hopen =>
      split
      · next hcomment =>
        rw [h.strSection] at hcomment
        exact iff_of_true (allLive_walk _ _) (hidle (lineKind_comment hzero hopen hcomment) id)
      · next hcomment =>
        rw [h.strSection] at hcomment
        cases hcur : currentSection done with
        | none => simp [hcur] at hcomment
        | some k =>
          have hc : r.conf.cSection = some k := by rw [h.cSection, hcur]
          have hsec : r.strSection = k := by rw [h.strSection, hcur, Option.getD_some]
          obtain ⟨s, hs⟩ := h.found k hc
          have hname : s.name = k := (Keyed.lookup_mem _ hs).2
          rw [if_neg (by rw [hc]; exact Option.some_ne_none k)]
          split
          · next heq =>
            have hblank : (∃ rec ∈ s.records, rec.name = []) ↔ BlankAssigned k done := by
              rw [← h.blank, HasBlank, hs]
              simp
            rw [bad_assignment hcur (lineKind_assignment hzero hopen hcomment heq),
              onSectionUses_live hc hs, setValueUses_live _ _ _ (hname.trans hsec.symm), hblank]
          · next hne =>
            rw [onSectionUses_live hc hs]
            exact iff_of_true allLive_nil (hidle (lineKind_words hzero hopen hcomment hne) id)

end Uses

theorem tracks_start (junk : List UInt8) : Tracks [] (start junk) := by
  have hnone : ∀ name, (start junk).conf.searchSection name = none := fun name => rfl
  refine ⟨rfl, rfl, fun name hname => (by cases hname), ?_, fun name => ?_, fun name => ?_⟩
  · exact iff_of_false (fun hne => hne rfl) fun ⟨_, _, _, hsplit, _⟩ => by simp at hsplit
  · refine iff_of_false ?_ fun ⟨_, _, _, hsplit, _⟩ => by simp at hsplit
    rintro ⟨s, hs, -⟩
    rw [hnone] at hs
    cases hs
  · refine iff_of_false ?_ fun ⟨_, _, _, hsplit, _⟩ => by simp at hsplit
    rintro ⟨s, hs, -⟩
    rw [hnone] at hs
    cases hs

/-- A text is loaded safely exactly when no line that is come to is a bad one. -/
theorem loading_safe_iff (junk text : List UInt8)
    (hlines : ∀ l ∈ splitLines [] text, l.length ≤ 254) :
    LoadsSafely junk text ↔ ∀ done line todo, splitLines [] text = done ++ line :: todo →
      (∃ r, readLines done (start junk) = some r) → ¬ Bad (done.map lineText) (lineText line) := by
  rw [LoadsSafely, fgetsAll_eq [] text hlines]
  constructor
  · rintro hsafe done line todo hsplit ⟨r, hr⟩
    have htracks := readLines_tracks (tracks_start junk) hr
    rw [List.nil_append] at htracks
    exact (htracks.uses line).mp (hsafe done line todo r hsplit hr)
  · intro hgood done line todo r hsplit hr
    have htracks := readLines_tracks (tracks_start junk) hr
    rw [List.nil_append] at htracks
    exact (htracks.uses line).mpr (hgood done line todo hsplit ⟨r, hr⟩)

/-! ## One section -/

/-- `#c` -/
def commentLine : List UInt8 := [35, 99, 10]

/-- `[s]` -/
def headerLine : List UInt8 := [91, 115, 93, 10]

/-- `a=b` -/
def assignmentLine : List UInt8 := [97, 61, 98, 10]

theorem pending_comment : Pending [commentLine] :=
  ⟨[], commentLine, [], rfl, by decide, fun d l t hsplit => by simp at hsplit⟩

/-- A comment, a header, and an assignment. -/
theorem one_section_safe : LoadsSafely [] (commentLine ++ headerLine ++ assignmentLine) := by
  refine (loading_safe_iff [] _ (by decide)).mpr fun done line todo hsplit _ => ?_
  have hlines : splitLines [] (commentLine ++ headerLine ++ assignmentLine) =
      [commentLine, headerLine, assignmentLine] := by decide
  rw [hlines] at hsplit
  match done, hsplit with
  | [], hsplit =>
    cases hsplit
    have hkind : lineKind [] commentLine = .comment := by decide
    exact not_bad
      (by rw [List.map_nil, show lineText commentLine = commentLine by decide, hkind]; exact id)
  | [_], hsplit =>
    cases hsplit
    have hkind : lineKind [commentLine] headerLine = .header [115] := by decide
    exact fun hbad => ((bad_header hkind).mp hbad).2 pending_comment
  | [_, _], hsplit =>
    cases hsplit
    have hkind : lineKind [commentLine, headerLine] assignmentLine = .assignment [97] := by decide
    have hcur : currentSection [commentLine, headerLine] = some [115] := by decide
    exact fun hbad => absurd ((bad_assignment hcur hkind).mp hbad).1 (by decide)
  | _ :: _ :: _ :: done, hsplit => simp at hsplit

/-- The claim for all texts. -/
def LoadingSafe : Prop :=
  ∀ junk text, (∀ l ∈ splitLines [] text, l.length ≤ 254) → LoadsSafely junk text

/-- The section of a comment is met again: `CComment::Push(NULL)`. -/
theorem loading_not_safe : ¬ LoadingSafe := by
  intro hall
  have hlines : fgetsAll [] (commentLine ++ headerLine ++ headerLine) =
      [commentLine, headerLine] ++ headerLine :: [] := by decide
  obtain ⟨r, hr⟩ : ∃ r, readLines [commentLine, headerLine] (start []) = some r :=
    Option.isSome_iff_exists.mp (by decide)
  have hlive := hall [] (commentLine ++ headerLine ++ headerLine) (by decide) _ _ _ r hlines hr
  have htracks : Tracks [commentLine, headerLine] r := readLines_tracks (tracks_start []) hr
  have hkind : lineKind [commentLine] headerLine = .header [115] := by decide
  have hagain : lineKind [commentLine, headerLine] headerLine = .header [115] := by decide
  refine (htracks.uses headerLine).mp hlive ((bad_header hagain).mpr ⟨?_, ?_⟩)
  · exact ⟨[commentLine], headerLine, [], rfl, hkind, pending_comment⟩
  · intro hpending
    have hsplit : Pending ([commentLine] ++ [headerLine]) := hpending
    rw [pending_concat, hkind] at hsplit
    simp [LineKind.takes] at hsplit

end NetmtIniObjects
