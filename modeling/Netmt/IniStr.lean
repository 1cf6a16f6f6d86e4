import Mathlib.Data.List.DropRight

/-!
# Strings of the configuration parser

`inistropt.cpp`, on the bytes before the NUL. A blank string trims to the empty
string.
-/
namespace NetmtIniStr

/-- `IS_DELIMITER`: blank, tab, line feed, carriage return. -/
def isDelimiter (c : UInt8) : Bool := c = 32 || c = 9 || c = 10 || c = 13

/-- `isspace`, which `sscanf` goes by: vertical tab and form feed as well. -/
def isSpace (c : UInt8) : Bool := isDelimiter c || c = 11 || c = 12

/-- The first word, as `sscanf` reads it with `%s`. -/
def firstWord (s : List UInt8) : List UInt8 := (s.dropWhile isSpace).takeWhile fun c => !isSpace c

/-- 0 for a blank string. -/
def firstValidChar (s : List UInt8) : UInt8 := (s.dropWhile isDelimiter).headD 0

def leftTrim (s : List UInt8) : List UInt8 := s.dropWhile isDelimiter

def rightTrim (s : List UInt8) : List UInt8 := s.rdropWhile isDelimiter

/-- The loop of `Format`; `nFlag` is set behind a delimiter. -/
def squeeze : Bool → List UInt8 → List UInt8
  | _, [] => []
  | nFlag, c :: s =>
    if isDelimiter c then (if nFlag then squeeze true s else c :: squeeze true s)
    else c :: squeeze false s

/-- `Format` in place. -/
def format (s : List UInt8) : List UInt8 := squeeze false (leftTrim (rightTrim s))

/-- `Format` into a second buffer, which trims the right end last. -/
def formatTo (s : List UInt8) : List UInt8 := rightTrim (squeeze false (leftTrim s))

/-- Both parts formatted, for a string that is not empty. -/
def separateByFirstDelimiter (src : List UInt8) (delimiter : UInt8) : List UInt8 × List UInt8 :=
  if delimiter ∈ src then
    (format (src.takeWhile (· ≠ delimiter)), format ((src.dropWhile (· ≠ delimiter)).drop 1))
  else (format src, [])

/-! ## Trimming -/

/-- Nothing but delimiters. -/
def Blank (s : List UInt8) : Prop := ∀ c ∈ s, isDelimiter c = true

/-- No delimiter at either end. -/
structure Trimmed (s : List UInt8) : Prop where
  left : ∀ c, s.head? = some c → isDelimiter c = false
  right : ∀ c, s.getLast? = some c → isDelimiter c = false

theorem trimmed_nil : Trimmed [] := ⟨by simp, by simp⟩

theorem blank_nil : Blank [] := by simp [Blank]

theorem blank_singleton {c : UInt8} (h : isDelimiter c = true) : Blank [c] := by
  intro d hd
  rw [List.mem_singleton.mp hd]
  exact h

theorem Blank.append {s t : List UInt8} (hs : Blank s) (ht : Blank t) : Blank (s ++ t) :=
  fun c hc => (List.mem_append.mp hc).elim (hs c) (ht c)

theorem Blank.not_mem {s : List UInt8} (h : Blank s) {c : UInt8} (hc : isDelimiter c = false) :
    c ∉ s := by
  intro hmem
  rw [h c hmem] at hc
  cases hc

/-- What a scan for the byte `b` goes over. -/
theorem scan_ne {b : UInt8} {s : List UInt8} (h : b ∉ s) : ∀ c ∈ s, decide (c ≠ b) = true := by
  intro c hc
  rw [decide_eq_true_iff]
  exact ne_of_mem_of_not_mem hc h

theorem leftTrim_pad {pre : List UInt8} (h : Blank pre) (s : List UInt8) :
    leftTrim (pre ++ s) = leftTrim s := by
  rw [leftTrim, List.dropWhile_append_of_pos h, leftTrim]

theorem rightTrim_pad {post : List UInt8} (h : Blank post) (s : List UInt8) :
    rightTrim (s ++ post) = rightTrim s := by
  rw [rightTrim, rightTrim, List.rdropWhile, List.reverse_append,
    List.dropWhile_append_of_pos fun c hc => h c (List.mem_reverse.mp hc), List.rdropWhile]

theorem leftTrim_cons {c : UInt8} (h : isDelimiter c = false) (s : List UInt8) :
    leftTrim (c :: s) = c :: s := by
  rw [leftTrim, List.dropWhile_cons_of_neg (by simp [h])]

theorem rightTrim_concat {c : UInt8} (h : isDelimiter c = false) (s : List UInt8) :
    rightTrim (s ++ [c]) = s ++ [c] := by
  rw [rightTrim, List.rdropWhile_concat_neg _ _ _ (by simp [h])]

theorem leftTrim_blank {s : List UInt8} (h : Blank s) : leftTrim s = [] := by
  rw [← List.append_nil s, leftTrim_pad h]
  rfl

theorem rightTrim_blank {s : List UInt8} (h : Blank s) : rightTrim s = [] := by
  rw [← List.nil_append s, rightTrim_pad h]
  rfl

/-- A trimmed string that is not empty, at its two ends. -/
theorem Trimmed.ends {s : List UInt8} (h : Trimmed s) (hs : s ≠ []) :
    (∃ c t, s = c :: t ∧ isDelimiter c = false) ∧ ∃ t c, s = t ++ [c] ∧ isDelimiter c = false := by
  constructor
  · cases s with
    | nil => exact absurd rfl hs
    | cons c t => exact ⟨c, t, rfl, h.left c rfl⟩
  · obtain ⟨t, c, hlast⟩ := (List.eq_nil_or_concat s).resolve_left hs
    rw [List.concat_eq_append] at hlast
    exact ⟨t, c, hlast, h.right c (by rw [hlast]; simp)⟩

theorem Trimmed.leftTrim {s : List UInt8} (h : Trimmed s) : leftTrim s = s := by
  by_cases hs : s = []
  · rw [hs]
    rfl
  · obtain ⟨⟨c, t, rfl, hc⟩, -⟩ := h.ends hs
    exact leftTrim_cons hc t

theorem Trimmed.rightTrim {s : List UInt8} (h : Trimmed s) : rightTrim s = s := by
  by_cases hs : s = []
  · rw [hs]
    rfl
  · obtain ⟨-, t, c, rfl, hc⟩ := h.ends hs
    exact rightTrim_concat hc t

/-- Every string is a trimmed one between blanks. -/
theorem exists_trimmed (s : List UInt8) : ∃ pre core post, s = pre ++ core ++ post ∧ Blank pre ∧
    Trimmed core ∧ Blank post := by
  have hsplit : s.takeWhile isDelimiter ++ s.dropWhile isDelimiter = s :=
    List.takeWhile_append_dropWhile
  have hblank : Blank (s.takeWhile isDelimiter) := fun c hc => List.mem_takeWhile_imp hc
  have hhead : ∀ c, (s.dropWhile isDelimiter).head? = some c → isDelimiter c = false := by
    intro c hc
    have hnot := List.head?_dropWhile_not isDelimiter s
    rwa [hc] at hnot
  generalize s.dropWhile isDelimiter = rest at *
  refine ⟨_, rest.rdropWhile isDelimiter, rest.rtakeWhile isDelimiter, ?_, hblank, ⟨?_, ?_⟩, ?_⟩
  · rw [List.append_assoc, List.rdropWhile_append_rtakeWhile, hsplit]
  · intro c hc
    apply hhead c
    obtain ⟨t, ht⟩ := List.rdropWhile_prefix isDelimiter (l := rest)
    rw [← ht, List.head?_append, hc, Option.some_or]
  · intro c hc
    have hne : rest.rdropWhile isDelimiter ≠ [] := by
      intro hnil
      rw [hnil] at hc
      cases hc
    have hlast := List.rdropWhile_last_not isDelimiter rest hne
    rw [List.getLast?_eq_some_getLast hne, Option.some.injEq] at hc
    rw [hc] at hlast
    simpa using hlast
  · exact fun c hc => List.mem_rtakeWhile_imp hc

/-- Both trims of a padded string. -/
theorem trim_pad {pre core post : List UInt8} (hpre : Blank pre) (hcore : Trimmed core)
    (hpost : Blank post) : leftTrim (rightTrim (pre ++ core ++ post)) = core := by
  rw [rightTrim_pad hpost]
  by_cases hs : core = []
  · rw [hs, List.append_nil, rightTrim_blank hpre]
    rfl
  · obtain ⟨-, t, c, hlast, hc⟩ := hcore.ends hs
    have hright : rightTrim (pre ++ core) = pre ++ core := by
      rw [hlast, ← List.append_assoc]
      exact rightTrim_concat hc _
    rw [hright, leftTrim_pad hpre, hcore.leftTrim]

theorem trimmed_trim (s : List UInt8) : Trimmed (leftTrim (rightTrim s)) := by
  obtain ⟨pre, core, post, rfl, hpre, hcore, hpost⟩ := exists_trimmed s
  rwa [trim_pad hpre hcore hpost]

/-- The first valid character, with what is in front of it. -/
theorem firstValidChar_split {s : List UInt8} (h : firstValidChar s ≠ 0) :
    ∃ pre rest, s = pre ++ firstValidChar s :: rest ∧ Blank pre ∧
      isDelimiter (firstValidChar s) = false := by
  have hsplit : s.takeWhile isDelimiter ++ s.dropWhile isDelimiter = s :=
    List.takeWhile_append_dropWhile
  have hnot := List.head?_dropWhile_not isDelimiter s
  have hblank : Blank (s.takeWhile isDelimiter) := fun c hc => List.mem_takeWhile_imp hc
  rw [firstValidChar] at h ⊢
  cases hrest : s.dropWhile isDelimiter with
  | nil =>
    rw [hrest] at h
    exact absurd rfl h
  | cons c rest =>
    rw [hrest] at hsplit hnot
    exact ⟨_, rest, hsplit.symm, hblank, hnot⟩

theorem firstValidChar_pad {pre : List UInt8} (hpre : Blank pre) {c : UInt8}
    (hc : isDelimiter c = false) (rest : List UInt8) : firstValidChar (pre ++ c :: rest) = c := by
  have htrim := leftTrim_pad hpre (c :: rest)
  rw [leftTrim_cons hc, leftTrim] at htrim
  rw [firstValidChar, htrim, List.headD_cons]

theorem firstValidChar_blank {s : List UInt8} (h : Blank s) : firstValidChar s = 0 := by
  have htrim := leftTrim_blank h
  rw [leftTrim] at htrim
  rw [firstValidChar, htrim, List.headD_nil]

/-- A string without NUL bytes where no valid character is found. -/
theorem blank_of_firstValidChar {s : List UInt8} (hnul : 0 ∉ s) (h : firstValidChar s = 0) :
    Blank s := by
  by_contra hnot
  have hne : s.dropWhile isDelimiter ≠ [] := fun hnil => hnot (List.dropWhile_eq_nil_iff.mp hnil)
  rw [firstValidChar, List.headD_eq_head?_getD, List.head?_eq_some_head hne, Option.getD_some] at h
  exact hnul (h ▸ (List.dropWhile_suffix _).subset (List.head_mem hne))

/-! ## Formatting -/

theorem squeeze_squeeze (nFlag : Bool) (s : List UInt8) :
    squeeze nFlag (squeeze nFlag s) = squeeze nFlag s := by
  induction s generalizing nFlag with
  | nil => rfl
  | cons c s ih =>
    cases hc : isDelimiter c with
    | false => simp [squeeze, hc, ih]
    | true =>
      cases nFlag with
      | false => simp [squeeze, hc, ih]
      | true => simp [squeeze, hc, ih]

theorem squeeze_cons {c : UInt8} (h : isDelimiter c = false) (nFlag : Bool) (s : List UInt8) :
    squeeze nFlag (c :: s) = c :: squeeze false s := by
  rw [squeeze, h]
  rfl

theorem squeeze_append (nFlag : Bool) (s t : List UInt8) :
    ∃ nFlag', squeeze nFlag (s ++ t) = squeeze nFlag s ++ squeeze nFlag' t := by
  induction s generalizing nFlag with
  | nil => exact ⟨nFlag, rfl⟩
  | cons c s ih =>
    cases hc : isDelimiter c with
    | false =>
      obtain ⟨nFlag', heq⟩ := ih false
      exact ⟨nFlag', by simp [squeeze, hc, heq]⟩
    | true =>
      obtain ⟨nFlag', heq⟩ := ih true
      exact ⟨nFlag', by cases nFlag <;> simp [squeeze, hc, heq]⟩

theorem mem_squeeze {nFlag : Bool} {s : List UInt8} {c : UInt8} (h : c ∈ squeeze nFlag s) :
    c ∈ s := by
  induction s generalizing nFlag with
  | nil => cases h
  | cons d s ih =>
    rw [squeeze] at h
    split at h
    · split at h
      · exact List.mem_cons_of_mem _ (ih h)
      · rcases List.mem_cons.mp h with rfl | h
        · exact List.mem_cons_self
        · exact List.mem_cons_of_mem _ (ih h)
    · rcases List.mem_cons.mp h with rfl | h
      · exact List.mem_cons_self
      · exact List.mem_cons_of_mem _ (ih h)

/-- Neither a delimiter at an end nor two next to each other. -/
structure Formatted (s : List UInt8) : Prop where
  trimmed : Trimmed s
  squeezed : squeeze false s = s

theorem formatted_nil : Formatted [] := ⟨trimmed_nil, rfl⟩

theorem formatted_squeeze {s : List UInt8} (h : Trimmed s) : Formatted (squeeze false s) := by
  by_cases hs : s = []
  · rw [hs]
    exact formatted_nil
  · refine ⟨⟨?_, ?_⟩, squeeze_squeeze false s⟩
    · obtain ⟨⟨c, t, rfl, hc⟩, -⟩ := h.ends hs
      rw [squeeze_cons hc]
      intro d hd
      cases hd
      exact hc
    · obtain ⟨-, t, c, rfl, hc⟩ := h.ends hs
      obtain ⟨nFlag, heq⟩ := squeeze_append false t [c]
      rw [heq, squeeze_cons hc]
      intro d hd
      rw [List.getLast?_append] at hd
      cases hd
      exact hc

/-- `Format` in place of a padded string. -/
theorem format_pad {pre core post : List UInt8} (hpre : Blank pre) (hcore : Trimmed core)
    (hpost : Blank post) : format (pre ++ core ++ post) = squeeze false core := by
  rw [format, trim_pad hpre hcore hpost]

/-- `Format` into a second buffer, of a padded string. -/
theorem formatTo_pad {pre core post : List UInt8} (hpre : Blank pre) (hcore : Trimmed core)
    (hpost : Blank post) : formatTo (pre ++ core ++ post) = squeeze false core := by
  have hformatted := formatted_squeeze hcore
  rw [formatTo, List.append_assoc, leftTrim_pad hpre]
  by_cases hs : core = []
  · rw [hs, List.nil_append, leftTrim_blank hpost]
    rfl
  · obtain ⟨⟨c, t, heq, hc⟩, -⟩ := hcore.ends hs
    have hleft : leftTrim (core ++ post) = core ++ post := by
      rw [heq]
      exact leftTrim_cons hc _
    obtain ⟨nFlag, hsqueeze⟩ := squeeze_append false core post
    have hblank : Blank (squeeze nFlag post) := fun c hc => hpost c (mem_squeeze hc)
    rw [hleft, hsqueeze, rightTrim_pad hblank, hformatted.trimmed.rightTrim]

/-- The two functions agree. -/
theorem formatTo_eq (s : List UInt8) : formatTo s = format s := by
  obtain ⟨pre, core, post, rfl, hpre, hcore, hpost⟩ := exists_trimmed s
  rw [formatTo_pad hpre hcore hpost, format_pad hpre hcore hpost]

theorem formatted_format (s : List UInt8) : Formatted (format s) := by
  obtain ⟨pre, core, post, rfl, hpre, hcore, hpost⟩ := exists_trimmed s
  rw [format_pad hpre hcore hpost]
  exact formatted_squeeze hcore

/-- A formatted string is read back from between blanks. -/
theorem Formatted.format_pad {s pre post : List UInt8} (h : Formatted s) (hpre : Blank pre)
    (hpost : Blank post) : format (pre ++ s ++ post) = s := by
  rw [NetmtIniStr.format_pad hpre h.trimmed hpost, h.squeezed]

theorem format_leftPad {pre : List UInt8} (hpre : Blank pre) (s : List UInt8) :
    format (pre ++ s) = format s := by
  rw [← formatTo_eq, ← formatTo_eq, formatTo, leftTrim_pad hpre, formatTo]

theorem mem_format {s : List UInt8} {c : UInt8} (h : c ∈ format s) : c ∈ s := by
  have hleft : c ∈ rightTrim s := (List.dropWhile_suffix _).subset (mem_squeeze h)
  exact (List.rdropWhile_prefix isDelimiter s).subset hleft

/-- Only a blank string formats to the empty one. -/
theorem format_eq_nil {s : List UInt8} : format s = [] ↔ Blank s := by
  obtain ⟨pre, core, post, rfl, hpre, hcore, hpost⟩ := exists_trimmed s
  rw [format_pad hpre hcore hpost]
  constructor
  · intro h
    have hnil : core = [] := by
      by_contra hs
      obtain ⟨⟨c, t, rfl, hc⟩, -⟩ := hcore.ends hs
      rw [squeeze_cons hc] at h
      cases h
    rw [hnil, List.append_nil]
    exact hpre.append hpost
  · intro h
    have hnil : core = [] := by
      by_contra hs
      obtain ⟨⟨c, t, rfl, hc⟩, -⟩ := hcore.ends hs
      rw [h c (by simp)] at hc
      cases hc
    rw [hnil]
    rfl

/-- A word is formatted as it is. -/
theorem format_word {s : List UInt8} (h : ∀ c ∈ s, isDelimiter c = false) : format s = s := by
  have hsqueeze : squeeze false s = s := by
    induction s with
    | nil => rfl
    | cons c s ih =>
      rw [squeeze_cons (h c (by simp)), ih fun d hd => h d (List.mem_cons_of_mem _ hd)]
  have htrimmed : Trimmed s :=
    ⟨fun c hc => h c (List.mem_of_mem_head? hc), fun c hc => h c (List.mem_of_getLast? hc)⟩
  rw [format, htrimmed.rightTrim, htrimmed.leftTrim, hsqueeze]

/-! ## Lengths -/

theorem length_leftTrim_le (s : List UInt8) : (leftTrim s).length ≤ s.length :=
  List.length_dropWhile_le _ _

theorem length_rightTrim_le (s : List UInt8) : (rightTrim s).length ≤ s.length := by
  rw [rightTrim, List.rdropWhile, List.length_reverse]
  exact (List.length_dropWhile_le _ _).trans_eq List.length_reverse

theorem length_squeeze_le (flag : Bool) (s : List UInt8) : (squeeze flag s).length ≤ s.length := by
  induction s generalizing flag with
  | nil => exact Nat.le_refl _
  | cons c s ih =>
    rw [squeeze]
    split
    · split
      · exact (ih true).trans (Nat.le_succ _)
      · exact Nat.succ_le_succ (ih true)
    · exact Nat.succ_le_succ (ih false)

theorem length_format_le (s : List UInt8) : (format s).length ≤ s.length :=
  (length_squeeze_le _ _).trans ((length_leftTrim_le _).trans (length_rightTrim_le _))

theorem length_formatTo_le (s : List UInt8) : (formatTo s).length ≤ s.length := by
  rw [formatTo_eq]
  exact length_format_le s

/-! ## Formatting into a buffer -/

/-- `Format` into a buffer of that size. It reads in front of the buffer when the
string is blank. -/
def FormatFits (size : Nat) (s : List UInt8) : Prop :=
  (∃ b ∈ s, isDelimiter b = false) ∧ (formatTo s).length < size

instance (size : Nat) (s : List UInt8) : Decidable (FormatFits size s) :=
  inferInstanceAs (Decidable (_ ∧ _))

theorem format_ne_nil {size : Nat} {s : List UInt8} (h : FormatFits size s) : format s ≠ [] := by
  intro hnil
  obtain ⟨b, hb, hdel⟩ := h.1
  have hblank := format_eq_nil.mp hnil b hb
  rw [hdel] at hblank
  cases hblank

theorem FormatFits.ne_nil {size : Nat} {s : List UInt8} (h : FormatFits size s) : s ≠ [] := by
  rintro rfl
  exact format_ne_nil h rfl

end NetmtIniStr
