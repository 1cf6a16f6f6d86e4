import Netmt.IniLookup

/-!
# Integer lookups

`iniconfopt.cpp`: `GET_CONF_VALUE("%d")` and `CGetValueInt`. `sscanf` may leave the
value alone, and the macro does not look at what it returns. `none` stands for a run
that does not come to its end, and for one that leaves a buffer.
-/
namespace NetmtIniInt

open NetmtIniStr NetmtIniConf NetmtIniLookup

/-! ## Decimal numbers -/

def isDigit (c : UInt8) : Bool := 48 ≤ c && c ≤ 57

/-- The number that a string of digits denotes. -/
def digitsValue (digits : List UInt8) : Nat := digits.foldl (fun n c => 10 * n + (c.toNat - 48)) 0

/-- The sign, and what is behind it. -/
def splitSign : List UInt8 → Bool × List UInt8
  | [] => (false, [])
  | c :: s => if c = 45 then (true, s) else if c = 43 then (false, s) else (false, c :: s)

def signed (negative : Bool) (n : Nat) : Int := if negative then -(n : Int) else n

/-- The numbers of an `int`. -/
def InInt (n : Int) : Prop := -2147483648 ≤ n ∧ n ≤ 2147483647

instance (n : Int) : Decidable (InInt n) := inferInstanceAs (Decidable (_ ∧ _))

/-- `sscanf(s, "%d", &value)`: what `value` holds then. The first digits are taken, and
nothing when there are none; `wide` is what becomes of a number that is no `int`. -/
def scanInt (wide : Int → Int) (s : List UInt8) (value : Int) : Int :=
  let signRest := splitSign (s.dropWhile isSpace)
  let digits := signRest.2.takeWhile isDigit
  if digits = [] then value
  else
    let n := signed signRest.1 (digitsValue digits)
    if InInt n then n else wide n

/-- `sprintf(s, "%d", value)` -/
def printInt (value : Int) : List UInt8 :=
  (if value < 0 then [45] else []) ++ (Nat.toDigits 10 value.natAbs).map fun c =>
    UInt8.ofNat c.toNat

/-- The `int` that a whole text denotes in decimal notation. -/
def denotes (text : List UInt8) : Option Int :=
  let signRest := splitSign text
  if signRest.2 ≠ [] ∧ signRest.2.all isDigit then
    some (signed signRest.1 (digitsValue signRest.2)) |>.filter fun n => decide (InInt n)
  else none

/-! ## The lookup -/

/-- `SetValue` of an `int`, which `strTemp[32]` and `strValue[128]` hold. -/
def setValueInt (sectionName name : List UInt8) (value : Int) (c : CConfOpt) : Option CConfOpt :=
  c.assign sectionName name (printInt value)

/-- `GetValue` of an `int`, without a default prompt: the result, and what `value` holds. -/
def getValueInt (wide : Int → Int) (display : Bool) (sectionName name : List UInt8) (defv : Int)
    (comment : List UInt8) (value : Int) (c : CConfOpt) : Option (Int × Int × CConfOpt) :=
  match c.getStored 128 sectionName name comment with
  | none => none
  | some (some text, c) => some (1, scanInt wide text value, c)
  | some (none, c) =>
    if display ∧ c.itemExist = false then
      (setValueInt sectionName name defv c).map fun c => (0, defv, c)
    else some (0, defv, c)

/-- `CGetValueInt`: the result and `value`. -/
def cGetValueInt (wide : Int → Int) (junk text sectionName name : List UInt8) (defv : Int)
    (comment : List UInt8) (value : Int) : Option (Int × Int) :=
  match readFromFile junk text with
  | none => none
  | some c => (getValueInt wide true sectionName name defv comment value c).map fun r =>
    (r.1, r.2.1)

/-! ## The reference -/

/-- The text that a configuration has stored. -/
def storedText (sectionName name : List UInt8) (c : CConfOpt) : Option (List UInt8) :=
  valueOf c (formatTo sectionName) (formatTo name)

/-- The number where the stored text is one, the default everywhere else. -/
def reference (stored : Option (List UInt8)) (defv : Int) : Int × Int :=
  match stored.bind denotes with
  | some n => (1, n)
  | none => (0, defv)

/-- Nothing but a number is stored. -/
def NumberOrNothing (stored : Option (List UInt8)) : Prop :=
  ∀ text, stored = some text → text = [] ∨ ∃ n, denotes text = some n

/-- When an integer is looked up as it should be: without names there must be no number
to be found, other names must fit and lead to a number or to nothing. -/
def Answered (sectionName name : List UInt8) (c : CConfOpt) : Prop :=
  if sectionName = [] ∨ name = [] then (storedText sectionName name c).bind denotes = none
  else FormatFits 256 sectionName ∧ FormatFits 128 name ∧
    NumberOrNothing (storedText sectionName name c)

/-! ## What is scanned -/

theorem isSpace_of_isDigit {c : UInt8} (h : isDigit c = true) : isSpace c = false := by
  simp only [isDigit, Bool.and_eq_true, decide_eq_true_eq] at h
  simp only [isSpace, isDelimiter, Bool.or_eq_false_iff, decide_eq_false_iff_not]
  refine ⟨⟨⟨⟨⟨?_, ?_⟩, ?_⟩, ?_⟩, ?_⟩, ?_⟩ <;> rintro rfl <;> exact absurd h (by decide)

/-- A number has no space in front of it. -/
theorem dropWhile_denotes {text : List UInt8} {n : Int} (h : denotes text = some n) :
    text.dropWhile isSpace = text := by
  rw [denotes] at h
  cases text with
  | nil => rfl
  | cons c s =>
    refine List.dropWhile_cons_of_neg ?_
    rw [Bool.not_eq_true]
    by_cases hminus : c = 45
    · rw [hminus]
      rfl
    · by_cases hplus : c = 43
      · rw [hplus]
        rfl
      · simp only [splitSign, if_neg hminus, if_neg hplus] at h
        by_cases hdigits : (c :: s) ≠ [] ∧ (c :: s).all isDigit
        · exact isSpace_of_isDigit (List.all_eq_true.mp hdigits.2 c List.mem_cons_self)
        · rw [if_neg hdigits] at h
          cases h

theorem denotes_inInt {text : List UInt8} {n : Int} (h : denotes text = some n) :
    (splitSign text).2 ≠ [] ∧ (∀ c ∈ (splitSign text).2, isDigit c = true) ∧
      n = signed (splitSign text).1 (digitsValue (splitSign text).2) ∧ InInt n := by
  rw [denotes] at h
  by_cases hdigits : (splitSign text).2 ≠ [] ∧ (splitSign text).2.all isDigit
  · rw [if_pos hdigits, Option.filter_eq_some_iff] at h
    obtain ⟨hn, hrange⟩ := h
    exact ⟨hdigits.1, List.all_eq_true.mp hdigits.2, (Option.some.inj hn).symm,
      of_decide_eq_true hrange⟩
  · rw [if_neg hdigits] at h
    cases h

/-- `sscanf` reads a number as what it denotes. -/
theorem scanInt_denotes (wide : Int → Int) {text : List UInt8} {n : Int} (value : Int)
    (h : denotes text = some n) : scanInt wide text value = n := by
  obtain ⟨hne, hall, hn, hrange⟩ := denotes_inInt h
  have htake : (splitSign text).2.takeWhile isDigit = (splitSign text).2 :=
    List.takeWhile_eq_self_iff.mpr hall
  simp only [scanInt, dropWhile_denotes h, htake, if_neg hne]
  rw [← hn, if_pos hrange]

/-! ## What is looked up -/

/-- What the macro makes of the text. -/
theorem getValueInt_spec (wide : Int → Int) {sectionName name : List UInt8}
    (hs : FormatFits 256 sectionName) (hn : FormatFits 128 name) (defv : Int) (comment : List UInt8)
    (value : Int) (c : CConfOpt)
    (hshort : ∀ text, storedText sectionName name c = some text → text.length < 128) :
    ∃ c', getValueInt wide true sectionName name defv comment value c =
      some (match (storedText sectionName name c).filter (· ≠ []) with
        | some text => (1, scanInt wide text value, c')
        | none => (0, defv, c')) := by
  rw [storedText, formatTo_eq, formatTo_eq] at hshort ⊢
  obtain ⟨c', htext⟩ := getStored_spec 128 hs hn comment c hshort
  cases hvalue : (valueOf c (format sectionName) (format name)).filter (· ≠ []) with
  | some text =>
    rw [hvalue] at htext
    exact ⟨c', by rw [getValueInt, htext]⟩
  | none =>
    rw [hvalue] at htext
    rw [getValueInt, htext]
    by_cases hnew : c'.itemExist = false
    · obtain ⟨d, hd⟩ := assign_isSome hs hn (printInt defv) c'
      exact ⟨d, by simp only [hnew, and_self, if_true, setValueInt, hd, Option.map_some]⟩
    · exact ⟨c', by simp only [hnew, Bool.true_eq_false, and_false, if_false]⟩

/-- No record has a value of more than 127 bytes. -/
def ShortValues (c : CConfOpt) : Prop := ∀ s ∈ c.sections, ∀ r ∈ s.records, r.value.length ≤ 127

theorem ShortValues.stored {c : CConfOpt} (h : ShortValues c) {sectionName name text : List UInt8}
    (htext : storedText sectionName name c = some text) : text.length < 128 := by
  obtain ⟨r, hr, rfl⟩ := Option.map_eq_some_iff.mp htext
  obtain ⟨s, hs, hlookup⟩ := Option.bind_eq_some_iff.mp hr
  exact Nat.lt_succ_of_le (h s (Keyed.lookup_mem _ hs).1 r (Keyed.lookup_mem _ hlookup).1)

/-- A number that is stored is given back, nothing gives the default, and any other text
gives 1. -/
theorem answer_iff (wide : Int → Int) (stored : Option (List UInt8)) (defv value : Int) :
    (match stored.filter (· ≠ []) with
      | some text => ((1 : Int), scanInt wide text value)
      | none => (0, defv)) = reference stored defv ↔ NumberOrNothing stored := by
  cases stored with
  | none => exact iff_of_true rfl fun text htext => absurd htext (by simp)
  | some text =>
    by_cases hempty : text = []
    · subst hempty
      exact iff_of_true rfl fun text htext => .inl (Option.some.inj htext).symm
    · have hfilter : (some text).filter (· ≠ []) = some text :=
        Option.filter_eq_some_iff.mpr ⟨rfl, by
        simpa using hempty⟩
      rw [hfilter, reference, Option.bind_some]
      cases hnumber : denotes text with
      | some n =>
        refine iff_of_true ?_ fun text' htext => .inr ⟨n, (Option.some.inj htext) ▸ hnumber⟩
        simp only [scanInt_denotes wide value hnumber]
      | none =>
        refine iff_of_false (fun h => ?_) fun h => ?_
        · have hone : (1 : Int) = 0 := congrArg Prod.fst h
          cases hone
        · rcases h text rfl with hnil | ⟨n, hn⟩
          · exact hempty hnil
          · rw [hnumber] at hn
            cases hn

/-- An integer is looked up as the reference says for just these configurations. -/
theorem getValueInt_iff (wide : Int → Int) (sectionName name : List UInt8) (defv : Int)
    (comment : List UInt8) (value : Int) {c : CConfOpt} (hshort : ShortValues c) :
    (getValueInt wide true sectionName name defv comment value c).map (fun r => (r.1, r.2.1)) =
      some (reference (storedText sectionName name c) defv) ↔ Answered sectionName name c := by
  rw [Answered]
  by_cases hnames : sectionName = [] ∨ name = []
  · have hrun : (getValueInt wide true sectionName name defv comment value c).map
      (fun r => (r.1, r.2.1)) =
        some (0, defv) := by
      have hset : setValueInt sectionName name defv c = some c := by
        rw [setValueInt, CConfOpt.assign, if_pos hnames]
      rw [getValueInt, CConfOpt.getStored, if_pos hnames]
      simp only [hset]
      split <;> rfl
    rw [hrun, if_pos hnames, reference]
    cases hnumber : (storedText sectionName name c).bind denotes with
    | none => exact iff_of_true rfl rfl
    | some n =>
      refine iff_of_false (fun h => ?_) (by simp)
      have hzero : (0 : Int) = 1 := congrArg Prod.fst (Option.some.inj h)
      cases hzero
  · rw [if_neg hnames]
    by_cases hfits : FormatFits 256 sectionName ∧ FormatFits 128 name
    · obtain ⟨c', hrun⟩ := getValueInt_spec wide hfits.1 hfits.2 defv comment value c
        fun text => hshort.stored
      rw [hrun, Option.map_some, Option.some.injEq]
      have hanswer := answer_iff wide (storedText sectionName name c) defv value
      cases hvalue : (storedText sectionName name c).filter (· ≠ []) <;>
      · rw [hvalue] at hanswer
        exact hanswer.trans ⟨fun h => ⟨hfits.1, hfits.2, h⟩, fun h => h.2.2⟩
    · have hrun : getValueInt wide true sectionName name defv comment value c = none := by
        rw [getValueInt, CConfOpt.getStored, if_neg hnames, if_neg hfits]
      rw [hrun]
      exact iff_of_false (by simp) fun h => hfits ⟨h.1, h.2.1⟩

/-- `CGetValueInt` answers as it should for just these files, sections and names. -/
theorem cGetValueInt_iff (wide : Int → Int) (junk text sectionName name : List UInt8) (defv : Int)
    (comment : List UInt8) (value : Int)
    (hshort : ∀ c, readFromFile junk text = some c → ShortValues c) :
    (∃ c, readFromFile junk text = some c ∧
      cGetValueInt wide junk text sectionName name defv comment value =
        some (reference (storedText sectionName name c) defv)) ↔
    ∃ c, readFromFile junk text = some c ∧ Answered sectionName name c := by
  refine exists_congr fun c => and_congr_right fun hload => ?_
  rw [cGetValueInt, hload]
  exact getValueInt_iff wide sectionName name defv comment value (hshort c hload)

/-- `[s]` with `a=-80` under it. -/
theorem cGetValueInt_number : cGetValueInt (fun _ => 0) (List.replicate 256 0)
    [91, 115, 93, 10, 97, 61, 45, 56, 48, 10] [115] [97] 7 [] 77 = some (1, -80) := by
  have hload : readFromFile (List.replicate 256 0) [91, 115, 93, 10, 97, 61, 45, 56, 48, 10] =
      some ⟨[⟨[115], [⟨[97], [45, 56, 48], []⟩], [], 10, []⟩], some [115], [], false, false⟩ := by
    decide
  obtain ⟨c, hc, hrun⟩ := (cGetValueInt_iff (fun _ => 0) (List.replicate 256 0)
    [91, 115, 93, 10, 97, 61, 45, 56, 48, 10] [115] [97] 7 [] 77 (by
      rw [hload]
      rintro c hc
      obtain rfl := Option.some.inj hc
      unfold ShortValues
      decide)).mpr ⟨_, hload, by
        refine ⟨by decide, by decide, ?_⟩
        intro text htext
        obtain rfl : [45, 56, 48] = text := Option.some.inj htext
        exact .inr ⟨-80, by decide⟩⟩
  rw [hload] at hc
  obtain rfl := Option.some.inj hc
  rw [hrun]
  decide

/-- `a=x`, `a=80x` and `a=9999999999` under `[s]`: each returns 1, and the first leaves
`value` as it was. -/
theorem cGetValueInt_unassigned :
    cGetValueInt (fun _ => 0) (List.replicate 256 0) [91, 115, 93, 10, 97, 61, 120, 10]
      [115] [97] 7 [] 77 = some (1, 77) ∧
    cGetValueInt (fun _ => 0) (List.replicate 256 0) [91, 115, 93, 10, 97, 61, 56, 48, 120, 10]
      [115] [97] 7 [] 77 = some (1, 80) ∧
    cGetValueInt (fun _ => 0) (List.replicate 256 0)
      [91, 115, 93, 10, 97, 61, 57, 57, 57, 57, 57, 57, 57, 57, 57, 57, 10] [115] [97] 7 [] 77 =
      some (1, 0) ∧
    denotes [120] = none ∧ denotes [56, 48, 120] = none ∧
    denotes [57, 57, 57, 57, 57, 57, 57, 57, 57, 57] = none := by
  decide

end NetmtIniInt
