import Netmt.IniLoaded
import Netmt.Lib.Runs

/-!
# The words of a line without `=`

The loop skips delimiters, lets `sscanf` read a word, and goes on by the length of what
`strValue` holds then. `sscanf` skips a vertical tab and a form feed as well, and may
find no word at all.
-/
namespace NetmtIniEnum

open NetmtIniStr NetmtIniConf NetmtIniLookup NetmtIniLoaded Runs

/-! ## The loop -/

/-- What the loop leaves when it ends. -/
structure Tokens where
  /-- what `SetEnumValue` was given -/
  values : List (List UInt8)
  /-- where `pTemp` was, in front of the delimiters and behind them -/
  places : List Nat
  strValue : List UInt8

/-- `pTemp` is an index into `strBuf`, and each unit of fuel is a pass. -/
def tokenLoop (strBuf : List UInt8) : Nat → Nat → List UInt8 → Option Tokens
  | 0, _, _ => none
  | fuel + 1, pTemp, strValue =>
    let start := pTemp + ((strBuf.drop pTemp).takeWhile isDelimiter).length
    match strBuf.drop start with
    | [] => none
    | c :: rest =>
      if c = 0 then some ⟨[], [pTemp, start], strValue⟩
      else if 0 ∈ rest then
        let strValue := scanWord ((c :: rest).takeWhile (· ≠ 0)) strValue
        (tokenLoop strBuf fuel (start + strValue.length) strValue).map fun t =>
          ⟨strValue :: t.values, pTemp :: start :: t.places, t.strValue⟩
      else none

/-- Where `sscanf` leaves nothing, there was nothing before. -/
theorem scanWord_nil {s strValue : List UInt8} (h : scanWord s strValue = []) :
    scanWord s [] = [] := by
  rw [scanWord] at h ⊢
  split at h
  · next hword => rw [if_pos hword]
  · next hword => exact absurd h hword

/-- Where `sscanf` finds nothing and `strValue` is empty, the loop stands still. -/
theorem tokenLoop_stands {strBuf rest : List UInt8} {c : UInt8} {pTemp : Nat} (fuel : Nat)
    (hdrop : strBuf.drop pTemp = c :: rest) (hdelim : isDelimiter c = false) (hc : c ≠ 0)
    (hword : scanWord ((c :: rest).takeWhile (· ≠ 0)) [] = []) :
    tokenLoop strBuf fuel pTemp [] = none := by
  induction fuel with
  | zero => rfl
  | succ fuel ih =>
    have hstay : pTemp + ((strBuf.drop pTemp).takeWhile isDelimiter).length = pTemp := by
      rw [hdrop, List.takeWhile_cons_of_neg (by simp [hdelim])]
      rfl
    rw [tokenLoop, hstay]
    simp only [hdrop, if_neg hc, hword, List.length_nil, Nat.add_zero, ih,
      Option.map_none, ite_self]

section Passes

variable {strBuf strValue : List UInt8} {fuel pTemp : Nat} {t : Tokens}

/-- A loop that ends is at its end, or makes a pass that any other fuel makes as well. -/
theorem tokenLoop_cases (hrun : tokenLoop strBuf fuel pTemp strValue = some t) :
    ∃ n places, fuel = n + 1 ∧ t.places = pTemp :: places ∧
      ((∀ m, tokenLoop strBuf (m + 1) pTemp strValue = some t) ∨
        ∃ next value t', tokenLoop strBuf n next value = some t' ∧ t.values = value :: t'.values ∧
          ∀ m, tokenLoop strBuf m next value = some t' →
            tokenLoop strBuf (m + 1) pTemp strValue = some t) := by
  cases fuel with
  | zero => cases hrun
  | succ n =>
    rw [tokenLoop] at hrun
    dsimp only at hrun
    split at hrun
    · cases hrun
    · next c rest hdrop =>
      split at hrun
      · next hc =>
        cases hrun
        refine ⟨n, _, rfl, rfl, .inl fun m => ?_⟩
        rw [tokenLoop]
        simp only [hdrop, if_pos hc]
      · next hc =>
        split at hrun
        · next hnul =>
          obtain ⟨t', hloop, rfl⟩ := Option.map_eq_some_iff.mp hrun
          refine ⟨n, _, rfl, rfl, .inr ⟨_, _, t', hloop, rfl, fun m hm => ?_⟩⟩
          rw [tokenLoop]
          simp only [hdrop, if_neg hc, if_pos hnul, hm, Option.map_some]
        · cases hrun

theorem places_head (hrun : tokenLoop strBuf fuel pTemp strValue = some t) : pTemp ∈ t.places := by
  obtain ⟨_, _, -, hplaces, -⟩ := tokenLoop_cases hrun
  rw [hplaces]
  exact List.mem_cons_self

/-- It takes one pass for each value, and one to see the end. -/
theorem tokenLoop_fuel {m : Nat} (hrun : tokenLoop strBuf fuel pTemp strValue = some t)
    (hm : t.values.length < m) : tokenLoop strBuf m pTemp strValue = some t := by
  induction fuel generalizing pTemp strValue t m with
  | zero => cases hrun
  | succ fuel ih =>
    obtain ⟨m, rfl⟩ := Nat.exists_eq_succ_of_ne_zero (Nat.ne_of_gt (Nat.zero_lt_of_lt hm))
    obtain ⟨n, _, hfuel, -, hend | ⟨next, value, t', hloop, hvalues, hpass⟩⟩ := tokenLoop_cases hrun
    · exact hend m
    · cases hfuel
      rw [hvalues, List.length_cons] at hm
      exact hpass m (ih hloop (Nat.lt_of_succ_lt_succ hm))

end Passes

/-- `SetEnumValue` of one value after the other. -/
def setAll (strSection : List UInt8) (values : List (List UInt8)) (conf : CConfOpt) :
    Option CConfOpt :=
  values.foldlM (fun conf value => conf.onSection fun s =>
    some (s.setEnumValue strSection value)) conf

/-- `enumLoop` stores what `tokenLoop` hands over. -/
theorem enumLoop_tokens (strSection : List UInt8) (fuel pTemp : Nat) (r : Reader) :
    enumLoop strSection fuel pTemp r = (tokenLoop r.strBuf fuel pTemp r.strValue).bind fun t =>
      (setAll strSection t.values r.conf).map fun conf =>
        { r with conf := conf, strValue := t.strValue } := by
  induction fuel generalizing pTemp r with
  | zero => rfl
  | succ fuel ih =>
    rw [enumLoop, tokenLoop]
    dsimp only
    cases hdrop : r.strBuf.drop (pTemp + ((r.strBuf.drop pTemp).takeWhile isDelimiter).length) with
    | nil => rfl
    | cons c rest =>
      dsimp only
      by_cases hc : c = 0
      · rw [if_pos hc, if_pos hc]
        rfl
      · rw [if_neg hc, if_neg hc]
        by_cases hnul : 0 ∈ rest
        · rw [if_pos hnul, if_pos hnul]
          generalize hvalue : scanWord ((c :: rest).takeWhile (· ≠ 0)) r.strValue = value
          by_cases hempty : value = []
          · have hhead := List.head?_dropWhile_not isDelimiter (r.strBuf.drop pTemp)
            rw [← drop_front, hdrop] at hhead
            rw [if_pos hempty, hempty, List.length_nil, Nat.add_zero,
              tokenLoop_stands fuel hdrop hhead hc (scanWord_nil (hvalue.trans hempty))]
            rfl
          · rw [if_neg hempty]
            cases hconf : r.conf.onSection fun s => some (s.setEnumValue strSection value) with
            | none =>
              cases tokenLoop r.strBuf fuel _ value with
              | none => rfl
              | some t => simp [setAll, hconf]
            | some conf =>
              dsimp only
              rw [ih]
              cases tokenLoop r.strBuf fuel _ value with
              | none => rfl
              | some t => simp [setAll, hconf]
        · rw [if_neg hnul, if_neg hnul]
          rfl

/-- The loop comes to its end, never points behind the line, and hands over its words. -/
def Tokenised (line tail strValue : List UInt8) : Prop :=
  ∃ fuel t, tokenLoop (line ++ 0 :: tail) fuel 0 strValue = some t ∧
    (∀ p ∈ t.places, p ≤ line.length) ∧ t.values = runs isDelimiter line

/-! ## The same loop on what is left of the line -/

/-- With `s` left and `strValue` before, the loop hands over `values` and ends with `s`. -/
inductive Scans : List UInt8 → List UInt8 → List (List UInt8) → Prop where
  | done {s strValue : List UInt8} : s.dropWhile isDelimiter = [] → Scans s strValue []
  | pass {s strValue value : List UInt8} {values : List (List UInt8)} :
      s.dropWhile isDelimiter ≠ [] → value = scanWord (s.dropWhile isDelimiter) strValue →
      value.length ≤ (s.dropWhile isDelimiter).length →
      Scans ((s.dropWhile isDelimiter).drop value.length) value values →
      Scans s strValue (value :: values)

section Line

variable {line tail strValue : List UInt8} {pTemp : Nat}

/-- One pass, told by what is left of the line. -/
theorem tokenLoop_left (tail strValue : List UInt8) (hnul : 0 ∉ line) (hp : pTemp ≤ line.length) :
    ∃ start, start + ((line.drop pTemp).dropWhile isDelimiter).length = line.length ∧
      line.drop start = (line.drop pTemp).dropWhile isDelimiter ∧
      ∀ fuel, tokenLoop (line ++ 0 :: tail) (fuel + 1) pTemp strValue =
        if (line.drop pTemp).dropWhile isDelimiter = [] then some ⟨[], [pTemp, start], strValue⟩
        else
          let value := scanWord ((line.drop pTemp).dropWhile isDelimiter) strValue
          (tokenLoop (line ++ 0 :: tail) fuel (start + value.length) value).map fun t =>
            ⟨value :: t.values, pTemp :: start :: t.places, t.strValue⟩ := by
  have hleft : (line ++ 0 :: tail).drop pTemp = line.drop pTemp ++ 0 :: tail :=
    List.drop_append_of_le_length hp
  have hlength := length_delimiters hleft
  have hdrop := drop_delimiters hleft
  have hfree : 0 ∉ (line.drop pTemp).dropWhile isDelimiter :=
    fun h => hnul (List.mem_of_mem_drop ((List.dropWhile_suffix isDelimiter).subset h))
  rw [List.length_drop] at hlength
  refine ⟨pTemp + (((line ++ 0 :: tail).drop pTemp).takeWhile isDelimiter).length, by omega, ?_, ?_⟩
  · rw [List.drop_append_of_le_length (by omega)] at hdrop
    exact List.append_cancel_right hdrop
  · intro fuel
    have hline := takeWhile_line hfree tail
    rw [tokenLoop]
    simp only [hdrop]
    generalize (line.drop pTemp).dropWhile isDelimiter = s' at hfree hline
    cases s' with
    | nil => rfl
    | cons c r =>
      have hc : c ≠ 0 := fun heq => hfree (heq ▸ List.mem_cons_self)
      rw [List.cons_append] at hline
      simp only [List.cons_append, if_neg hc, hline, List.mem_append, List.mem_cons, true_or,
        or_true, if_true, reduceCtorEq, if_false]

/-- A scan of what is left is a run of the loop that stays on the line. -/
theorem Scans.loop (hnul : 0 ∉ line) {s : List UInt8} {values : List (List UInt8)}
    (h : Scans s strValue values) (hp : pTemp ≤ line.length) (hs : line.drop pTemp = s) :
    ∃ fuel t, tokenLoop (line ++ 0 :: tail) fuel pTemp strValue = some t ∧
      (∀ p ∈ t.places, p ≤ line.length) ∧ t.values = values := by
  induction h generalizing pTemp with
  | @done s v hend =>
    subst hs
    obtain ⟨start, hstart, -, hrun⟩ := tokenLoop_left tail v hnul hp
    rw [hend] at hstart
    refine ⟨1, _, (hrun 0).trans (if_pos hend), fun p hmem => ?_, rfl⟩
    simp only [List.mem_cons, List.not_mem_nil, or_false] at hmem
    rcases hmem with rfl | rfl
    · exact hp
    · exact Nat.le_of_eq hstart
  | @pass s v value values hne hvalue hlen _ ih =>
    subst hs
    obtain ⟨start, hstart, hrest, hrun⟩ := tokenLoop_left tail v hnul hp
    have hnext : line.drop (start + value.length) =
        ((line.drop pTemp).dropWhile isDelimiter).drop value.length := by
      rw [← List.drop_drop, hrest]
    obtain ⟨fuel, t, hloop, hplaces, hvalues⟩ := ih (by omega) hnext
    have hpass := (hrun fuel).trans (if_neg hne)
    rw [← hvalue] at hpass
    simp only [hloop, Option.map_some] at hpass
    refine ⟨fuel + 1, _, hpass, fun p hmem => ?_, congrArg (List.cons value) hvalues⟩
    rcases List.mem_cons.mp hmem with rfl | hmem
    · exact hp
    · rcases List.mem_cons.mp hmem with rfl | hmem
      · omega
      · exact hplaces p hmem

/-- And the other way round. -/
theorem scans_of_loop (hnul : 0 ∉ line) {fuel : Nat} {t : Tokens}
    (hrun : tokenLoop (line ++ 0 :: tail) fuel pTemp strValue = some t)
    (hplaces : ∀ p ∈ t.places, p ≤ line.length) : Scans (line.drop pTemp) strValue t.values := by
  induction fuel generalizing pTemp strValue t with
  | zero => cases hrun
  | succ fuel ih =>
    have hp := hplaces pTemp (places_head hrun)
    obtain ⟨start, hstart, hrest, hpass⟩ := tokenLoop_left tail strValue hnul hp
    rw [hpass] at hrun
    by_cases hend : (line.drop pTemp).dropWhile isDelimiter = []
    · rw [if_pos hend] at hrun
      cases hrun
      exact .done hend
    · rw [if_neg hend] at hrun
      obtain ⟨t', hloop, rfl⟩ := Option.map_eq_some_iff.mp hrun
      have hnext := hplaces _ (List.mem_cons_of_mem _ (List.mem_cons_of_mem _ (places_head hloop)))
      have hscan :=
        ih hloop fun p hmem => hplaces p (List.mem_cons_of_mem _ (List.mem_cons_of_mem _ hmem))
      rw [← List.drop_drop, hrest] at hscan
      exact .pass hend rfl (by omega) hscan

end Line

theorem tokenised_iff_scans {line tail strValue : List UInt8} (hnul : 0 ∉ line) :
    Tokenised line tail strValue ↔ Scans line strValue (runs isDelimiter line) := by
  constructor
  · rintro ⟨fuel, t, hrun, hplaces, hvalues⟩
    rw [← hvalues]
    exact scans_of_loop hnul hrun hplaces
  · intro h
    exact h.loop hnul (Nat.zero_le _) rfl

/-! ## Words and runs -/

/-- On a plain text `sscanf` and the loop skip the same characters. -/
theorem plain_iff {s : List UInt8} : Plain s ↔ ∀ c ∈ s, isSpace c = isDelimiter c := by
  constructor
  · exact fun h c hc => h.isSpace hc
  · intro h
    constructor
    · exact fun hmem => absurd (h 11 hmem) (by decide)
    · exact fun hmem => absurd (h 12 hmem) (by decide)

theorem plain_def {s : List UInt8} : Plain s ↔ 11 ∉ s ∧ 12 ∉ s :=
  ⟨fun h => ⟨h.noTab, h.noFeed⟩, fun h => ⟨h.1, h.2⟩⟩

/-- The first run of a text that goes on at `c :: r` behind its delimiters. -/
def firstRun (c : UInt8) (r : List UInt8) : List UInt8 := c :: r.takeWhile fun d => !isDelimiter d

def afterRun (r : List UInt8) : List UInt8 := r.dropWhile fun d => !isDelimiter d

section Runs

variable {s r v : List UInt8} {c : UInt8}

theorem delimiter_false (h : s.dropWhile isDelimiter = c :: r) : isDelimiter c = false := by
  have hhead := List.head?_dropWhile_not isDelimiter s
  rw [h] at hhead
  exact hhead

theorem runs_eq (h : s.dropWhile isDelimiter = c :: r) :
    runs isDelimiter s = firstRun c r :: runs isDelimiter (afterRun r) := by
  rw [← runs_dropWhile, h, runs_cons (delimiter_false h)]
  rfl

theorem firstRun_append (c : UInt8) (r : List UInt8) : firstRun c r ++ afterRun r = c :: r := by
  rw [firstRun, afterRun, List.cons_append, List.takeWhile_append_dropWhile]

theorem drop_firstRun (c : UInt8) (r : List UInt8) :
    (c :: r).drop (firstRun c r).length = afterRun r := by
  rw [← firstRun_append, List.drop_left]

theorem firstRun_delimiter (h : isDelimiter c = false) :
    ∀ d ∈ firstRun c r, isDelimiter d = false := by
  intro d hd
  rcases List.mem_cons.mp hd with rfl | hd
  · exact h
  · simpa using List.mem_takeWhile_imp hd

theorem length_afterRun (h : s.dropWhile isDelimiter = c :: r) :
    (afterRun r).length < s.length := by
  have hle := (List.dropWhile_suffix (l := s) isDelimiter).length_le
  have hrest := (List.dropWhile_suffix (l := r) fun d => !isDelimiter d).length_le
  rw [h, List.length_cons] at hle
  rw [afterRun]
  omega

/-- A property of characters that all delimiters have. -/
theorem forall_mem_iff {P : UInt8 → Prop} (hP : ∀ d, isDelimiter d = true → P d)
    (h : s.dropWhile isDelimiter = c :: r) :
    (∀ d ∈ s, P d) ↔ (∀ d ∈ firstRun c r, P d) ∧ ∀ d ∈ afterRun r, P d := by
  have hsplit : s.takeWhile isDelimiter ++ (firstRun c r ++ afterRun r) = s := by
    rw [firstRun_append, ← h, List.takeWhile_append_dropWhile]
  rw [← hsplit]
  simp only [List.mem_append, or_imp, forall_and]
  exact and_iff_right fun d hd => hP d (List.mem_takeWhile_imp hd)

theorem isSpace_of_delimiter (d : UInt8) (h : isDelimiter d = true) : isSpace d = true := by
  rw [isSpace, h]
  rfl

/-- Where the two tests agree, so do the front stretches. -/
theorem takeWhile_space (h : ∀ d ∈ s, isSpace d = isDelimiter d) :
    (s.takeWhile fun d => !isSpace d) = s.takeWhile fun d => !isDelimiter d := by
  induction s with
  | nil => rfl
  | cons d s ih =>
    rw [List.takeWhile_cons, List.takeWhile_cons, h d List.mem_cons_self,
      ih fun e he => h e (List.mem_cons_of_mem _ he)]

/-- What `sscanf` finds where a plain run starts. -/
theorem scanWord_plain (hc : isDelimiter c = false) (h : ∀ d ∈ c :: r, isSpace d = isDelimiter d) :
    scanWord (c :: r) v = firstRun c r := by
  have hspace : isSpace c = false := (h c List.mem_cons_self).trans hc
  rw [scanWord_cons hspace, takeWhile_space fun d hd => h d (List.mem_cons_of_mem _ hd), firstRun]

/-- In white space it finds nothing. -/
theorem scanWord_space (h : ∀ d ∈ s, isSpace d = true) : scanWord s v = v := by
  rw [scanWord, List.dropWhile_eq_nil_iff.mpr h]
  rfl

/-- It finds a word without white space, or there is none. -/
theorem scanWord_cases (s v : List UInt8) :
    (∀ d ∈ scanWord s v, isSpace d = false) ∨ (∀ d ∈ s, isSpace d = true) ∧ scanWord s v = v := by
  rw [scanWord]
  split
  · next hword =>
    refine .inr ⟨?_, rfl⟩
    rw [← List.dropWhile_eq_nil_iff]
    cases hdrop : s.dropWhile isSpace with
    | nil => rfl
    | cons c r =>
      have hhead := List.head?_dropWhile_not isSpace s
      rw [hdrop] at hhead hword
      rw [List.takeWhile_cons_of_pos (by simpa using hhead)] at hword
      cases hword
  · exact .inl fun d hd => by simpa using List.mem_takeWhile_imp hd

/-- What the loop needs of the text, where `v` is what `strValue` holds before. -/
def Separable (s v : List UInt8) : Prop :=
  Plain s ∨ (∀ d ∈ s, isSpace d = true) ∧ ∀ w ∈ runs isDelimiter s, w = v

theorem afterRun_subset (h : s.dropWhile isDelimiter = c :: r) {d : UInt8} (hd : d ∈ afterRun r) :
    d ∈ s := by
  have hmem : d ∈ c :: r := List.mem_cons_of_mem _ ((List.dropWhile_suffix _).subset hd)
  rw [← h] at hmem
  exact (List.dropWhile_suffix isDelimiter).subset hmem

/-- Nothing but delimiters is left of white space without runs. -/
theorem delimiters_of_runs (h : runs isDelimiter s = []) : ∀ d ∈ s, isDelimiter d = true := by
  have hflat := runs_flatten (p := isDelimiter) s
  rw [h, List.flatten_nil, eq_comm, List.filter_eq_nil_iff] at hflat
  simpa using hflat

theorem plain_of_delimiters (h : ∀ d ∈ s, isDelimiter d = true) : Plain s :=
  plain_iff.mpr fun d hd => (isSpace_of_delimiter d (h d hd)).trans (h d hd).symm

theorem separable_pass_left (hs : s.dropWhile isDelimiter = c :: r) (h : Separable s v) :
    scanWord (c :: r) v = firstRun c r ∧ Separable (afterRun r) (firstRun c r) := by
  have hsub : ∀ d ∈ c :: r, d ∈ s :=
    fun d hd => (List.dropWhile_suffix isDelimiter).subset (hs ▸ hd)
  rcases h with hplain | ⟨hspace, hruns⟩
  · have hagree := plain_iff.mp hplain
    refine ⟨scanWord_plain (delimiter_false hs) fun d hd => hagree d (hsub d hd), .inl ?_⟩
    exact plain_iff.mpr fun d hd => hagree d (afterRun_subset hs hd)
  · rw [runs_eq hs, List.forall_mem_cons] at hruns
    obtain ⟨hfirst, hrest⟩ := hruns
    refine ⟨?_, .inr ⟨fun d hd => hspace d (afterRun_subset hs hd), fun w hw => ?_⟩⟩
    · rw [scanWord_space fun d hd => hspace d (hsub d hd), hfirst]
    · rw [hrest w hw, hfirst]

theorem separable_pass_right (hs : s.dropWhile isDelimiter = c :: r)
    (hword : scanWord (c :: r) v = firstRun c r) (h : Separable (afterRun r) (firstRun c r)) :
    Separable s v := by
  rcases scanWord_cases (c :: r) v with hfound | ⟨hspace, hkept⟩
  · rw [hword] at hfound
    -- what stands behind a found word holds no run that looks like it
    have hrest : Plain (afterRun r) := by
      rcases h with hplain | ⟨hspace, hruns⟩
      · exact hplain
      · refine plain_of_delimiters
          (delimiters_of_runs (List.eq_nil_iff_forall_not_mem.mpr fun w hw => ?_))
        have hc : c ∈ w := by
          rw [hruns w hw]
          exact List.mem_cons_self
        have hblank := hspace c (mem_of_mem_runs hw hc).1
        rw [hfound c List.mem_cons_self] at hblank
        cases hblank
    refine .inl (plain_iff.mpr ((forall_mem_iff ?_ hs).mpr ⟨fun d hd => ?_, plain_iff.mp hrest⟩))
    · exact fun d hd => (isSpace_of_delimiter d hd).trans hd.symm
    · rw [hfound d hd, firstRun_delimiter (delimiter_false hs) d hd]
  · rw [hword] at hkept
    have hwhole : ∀ d ∈ s, isSpace d = true := by
      refine (forall_mem_iff isSpace_of_delimiter hs).mpr ⟨fun d hd => ?_, fun d hd => ?_⟩
      · exact hspace d (firstRun_append c r ▸ List.mem_append_left _ hd)
      · exact hspace d (firstRun_append c r ▸ List.mem_append_right _ hd)
    refine .inr ⟨hwhole, ?_⟩
    rw [runs_eq hs, ← hkept]
    refine List.forall_mem_cons.mpr ⟨rfl, ?_⟩
    rcases h with hplain | ⟨-, hruns⟩
    · rw [runs_blank fun d hd => ?_]
      · exact fun w hw => absurd hw List.not_mem_nil
      · rw [← hplain.isSpace hd]
        exact hwhole d (afterRun_subset hs hd)
    · exact hruns

/-- One pass: the first run is what `sscanf` leaves, and the rest is separable from there. -/
theorem separable_pass (hs : s.dropWhile isDelimiter = c :: r) : Separable s v ↔
    scanWord (c :: r) v = firstRun c r ∧ Separable (afterRun r) (firstRun c r) :=
  ⟨separable_pass_left hs, fun h => separable_pass_right hs h.1 h.2⟩

theorem scans_pass (hs : s.dropWhile isDelimiter = c :: r) : Scans s v (runs isDelimiter s) ↔
    scanWord (c :: r) v = firstRun c r ∧
    Scans (afterRun r) (firstRun c r) (runs isDelimiter (afterRun r)) := by
  have hdrop := drop_firstRun c r
  rw [runs_eq hs]
  constructor
  · intro h
    cases h with
    | pass hne hvalue hlen hrest =>
      rw [hs] at hvalue hrest
      rw [hdrop] at hrest
      exact ⟨hvalue.symm, hrest⟩
  · rintro ⟨hword, hrest⟩
    have hlen := congrArg List.length (firstRun_append c r)
    rw [List.length_append] at hlen
    refine .pass (hs ▸ List.cons_ne_nil _ _) ?_ ?_ ?_
    · rw [hs, hword]
    · rw [hs]
      omega
    · rwa [hs, hdrop]

end Runs

/-- The scan hands over the runs exactly where they can be told apart. -/
theorem scans_iff (s v : List UInt8) : Scans s v (runs isDelimiter s) ↔ Separable s v := by
  induction hn : s.length using Nat.strong_induction_on generalizing s v with
  | _ n ih =>
    cases hs : s.dropWhile isDelimiter with
    | nil =>
      have hblank := List.dropWhile_eq_nil_iff.mp hs
      rw [runs_blank hblank]
      exact iff_of_true (.done hs) (.inl (plain_of_delimiters hblank))
    | cons c r =>
      rw [scans_pass hs, separable_pass hs, ih _ (hn ▸ length_afterRun hs) _ _ rfl]

/-- On such a line of the file the section gets the runs, one after the other. -/
theorem readEnum_runs {r : Reader} {line tail : List UInt8} (hbuf : r.strBuf = line ++ 0 :: tail)
    (hnul : 0 ∉ line) (hlen : line.length ≤ 256) (h : Separable line r.strValue) :
    ∃ strValue, readEnum r = (setAll r.strSection (runs isDelimiter line) r.conf).map fun conf =>
      { r with conf := { conf with configChange := true }, strValue := strValue } := by
  obtain ⟨fuel, t, hrun, -, hvalues⟩ := (tokenised_iff_scans hnul).mpr ((scans_iff _ _).mpr h)
  have hfew := length_runs_le (p := isDelimiter) line
  have hall := tokenLoop_fuel (m := 257) hrun (by rw [hvalues]; omega)
  rw [← hbuf] at hall
  refine ⟨t.strValue, ?_⟩
  rw [readEnum, enumLoop_tokens, hall, Option.bind_some, hvalues, Option.map_map]
  rfl

/-- The loop ends on the line with exactly its words if, and only if, the line has neither
a vertical tab nor a form feed, or is white space whose runs are what `strValue` held. -/
theorem tokenised_iff (line tail strValue : List UInt8) (hnul : 0 ∉ line) :
    Tokenised line tail strValue ↔ (11 ∉ line ∧ 12 ∉ line) ∨
      (∀ c ∈ line, isSpace c = true) ∧ ∀ w ∈ runs isDelimiter line, w = strValue := by
  rw [tokenised_iff_scans hnul, scans_iff, Separable, plain_def]

/-- `"a b\n"` -/
theorem two_words : Tokenised [97, 32, 98, 10] [] [] :=
  (tokenised_iff [97, 32, 98, 10] [] [] (by decide)).mpr (.inl ⟨by decide, by decide⟩)

/-- `"a\vb\n"` is one run and two words. -/
theorem tab_divides : ¬ ∀ line tail strValue : List UInt8, 0 ∉ line → 61 ∉ line →
    firstValidChar line ∉ [0, 91, 35, 59] → line.length ≤ 254 → Tokenised line tail strValue := by
  intro h
  have hline := h [97, 11, 98, 10] [] [] (by decide) (by decide) (by decide) (by decide)
  rw [tokenised_iff_scans (by decide), scans_iff] at hline
  rcases hline with hplain | ⟨hspace, -⟩
  · exact hplain.noTab (by decide)
  · exact absurd (hspace 97 (by decide)) (by decide)

end NetmtIniEnum
