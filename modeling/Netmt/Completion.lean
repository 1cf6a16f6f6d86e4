import Netmt.Cli

/-!
# Completion of a word

`cmd_complete_command`: the words in front leave the commands that they fit, and the
descriptors of those at the last place which the last word begins are what it can become.
-/
namespace NetmtCompletion

open NetmtCli

/-- `is_cmd_ambiguous`: what it returns, and the vector it leaves; where it returns early the
rest of the vector stays. -/
def ambiguousLeft (m : Matchers) (command : CString) (index : Nat) (type : MatchType) :
    List Element → Option Desc → Option Refusal × List Element
  | [], _ => (none, [])
  | e :: v, matched =>
    match ((e.strvec[index]?).getD []).foldlM (ambiguousDesc m command type) (matched, false) with
    | .error r => (some r, e :: v)
    | .ok s =>
      let rest := ambiguousLeft m command index type v s.1
      (rest.1, if s.2 then e :: rest.2 else rest.2)

/-- The commands that the words in front leave; none where one of them is ambiguous. -/
def filterWords (m : Matchers) : Nat → List CString → List Element → Option (List Element)
  | _, [], v => some v
  | i, command :: vline, v =>
    let r := cmdFilterByCompletion m command v i
    match ambiguousLeft m command i r.1 r.2 none with
    | (some .ambiguous, _) => none
    | (_, v') => filterWords m (i + 1) vline v'

/-- `cmd_entry_function` -/
def cmdEntryFunction (src : Option CString) (dst : Desc) : Option Desc :=
  if CMD_OPTION dst || CMD_VARIABLE dst || CMD_VARARG dst || CMD_IPV4 dst || CMD_IPV4_PREFIX dst ||
    CMD_RANGE dst then none
  else match src with
    | none => some dst
    | some src => if abbreviates src dst then some dst else none

/-- `if (cmd_unique_string (matchvec, string)) vector_set (matchvec, string)` -/
def setUnique (matchvec : List Desc) (string : Desc) : List Desc :=
  if matchvec.contains string then matchvec else matchvec ++ [string]

/-- The loop that fills `matchvec`. -/
def matchStrings (index : Nat) (src : Option CString) (v : List Element) : List Desc :=
  ((v.flatMap fun e => (e.strvec[index]?).getD []).filterMap (cmdEntryFunction src)).foldl
    setUnique []

/-- The loop over the characters of two strings. -/
def common : Desc → Desc → Nat
  | c1 :: s1, c2 :: s2 => if c1 = c2 then common s1 s2 + 1 else 0
  | _, _ => 0

def lcdLoop : Int → Desc → List Desc → Int
  | lcd, _, [] => lcd
  | lcd, s1, s2 :: matched =>
    let j : Int := common s1 s2
    lcdLoop (if lcd < 0 then j else if lcd > j then j else lcd) s2 matched

/-- `cmd_lcd` -/
def cmdLcd : List Desc → Int
  | s1 :: s2 :: matched => lcdLoop (-1) s1 (s2 :: matched)
  | _ => 0

inductive Completion where
  | CMD_ERR_AMBIGUOUS | CMD_ERR_NO_MATCH | CMD_ERR_NOTHING_TODO
  | CMD_COMPLETE_FULL_MATCH (matched : Desc)
  | CMD_COMPLETE_MATCH (matched : Desc)
  | CMD_COMPLETE_LIST_MATCH (matched : List Desc)
  deriving DecidableEq

/-- `cmd_complete_command` for the words `vline` and the slot behind them, which is empty
behind a blank. -/
def cmdCompleteCommand (m : Matchers) (cmdvec : List Element) (vline : List CString)
    (src : Option CString) : Completion :=
  match filterWords m 0 vline cmdvec with
  | none => .CMD_ERR_AMBIGUOUS
  | some v =>
    match matchStrings vline.length src v with
    | [] => if src = none then .CMD_ERR_NOTHING_TODO else .CMD_ERR_NO_MATCH
    | [s] => .CMD_COMPLETE_FULL_MATCH s
    | s :: matchvec =>
      match src with
      | none => .CMD_COMPLETE_LIST_MATCH (s :: matchvec)
      | some word =>
        let lcd := cmdLcd (s :: matchvec)
        if lcd ≠ 0 ∧ (word.bytes.length : Int) < lcd then .CMD_COMPLETE_MATCH (s.take lcd.toNat)
        else .CMD_COMPLETE_LIST_MATCH (s :: matchvec)

/-! ## The candidates -/

/-- A descriptor at the place that the last word can become. -/
def Candidate (index : Nat) (src : Option CString) (v : List Element) (s : Desc) : Prop :=
  ∃ e ∈ v, ∃ desc ∈ (e.strvec[index]?).getD [], cmdEntryFunction src desc = some s

theorem entry_self {src : Option CString} {dst s : Desc} (h : cmdEntryFunction src dst = some s) :
    s = dst := by
  unfold cmdEntryFunction at h
  split at h
  · cases h
  · split at h
    · exact (Option.some.inj h).symm
    · split at h
      · exact (Option.some.inj h).symm
      · cases h

/-- A candidate begins with the word. -/
theorem entry_starts {word : CString} {dst s : Desc}
    (h : cmdEntryFunction (some word) dst = some s) :
    word.bytes <+: s := by
  obtain rfl := entry_self h
  unfold cmdEntryFunction at h
  split at h
  · cases h
  · simp only at h
    split at h
    · next hword => exact List.isPrefixOf_iff_prefix.mp hword
    · cases h

theorem mem_setUnique (matchvec : List Desc) (string s : Desc) :
    s ∈ setUnique matchvec string ↔ s ∈ matchvec ∨ s = string := by
  rw [setUnique]
  split
  · next hin =>
    constructor
    · exact fun h => .inl h
    · rintro (h | rfl)
      · exact h
      · exact List.contains_iff_mem.mp hin
  · simp

theorem nodup_setUnique {matchvec : List Desc} (h : matchvec.Nodup) (string : Desc) :
    (setUnique matchvec string).Nodup := by
  rw [setUnique]
  split
  · exact h
  · next hout =>
    refine List.nodup_append.mpr
      ⟨h, by simp, fun a ha b hb heq => hout (List.contains_iff_mem.mpr ?_)⟩
    rw [← List.mem_singleton.mp hb, ← heq]
    exact ha

theorem foldl_setUnique (l : List Desc) : ∀ matchvec : List Desc, matchvec.Nodup →
    (l.foldl setUnique matchvec).Nodup ∧ ∀ s, s ∈ l.foldl setUnique matchvec ↔
    s ∈ matchvec ∨ s ∈ l := by
  induction l with
  | nil => exact fun matchvec h => ⟨h, fun s => by simp⟩
  | cons string l ih =>
    intro matchvec h
    obtain ⟨hnodup, hmem⟩ := ih (setUnique matchvec string) (nodup_setUnique h string)
    refine ⟨hnodup, fun s => ?_⟩
    rw [List.foldl_cons, hmem s, mem_setUnique, List.mem_cons, or_assoc]

theorem nodup_matchStrings (index : Nat) (src : Option CString) (v : List Element) :
    (matchStrings index src v).Nodup :=
  (foldl_setUnique _ [] List.nodup_nil).1

theorem mem_matchStrings (index : Nat) (src : Option CString) (v : List Element) (s : Desc) :
    s ∈ matchStrings index src v ↔ Candidate index src v s := by
  rw [matchStrings, (foldl_setUnique _ [] List.nodup_nil).2 s]
  simp only [List.not_mem_nil, false_or, List.mem_filterMap, List.mem_flatMap, Candidate]
  constructor
  · rintro ⟨desc, ⟨e, he, hdesc⟩, hentry⟩
    exact ⟨e, he, desc, hdesc, hentry⟩
  · rintro ⟨e, he, desc, hdesc, hentry⟩
    exact ⟨desc, ⟨e, he, hdesc⟩, hentry⟩

/-! ## The longest common part -/

/-- `k` characters that two strings have in common. -/
theorem le_common (s t : Desc) (k : Nat) : k ≤ common s t ↔ s.take k <+: t ∧ k ≤ s.length := by
  induction s generalizing t k with
  | nil => cases k <;> simp [common]
  | cons c s ih =>
    cases k with
    | zero => simp
    | succ k =>
      cases t with
      | nil => simp [common]
      | cons d t =>
        rw [common, List.take_succ_cons, List.cons_prefix_cons, List.length_cons]
        by_cases hc : c = d
        · rw [if_pos hc, Nat.add_le_add_iff_right, ih t k, Nat.add_le_add_iff_right,
            and_iff_right hc]
        · simp [hc]

theorem take_of_common {s t : Desc} {k : Nat} (h : k ≤ common s t) :
    t.take k = s.take k ∧ k ≤ t.length := by
  obtain ⟨hstarts, hk⟩ := (le_common s t k).mp h
  have hlength : (s.take k).length = k := by
    rw [List.length_take]
    omega
  constructor
  · have htake := List.prefix_iff_eq_take.mp hstarts
    rw [hlength] at htake
    exact htake.symm
  · have hle := hstarts.length_le
    omega

theorem lcdLoop_le (matched : List Desc) : ∀ (s : Desc) (lcd : Int), 0 ≤ lcd →
    0 ≤ lcdLoop lcd s matched ∧ lcdLoop lcd s matched ≤ lcd := by
  induction matched with
  | nil => exact fun _ _ hlcd => ⟨hlcd, Int.le_refl _⟩
  | cons t matched ih =>
    intro s lcd hlcd
    rw [lcdLoop, if_neg (show ¬ lcd < 0 by omega)]
    by_cases hmore : lcd > common s t
    · rw [if_pos hmore]
      obtain ⟨hpos, hle⟩ := ih t (common s t) (by omega)
      exact ⟨hpos, by omega⟩
    · rw [if_neg hmore]
      exact ih t lcd hlcd

/-- The front that strings share with the first one, by way of the ones between. -/
theorem le_lcdLoop (matched : List Desc) :
    ∀ (s : Desc) (lcd : Int) (k : Nat), k ≤ s.length → 0 ≤ lcd →
    ((k : Int) ≤ lcdLoop lcd s matched ↔ (k : Int) ≤ lcd ∧ ∀ t ∈ matched, s.take k <+: t) := by
  induction matched with
  | nil => exact fun s lcd k _ _ => by simp [lcdLoop]
  | cons t matched ih =>
    intro s lcd k hk hlcd
    rw [lcdLoop, if_neg (show ¬ lcd < 0 by omega)]
    generalize hj : (if lcd > (common s t : Int) then (common s t : Int) else lcd) = j
    have hj' : 0 ≤ j ∧ (j ≤ lcd ∧ j ≤ common s t) ∧ (j = lcd ∨ j = common s t) := by
      split at hj <;> omega
    obtain ⟨hpos, hboth, hone⟩ := hj'
    by_cases hshare : k ≤ common s t
    · obtain ⟨htake, hkt⟩ := take_of_common hshare
      have hstarts := ((le_common s t k).mp hshare).1
      have hkj : (k : Int) ≤ j ↔ (k : Int) ≤ lcd := by omega
      rw [ih t j k hkt hpos, htake, hkj, List.forall_mem_cons, and_iff_right hstarts]
    · constructor
      · intro h
        have hle := (lcdLoop_le matched t j hpos).2
        omega
      · exact fun h => absurd ((le_common s t k).mpr ⟨h.2 t List.mem_cons_self, hk⟩) hshare

/-- `cmd_lcd` of two strings or more: how far they all agree. -/
theorem le_cmdLcd (s1 s2 : Desc) (matched : List Desc) :
    0 ≤ cmdLcd (s1 :: s2 :: matched) ∧ ∀ k : Nat, k ≤ s1.length →
      ((k : Int) ≤ cmdLcd (s1 :: s2 :: matched) ↔ ∀ t ∈ s2 :: matched, s1.take k <+: t) := by
  have hfirst : cmdLcd (s1 :: s2 :: matched) = lcdLoop (common s1 s2) s2 matched := by
    rw [cmdLcd, lcdLoop, if_pos (by decide)]
  rw [hfirst]
  refine ⟨(lcdLoop_le matched s2 _ (by omega)).1, fun k hk => ?_⟩
  by_cases hshare : k ≤ common s1 s2
  · obtain ⟨htake, hk2⟩ := take_of_common hshare
    have hstarts := ((le_common s1 s2 k).mp hshare).1
    rw [le_lcdLoop matched s2 _ k hk2 (by omega), htake, List.forall_mem_cons,
      and_iff_right hstarts]
    exact and_iff_right (by omega)
  · constructor
    · intro h
      have hle := (lcdLoop_le matched s2 (common s1 s2) (by omega)).2
      omega
    · exact fun h => absurd ((le_common s1 s2 k).mpr ⟨h s2 List.mem_cons_self, hk⟩) hshare

theorem cmdLcd_le (s1 s2 : Desc) (matched : List Desc) :
    (cmdLcd (s1 :: s2 :: matched)).toNat ≤ s1.length := by
  have hle := (lcdLoop_le matched s2 (common s1 s2) (by omega)).2
  have hlength := ((le_common s1 s2 (common s1 s2)).mp (Nat.le_refl _)).2
  rw [cmdLcd, lcdLoop, if_pos (by decide)]
  omega

/-- What is in front of all of them, and nothing longer is. -/
structure LongestCommon (matched : List Desc) (front : Desc) : Prop where
  shared : ∀ s ∈ matched, front <+: s
  longest : ∀ u : Desc, (∀ s ∈ matched, u <+: s) → u <+: front

theorem cmdLcd_longest (s1 s2 : Desc) (matched : List Desc) :
    LongestCommon (s1 :: s2 :: matched) (s1.take (cmdLcd (s1 :: s2 :: matched)).toNat) := by
  obtain ⟨hpos, hiff⟩ := le_cmdLcd s1 s2 matched
  constructor
  · rw [List.forall_mem_cons]
    exact ⟨List.take_prefix _ _, (hiff _ (cmdLcd_le s1 s2 matched)).mp (by omega)⟩
  · intro u hu
    rw [List.forall_mem_cons] at hu
    have htake : u = s1.take u.length := List.prefix_iff_eq_take.mp hu.1
    have hle := (hiff u.length hu.1.length_le).mpr (htake ▸ hu.2)
    rw [htake]
    exact List.take_prefix_take_left (by omega)

/-! ## What a completion is -/

/-- Each answer, by the commands `v` that the words in front leave. -/
def Answers (index : Nat) (src : Option CString) (left : Option (List Element)) : Completion → Prop
  | .CMD_ERR_AMBIGUOUS => left = none
  | .CMD_ERR_NO_MATCH => ∃ v, left = some v ∧ src ≠ none ∧ ∀ s, ¬ Candidate index src v s
  | .CMD_ERR_NOTHING_TODO => ∃ v, left = some v ∧ src = none ∧ ∀ s, ¬ Candidate index src v s
  | .CMD_COMPLETE_FULL_MATCH s => ∃ v, left = some v ∧ ∀ t, Candidate index src v t ↔ t = s
  | .CMD_COMPLETE_MATCH front => ∃ v word matched, left = some v ∧ src = some word ∧
      2 ≤ matched.length ∧ matched.Nodup ∧
      (∀ s, Candidate index src v s ↔ s ∈ matched) ∧ LongestCommon matched front ∧
      word.bytes.length < front.length
  | .CMD_COMPLETE_LIST_MATCH matched => ∃ v, left = some v ∧ 2 ≤ matched.length ∧ matched.Nodup ∧
      (∀ s, Candidate index src v s ↔ s ∈ matched) ∧ ∀ word, src = some word →
      LongestCommon matched word.bytes

theorem candidate_starts {index : Nat} {word : CString} {v : List Element} {s : Desc}
    (h : Candidate index (some word) v s) :
    word.bytes <+: s := by
  obtain ⟨e, -, desc, -, hentry⟩ := h
  exact entry_starts hentry

/-- What a word becomes is what every command that fits has there, and no more than that. -/
theorem completion_exact (m : Matchers) (cmdvec : List Element) (vline : List CString)
    (src : Option CString) :
    Answers vline.length src (filterWords m 0 vline cmdvec)
      (cmdCompleteCommand m cmdvec vline src) := by
  cases hleft : filterWords m 0 vline cmdvec with
  | none =>
    simp only [cmdCompleteCommand, hleft]
    rfl
  | some v =>
    have hmem := mem_matchStrings vline.length src v
    have hnodup := nodup_matchStrings vline.length src v
    cases hmatched : matchStrings vline.length src v with
    | nil =>
      rw [hmatched] at hmem
      have hnone : ∀ s, ¬ Candidate vline.length src v s :=
        fun s h => List.not_mem_nil ((hmem s).mpr h)
      by_cases hsrc : src = none
      · simp only [cmdCompleteCommand, hleft, hmatched, if_pos hsrc]
        exact ⟨v, rfl, hsrc, hnone⟩
      · simp only [cmdCompleteCommand, hleft, hmatched, if_neg hsrc]
        exact ⟨v, rfl, hsrc, hnone⟩
    | cons s1 rest =>
    cases rest with
    | nil =>
      rw [hmatched] at hmem
      simp only [cmdCompleteCommand, hleft, hmatched]
      exact ⟨v, rfl, fun t => by rw [← hmem t, List.mem_singleton]⟩
    | cons s2 matched =>
      rw [hmatched] at hmem hnodup
      have htwo : 2 ≤ (s1 :: s2 :: matched).length := by
        rw [List.length_cons, List.length_cons]
        omega
      have hcand : ∀ s, Candidate vline.length src v s ↔ s ∈ s1 :: s2 :: matched :=
        fun s => (hmem s).symm
      cases src with
      | none =>
        simp only [cmdCompleteCommand, hleft, hmatched]
        exact ⟨v, rfl, htwo, hnodup, hcand, fun word hword => (by cases hword)⟩
      | some word =>
        have hword : ∀ s ∈ s1 :: s2 :: matched, word.bytes <+: s :=
          fun s hs => candidate_starts ((hcand s).mpr hs)
        have hlongest := cmdLcd_longest s1 s2 matched
        have hle := cmdLcd_le s1 s2 matched
        have hlength : (s1.take (cmdLcd (s1 :: s2 :: matched)).toNat).length =
            (cmdLcd (s1 :: s2 :: matched)).toNat := by
          rw [List.length_take]
          omega
        by_cases hmore : cmdLcd (s1 :: s2 :: matched) ≠ 0 ∧ (word.bytes.length : Int) <
          cmdLcd (s1 :: s2 :: matched)
        · simp only [cmdCompleteCommand, hleft, hmatched, if_pos hmore]
          exact ⟨v, word, s1 :: s2 :: matched, rfl, rfl, htwo, hnodup, hcand, hlongest, by omega⟩
        · simp only [cmdCompleteCommand, hleft, hmatched, if_neg hmore]
          refine ⟨v, rfl, htwo, hnodup, hcand, fun word' hsrc => ?_⟩
          obtain rfl := Option.some.inj hsrc
          have hpre := hlongest.longest word.bytes hword
          have hsame : word.bytes = s1.take (cmdLcd (s1 :: s2 :: matched)).toNat := by
            refine hpre.eq_of_length_le ?_
            have hpos := (le_cmdLcd s1 s2 matched).1
            omega
          rw [hsame]
          exact hlongest

end NetmtCompletion
