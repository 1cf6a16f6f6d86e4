import Netmt.ExecResults
import Netmt.Lib.Cells

/-!
# Printing a result

`print_info_using_vty_format` cuts the buffer at each separator that it comes to,
until it stands at the one that was last before the first cut. `none` stands for an
access outside the buffer or through `NULL`, and for a loop that is not over after as
many passes as the buffer has bytes.
-/
namespace NetmtVtyFormat

open NetmtExecResults Cells

/-! ## The function -/

/-- The string at `p`. -/
def textFrom (mem : List UInt8) (p : Nat) : Option (List UInt8) :=
  if (0 : UInt8) ∈ mem.drop p then some (CString.ofField (mem.drop p)) else none

/-- `strchr(mem + p, c)`, with `none` for `NULL` in the result. -/
def strchr (mem : List UInt8) (p : Nat) (c : UInt8) : Option (Option Nat) :=
  (textFrom mem p).map fun text => ((text ++ [0]).idxOf? c).map fun i => p + i

/-- `strrchr(mem + p, c)` -/
def strrchr (mem : List UInt8) (p : Nat) (c : UInt8) : Option (Option Nat) :=
  (textFrom mem p).map fun text => (CString.strrchr c (text ++ [0])).map fun i => p + i

/-- What `vty_out(pvty, "%s\r", tmp)` is handed. -/
def vtyPiece (text : List UInt8) : List UInt8 := text ++ [13]

/-- The loop; `tmp`, the buffer and the pieces when it is over. -/
def printLoop (eol : UInt8) (last : Option Nat) :
    Nat → Option Nat → Nat → List UInt8 → List (List UInt8) →
    Option (Nat × List UInt8 × List (List UInt8))
  | 0, _, _, _, _ => none
  | fuel + 1, current, tmp, mem, out =>
    if current = last then some (tmp, mem, out)
    else
      current.bind fun p => (writeAt p 0 mem).bind fun mem => (textFrom mem tmp).bind fun text =>
        (strchr mem (p + 1) eol).bind fun current =>
          printLoop eol last fuel current (p + 1) mem (out ++ [vtyPiece text])

/-- `print_info_using_vty_format`: the pieces that are printed, and the buffer. -/
def printInfoUsingVtyFormat (mem : List UInt8) (eol : UInt8) :
    Option (List (List UInt8) × List UInt8) :=
  (strchr mem 0 eol).bind fun current => (strrchr mem 0 eol).bind fun last =>
    (printLoop eol last mem.length current 0 mem []).bind fun r =>
      (textFrom r.2.1 r.1).map fun text => (r.2.2 ++ [vtyPiece text], r.2.1)

/-! ## Strings inside the buffer -/

section Strings

variable {pre t rest : List UInt8} {eol : UInt8}

theorem textFrom_at (pre rest : List UInt8) (ht : (0 : UInt8) ∉ t) :
    textFrom (pre ++ (t ++ 0 :: rest)) pre.length = some t := by
  rw [textFrom, List.drop_left, ofField_cut ht, if_pos (by simp)]

theorem idxOf?_first {a b : List UInt8} (ha : eol ∉ a) :
    (a ++ eol :: b).idxOf? eol = some a.length := by
  induction a with
  | nil => simp [List.idxOf?_cons]
  | cons d a ih =>
    rw [List.mem_cons, not_or] at ha
    rw [List.cons_append, List.idxOf?_cons, if_neg (by simpa using Ne.symm ha.1), ih ha.2]
    rfl

theorem strchr_none (pre rest : List UInt8) (ht : (0 : UInt8) ∉ t) (heol : eol ≠ 0) (h : eol ∉ t) :
    strchr (pre ++ (t ++ 0 :: rest)) pre.length eol = some none := by
  have hnone : (t ++ [0]).idxOf? eol = none := by
    rw [List.idxOf?_eq_none_iff]
    simp [h, heol]
  rw [strchr, textFrom_at pre rest ht, Option.map_some, hnone, Option.map_none]

theorem strchr_some (pre rest : List UInt8) {a b : List UInt8}
    (ht : (0 : UInt8) ∉ a ++ eol :: b) (ha : eol ∉ a) :
    strchr (pre ++ (a ++ eol :: b ++ 0 :: rest)) pre.length eol =
      some (some (pre.length + a.length)) := by
  have hsome : (a ++ eol :: b ++ [0]).idxOf? eol = some a.length := by
    rw [List.append_assoc, List.cons_append]
    exact idxOf?_first ha
  rw [strchr, textFrom_at pre rest ht, Option.map_some, hsome, Option.map_some]

theorem strrchr_none (pre rest : List UInt8) (ht : (0 : UInt8) ∉ t) (heol : eol ≠ 0) (h : eol ∉ t) :
    strrchr (pre ++ (t ++ 0 :: rest)) pre.length eol = some none := by
  have hnone : CString.strrchr eol (t ++ [0]) = none := CString.strrchr_absent (by simp [h, heol])
  rw [strrchr, textFrom_at pre rest ht, Option.map_some, hnone, Option.map_none]

theorem strrchr_some (pre rest : List UInt8) {a b : List UInt8} (ht : (0 : UInt8) ∉ a ++ eol :: b)
    (heol : eol ≠ 0) (hb : eol ∉ b) :
    strrchr (pre ++ (a ++ eol :: b ++ 0 :: rest)) pre.length eol =
      some (some (pre.length + a.length)) := by
  have hsome : CString.strrchr eol (a ++ eol :: b ++ [0]) = some a.length := by
    rw [List.append_assoc, List.cons_append]
    exact CString.strrchr_last a (by simp [hb, heol])
  rw [strrchr, textFrom_at pre rest ht, Option.map_some, hsome, Option.map_some]

end Strings

/-! ## The loop -/

/-- A line that is cut off. -/
theorem vtyLines_cut {a b : List UInt8} (ha : (13 : UInt8) ∉ a) (hb : (13 : UInt8) ∈ b)
    (tmp : List UInt8) :
    vtyLines (a ++ 13 :: b) tmp = (tmp ++ a) :: vtyLines b [] := by
  induction a generalizing tmp with
  | nil => rw [List.nil_append, vtyLines, if_pos ⟨rfl, hb⟩, List.append_nil]
  | cons d a ih =>
    rw [List.mem_cons, not_or] at ha
    rw [List.cons_append, vtyLines, if_neg fun h => ha.1 h.1.symm, ih ha.2, List.append_assoc,
      List.singleton_append]

theorem vtyLines_none {t : List UInt8} (ht : (13 : UInt8) ∉ t) (tmp : List UInt8) :
    vtyLines t tmp = [tmp ++ t] := by
  induction t generalizing tmp with
  | nil => rw [vtyLines, List.append_nil]
  | cons d t ih =>
    rw [List.mem_cons, not_or] at ht
    rw [vtyLines, if_neg fun h => ht.1 h.1.symm, ih ht.2, List.append_assoc, List.singleton_append]

/-- The last carriage return stays in its line. -/
theorem vtyLines_one {a b : List UInt8} (ha : (13 : UInt8) ∉ a) (hb : (13 : UInt8) ∉ b)
    (tmp : List UInt8) :
    vtyLines (a ++ 13 :: b) tmp = [tmp ++ (a ++ 13 :: b)] := by
  induction a generalizing tmp with
  | nil =>
    rw [List.nil_append, vtyLines, if_neg fun h => hb h.2, vtyLines_none hb, List.append_assoc,
      List.singleton_append]
  | cons d a ih =>
    rw [List.mem_cons, not_or] at ha
    rw [List.cons_append, vtyLines, if_neg fun h => ha.1 h.1.symm, ih ha.2, List.append_assoc,
      List.singleton_append]

/-- One pass: the line in front of the separator is cut off and printed, and the next
separator is looked for behind it. -/
theorem printLoop_cut {eol : UInt8} {last : Option Nat} {pre a : List UInt8} (fuel : Nat)
    (hne : some (pre.length + a.length) ≠ last) (ha : (0 : UInt8) ∉ a) (tail : List UInt8)
    (out : List (List UInt8)) :
    printLoop eol last (fuel + 1) (some (pre.length + a.length)) pre.length
      (pre ++ (a ++ eol :: tail)) out =
      (strchr ((pre ++ a ++ [0]) ++ tail) (pre ++ a ++ [0]).length eol).bind fun current =>
        printLoop eol last fuel current (pre ++ a ++ [0]).length ((pre ++ a ++ [0]) ++ tail)
          (out ++ [vtyPiece a]) := by
  have hwrite : writeAt (pre.length + a.length) 0 (pre ++ (a ++ eol :: tail)) =
      some (pre ++ (a ++ 0 :: tail)) := by
    have hcell := writeAt_append (pre ++ a) 0 eol tail
    simpa using hcell
  have hbehind : pre ++ (a ++ 0 :: tail) = (pre ++ a ++ [0]) ++ tail := by simp
  have hlen : (pre ++ a ++ [0]).length = pre.length + a.length + 1 := by
    simp only [List.length_append, List.length_singleton]
  rw [printLoop, if_neg hne, Option.bind_some, hwrite, Option.bind_some, textFrom_at pre _ ha,
    Option.bind_some, hbehind, ← hlen]

/-- The loop and the piece behind it, from a place where the rest of the text lies. -/
theorem printLoop_run (fuel : Nat) (pre rest : List UInt8) {t : List UInt8} (ht : (0 : UInt8) ∉ t)
    (hfuel : t.length < fuel) {current last : Option Nat}
    (hcurrent : strchr (pre ++ (t ++ 0 :: rest)) pre.length 13 = some current)
    (hlast : strrchr (pre ++ (t ++ 0 :: rest)) pre.length 13 = some last)
    (out : List (List UInt8)) :
    ∃ mem', ((printLoop 13 last fuel current pre.length (pre ++ (t ++ 0 :: rest)) out).bind fun r =>
      (textFrom r.2.1 r.1).map fun text => (r.2.2 ++ [vtyPiece text], r.2.1)) =
        some (out ++ (vtyLines t []).map vtyPiece, mem') := by
  induction fuel generalizing pre t current out with
  | zero => exact absurd hfuel (Nat.not_lt_zero _)
  | succ fuel ih =>
    -- the loop is over where there is no separator, or where it stands at the last
    have hover : current = last → vtyLines t [] = [t] → ∃ mem',
        ((printLoop 13 last (fuel + 1) current pre.length (pre ++ (t ++ 0 :: rest)) out).bind
          fun r =>
          (textFrom r.2.1 r.1).map fun text => (r.2.2 ++ [vtyPiece text], r.2.1)) =
            some (out ++ (vtyLines t []).map vtyPiece, mem') := by
      intro heq hline
      refine ⟨pre ++ (t ++ 0 :: rest), ?_⟩
      rw [printLoop, if_pos heq, Option.bind_some, textFrom_at pre rest ht, hline]
      rfl
    by_cases hmem : (13 : UInt8) ∈ t
    · obtain ⟨a, b, rfl, ha⟩ := List.eq_append_cons_of_mem hmem
      rw [strchr_some pre rest ht ha] at hcurrent
      by_cases hb : (13 : UInt8) ∈ b
      · obtain ⟨b₁, b₂, rfl, hb₂⟩ := CString.exists_last hb
        have hcut : a ++ 13 :: (b₁ ++ 13 :: b₂) = (a ++ 13 :: b₁) ++ 13 :: b₂ := by simp
        have hend : last = some (pre.length + (a ++ 13 :: b₁).length) := by
          rw [hcut] at ht hlast
          rw [strrchr_some pre rest ht (by decide) hb₂] at hlast
          exact (Option.some.inj hlast).symm
        obtain rfl := Option.some.inj hcurrent
        have hne : some (pre.length + a.length) ≠ last := by
          rw [hend]
          simp only [List.length_append, List.length_cons, ne_eq, Option.some.injEq]
          omega
        have hfree : (0 : UInt8) ∉ a := fun h => ht (List.mem_append_left _ h)
        have hfree' : (0 : UInt8) ∉ b₁ ++ 13 :: b₂ := fun h =>
          ht (List.mem_append_right _ (List.mem_cons_of_mem 13 h))
        obtain ⟨current, hnext⟩ : ∃ current,
          strchr ((pre ++ a ++ [0]) ++ (b₁ ++ 13 :: b₂ ++ 0 :: rest))
            (pre ++ a ++ [0]).length 13 = some current := by
          rw [strchr, textFrom_at _ rest hfree']
          exact ⟨_, rfl⟩
        -- the last separator is still the last, as far behind the cut
        have hlast' : strrchr ((pre ++ a ++ [0]) ++ (b₁ ++ 13 :: b₂ ++ 0 :: rest))
            (pre ++ a ++ [0]).length 13 = some last := by
          rw [strrchr_some _ rest hfree' (by decide) hb₂, hend]
          simp only [List.length_append, List.length_cons, List.length_nil, Option.some.injEq]
          omega
        have hfuel' : (b₁ ++ 13 :: b₂).length < fuel := by
          simp only [List.length_append, List.length_cons] at hfuel ⊢
          omega
        obtain ⟨mem', hrun⟩ := ih (pre ++ a ++ [0]) hfree' hfuel' hnext hlast' (out ++ [vtyPiece a])
        refine ⟨mem', ?_⟩
        have hmemory : a ++ 13 :: (b₁ ++ 13 :: b₂) ++ 0 :: rest =
            a ++ 13 :: (b₁ ++ 13 :: b₂ ++ 0 :: rest) := by simp
        rw [hmemory, printLoop_cut fuel hne hfree, hnext, Option.bind_some, hrun,
          vtyLines_cut ha hb,
          List.map_cons, List.append_assoc, List.singleton_append, List.nil_append]
      · rw [strrchr_some pre rest ht (by decide) hb] at hlast
        exact hover (Option.some.inj (hcurrent.symm.trans hlast)) (vtyLines_one ha hb [])
    · rw [strchr_none pre rest ht (by decide) hmem] at hcurrent
      rw [strrchr_none pre rest ht (by decide) hmem] at hlast
      exact hover (Option.some.inj (hcurrent.symm.trans hlast)) (vtyLines_none hmem [])

/-- The function prints the lines of the text, each with a carriage return. -/
theorem print_lines (s rest : List UInt8) (hs : (0 : UInt8) ∉ s) : ∃ mem',
    printInfoUsingVtyFormat (s ++ 0 :: rest) 13 = some ((vtyLines s []).map vtyPiece, mem') := by
  have htext : textFrom (s ++ 0 :: rest) 0 = some s := textFrom_at [] rest hs
  obtain ⟨current, hcurrent⟩ : ∃ current, strchr (s ++ 0 :: rest) 0 13 = some current := by
    rw [strchr, htext]
    exact ⟨_, rfl⟩
  obtain ⟨last, hlast⟩ : ∃ last, strrchr (s ++ 0 :: rest) 0 13 = some last := by
    rw [strrchr, htext]
    exact ⟨_, rfl⟩
  have hfuel : s.length < (s ++ 0 :: rest).length := by
    rw [List.length_append, List.length_cons]
    omega
  obtain ⟨mem', hrun⟩ := printLoop_run (s ++ 0 :: rest).length [] rest hs hfuel hcurrent hlast []
  refine ⟨mem', ?_⟩
  rw [printInfoUsingVtyFormat, hcurrent, Option.bind_some, hlast, Option.bind_some]
  exact hrun

/-- The report of a client is what the function prints of its buffer. -/
theorem print_report (r : Report) (rest : List UInt8) (hbuffer : (0 : UInt8) ∉ r.buffer) :
    ∃ pieces mem', printInfoUsingVtyFormat (r.buffer ++ 0 :: rest) 13 = some (pieces, mem') ∧
    pieces.flatten = r.printed := by
  obtain ⟨mem', hrun⟩ := print_lines r.buffer rest hbuffer
  exact ⟨_, mem', hrun, List.flatMap_def.symm⟩

/-- Nothing of a result is lost: the function comes to its end, and the pieces are the
text with one carriage return behind it. -/
theorem print_loses_nothing (s : CString) (rest : List UInt8) : ∃ pieces mem',
    printInfoUsingVtyFormat (s.bytes ++ 0 :: rest) 13 = some (pieces, mem') ∧
      pieces.flatten = s.bytes ++ [13] := by
  obtain ⟨pieces, mem', hrun, hflat⟩ := print_report ⟨0, [], [], s.bytes⟩ rest s.nul_free
  exact ⟨pieces, mem', hrun, hflat.trans (printed_eq _)⟩

example : printInfoUsingVtyFormat [97, 13, 13, 98, 13, 0, 7] 13 =
    some ([[97, 13], [13], [98, 13, 13]], [97, 0, 0, 98, 13, 0, 7]) := by decide

end NetmtVtyFormat
