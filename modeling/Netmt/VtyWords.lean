import Netmt.VtyGood

/-!
# The words of a line

Tab and `?` cut the line into words. The last one is what is behind the last blank, so what
Tab puts over it comes behind all that was typed.
-/
namespace NetmtVtyWords

open NetmtVty NetmtVtyEdit NetmtVtyGood NetmtCli NetmtCompletion
open CString (isSpace)

/-! ## The last word -/

/-- The characters behind the last white space. -/
def lastRun (t : List UInt8) : List UInt8 := t.reverse.takeWhile fun c => !isSpace c

theorem lastRun_append {a b : List UInt8} (ha : ∀ c, a.getLast? = some c → isSpace c = true) :
    lastRun (a ++ b) = lastRun b := by
  have hfront : a.reverse.takeWhile (fun c => !isSpace c) = [] := by
    cases hrev : a.reverse with
    | nil => rfl
    | cons c r =>
      have hc : isSpace c = true :=
        ha c (by rw [List.getLast?_eq_head?_reverse, hrev, List.head?_cons])
      rw [List.takeWhile_cons_of_neg (by rw [hc]; exact Bool.false_ne_true)]
  rw [lastRun, List.reverse_append, List.takeWhile_append, hfront, List.append_nil]
  split
  · next hall => exact ((List.takeWhile_prefix _).eq_of_length hall).symm
  · rfl

theorem getLast_spaces {t : List UInt8} {c : UInt8} (h : (t.takeWhile isSpace).getLast? = some c) :
    isSpace c = true :=
  List.mem_takeWhile_imp (List.mem_of_getLast? h)

/-- What is in front of the next word ends in white space. -/
theorem word_split {t : List UInt8} (ht : t ≠ []) : ∃ front rest,
    (t.dropWhile fun c => !isSpace c).dropWhile isSpace = rest ∧ t = front ++ rest ∧ front ≠ [] ∧
      (rest ≠ [] → ∀ c, front.getLast? = some c → isSpace c = true) ∧
      (rest = [] → ∀ c, t.getLast? = some c → isSpace c = false →
        t.takeWhile (fun c => !isSpace c) = t) := by
  have htoken : t.takeWhile (fun c => !isSpace c) ++ t.dropWhile (fun c => !isSpace c) = t :=
    List.takeWhile_append_dropWhile
  cases hd : t.dropWhile fun c => !isSpace c with
  | nil =>
    rw [hd, List.append_nil] at htoken
    exact ⟨t, [], rfl, (List.append_nil t).symm, ht, fun hne => absurd rfl hne, fun _ _ _ _ =>
      htoken⟩
  | cons c d =>
    have hc : isSpace c = true := by
      have hhead := List.head?_dropWhile_not (fun c => !isSpace c) t
      rw [hd] at hhead
      simpa using hhead
    have hcut : (c :: d).takeWhile isSpace ++ (c :: d).dropWhile isSpace = c :: d :=
      List.takeWhile_append_dropWhile
    have hspaces : (c :: d).takeWhile isSpace ≠ [] := by
      rw [List.takeWhile_cons_of_pos hc]
      exact List.cons_ne_nil c _
    rw [hd, ← hcut, ← List.append_assoc] at htoken
    refine ⟨t.takeWhile (fun c => !isSpace c) ++ (c :: d).takeWhile isSpace,
      (c :: d).dropWhile isSpace, rfl, htoken.symm, ?_, ?_, ?_⟩
    · exact List.append_ne_nil_of_right_ne_nil _ hspaces
    · intro _ b hb
      rw [List.getLast?_append_of_ne_nil _ hspaces] at hb
      exact getLast_spaces hb
    · intro hnone b hb hword
      rw [← htoken, hnone, List.append_nil, List.getLast?_append_of_ne_nil _ hspaces] at hb
      rw [getLast_spaces hb] at hword
      cases hword

theorem pieces_last (n : Nat) : ∀ cp : CString, cp.bytes.length ≤ n → cp.bytes ≠ [] →
    (∀ c, cp.bytes.getLast? = some c → isSpace c = false) →
    ∃ w, (pieces n cp).getLast? = some w ∧ w.bytes = (lastRun cp.bytes).reverse := by
  induction n with
  | zero => exact fun cp hle hne _ => absurd (List.length_eq_zero_iff.mp (Nat.le_zero.mp hle)) hne
  | succ n ih =>
    intro cp hle hne hlast
    obtain ⟨front, rest, hrest, hcut, hfront, hspace, hwhole⟩ := word_split hne
    rw [pieces]
    by_cases hdone : rest = []
    · have hbytes : (dropWhile isSpace (dropWhile (fun c => !isSpace c) cp)).bytes = [] :=
        hrest.trans hdone
      rw [if_pos hbytes]
      refine ⟨_, rfl, ?_⟩
      have hc : cp.bytes.getLast? = some (cp.bytes.getLast hne) := List.getLast?_eq_some_getLast hne
      have htoken : (takeWhile (fun c => !isSpace c) cp).bytes = cp.bytes :=
        hwhole hdone _ hc (hlast _ hc)
      have hall : ∀ b ∈ cp.bytes.reverse, (!isSpace b) = true := fun b hb => by
        rw [List.mem_reverse, ← htoken] at hb
        exact List.mem_takeWhile_imp (p := fun c => !isSpace c) hb
      rw [lastRun, List.takeWhile_eq_self_iff.mpr hall, List.reverse_reverse]
      exact htoken
    · have hbytes : (dropWhile isSpace (dropWhile (fun c => !isSpace c) cp)).bytes = rest := hrest
      have hsmall : rest.length ≤ n := by
        have hlength := congrArg List.length hcut
        have hpos := List.length_pos_iff.mpr hfront
        rw [List.length_append] at hlength
        omega
      obtain ⟨w, hw, hrun⟩ :=
        ih (dropWhile isSpace (dropWhile (fun c => !isSpace c) cp)) (by rwa [hbytes])
          (by rwa [hbytes])
        (fun c hc => hlast c (by rw [hcut, List.getLast?_append_of_ne_nil _ hdone, ← hbytes, hc]))
      rw [if_neg (by rwa [hbytes])]
      refine ⟨w, by rw [List.getLast?_cons, hw, Option.getD_some], ?_⟩
      rw [hcut, lastRun_append (hspace hdone), ← hbytes]
      exact hrun

/-- The last word of a line that does not end in white space is what is behind the last
white space. -/
theorem strvec_last {line : CString} {vline : List CString} (h : cmdMakeStrvec line = some vline) :
    line.bytes ≠ [] ∧
    ((∀ c, line.bytes.getLast? = some c → isSpace c = false) →
      ∃ w, vline.getLast? = some w ∧ w.bytes = (lastRun line.bytes).reverse) := by
  have hcut : line.bytes.takeWhile isSpace ++ line.bytes.dropWhile isSpace = line.bytes :=
    List.takeWhile_append_dropWhile
  unfold cmdMakeStrvec at h
  simp only at h
  split at h
  · cases h
  · next hne =>
    split at h
    · cases h
    · cases h
      have hrest : line.bytes.dropWhile isSpace ≠ [] := hne
      refine ⟨fun hnil => hrest (by rw [hnil]; rfl), fun hlast => ?_⟩
      obtain ⟨w, hw, hrun⟩ := pieces_last _ (dropWhile isSpace line) (Nat.le_refl _) hne fun c hc =>
        hlast c (by rw [← hcut, List.getLast?_append_of_ne_nil _ hrest]; exact hc)
      refine ⟨w, hw, ?_⟩
      rw [← hcut, lastRun_append fun c hc => getLast_spaces hc]
      exact hrun

/-! ## Candidates -/

theorem ambiguousLeft_sublist (m : Matchers) (command : CString) (index : Nat) (type : MatchType)
    (v : List Element) :
    ∀ matched, (ambiguousLeft m command index type v matched).2.Sublist v := by
  induction v with
  | nil => exact fun _ => List.Sublist.slnil
  | cons e v ih =>
    intro matched
    rw [ambiguousLeft]
    split
    · exact List.Sublist.refl _
    · simp only
      split
      · exact (ih _).cons_cons e
      · exact (ih _).cons e

theorem filterWords_subset (m : Matchers) (vline : List CString) :
    ∀ (i : Nat) (v v' : List Element),
    filterWords m i vline v = some v' → ∀ e ∈ v', e ∈ v := by
  induction vline with
  | nil =>
    intro i v v' h e he
    cases h
    exact he
  | cons command vline ih =>
    intro i v v' h e he
    rw [filterWords] at h
    have hleft := ambiguousLeft_sublist m command i (cmdFilterByCompletion m command v i).1
      (cmdFilterByCompletion m command v i).2 none
    split at h
    · cases h
    · next hrun =>
      rw [hrun] at hleft
      exact (mem_filtered.mp (hleft.subset (ih _ _ _ h e he))).1

/-- What Tab can put into the line is printable and fits into the buffer. -/
def Fitting (env : Env) (vty : Vty) : Prop :=
  ∀ e ∈ env.cmdvec vty.node, ∀ descvec ∈ e.strvec, ∀ desc ∈ descvec, Plain desc ∧
    vty.length + desc.length + 1 < vty.buf.length

theorem candidate_fits {env : Env} {vty : Vty} (h : Fitting env vty) {vline : List CString}
    {src : Option CString} {v : List Element}
    (hv : filterWords env.matchers 0 vline (env.cmdvec vty.node) = some v) {s : Desc}
    (hs : Candidate vline.length src v s) :
    Plain s ∧ vty.length + s.length + 1 < vty.buf.length := by
  obtain ⟨e, he, desc, hdesc, hentry⟩ := hs
  obtain rfl := entry_self hentry
  cases hplace : e.strvec[vline.length]? with
  | none =>
    rw [hplace] at hdesc
    exact absurd hdesc List.not_mem_nil
  | some descvec =>
    rw [hplace] at hdesc
    exact h e (filterWords_subset _ _ _ _ _ hv e he) descvec (List.mem_of_getElem? hplace) s hdesc

/-- Where the answer is a match, it begins with the word, is printable and fits. -/
theorem match_fits {env : Env} {vty : Vty} (h : Fitting env vty) {vline : List CString}
    {src : Option CString} {s : Desc}
    (hs : cmdCompleteCommand env.matchers (env.cmdvec vty.node) vline src =
      .CMD_COMPLETE_FULL_MATCH s ∨
      cmdCompleteCommand env.matchers (env.cmdvec vty.node) vline src = .CMD_COMPLETE_MATCH s) :
    Plain s ∧ vty.length + s.length + 1 < vty.buf.length ∧ ∀ word, src = some word →
      word.bytes <+: s := by
  have hexact := completion_exact env.matchers (env.cmdvec vty.node) vline src
  rcases hs with hs | hs
  · rw [hs] at hexact
    obtain ⟨v, hv, hone⟩ := hexact
    have hcand := (hone s).mpr rfl
    obtain ⟨hplain, hfits⟩ := candidate_fits h hv hcand
    refine ⟨hplain, hfits, ?_⟩
    rintro word rfl
    exact candidate_starts hcand
  · rw [hs] at hexact
    obtain ⟨v, word, matched, hv, rfl, htwo, -, hmem, hcommon, hlonger⟩ := hexact
    have hsome : ∃ t, t ∈ matched :=
      List.exists_mem_of_length_pos (Nat.lt_of_lt_of_le (by decide) htwo)
    obtain ⟨t, ht⟩ := hsome
    have hcand := (hmem t).mpr ht
    have hfront := hcommon.shared t ht
    obtain ⟨hplain, hfits⟩ := candidate_fits h hv hcand
    have hshort := hfront.length_le
    refine ⟨fun c hc => hplain c (hfront.subset hc), by omega, ?_⟩
    rintro _ ⟨⟩
    exact List.prefix_of_prefix_length_le (candidate_starts hcand) hfront (Nat.le_of_lt hlonger)

/-! ## Tab and `?` -/

theorem isSpace_plain {c : UInt8} (hc : Printable c) : isSpace c = isBlank true c := by
  have hlow : ¬ c ≤ 13 := fun hle => absurd (UInt8.lt_of_lt_of_le hc.1 hle) (by decide)
  simp [isSpace, isBlank, hlow]

theorem lastRun_plain {t : List UInt8} (ht : Plain t) :
    lastRun t = t.reverse.takeWhile (isBlank false) := by
  have hfront : ∀ l : List UInt8, (∀ c ∈ l, Printable c) → l.takeWhile (fun c => !isSpace c) =
      l.takeWhile (isBlank false) := by
    intro l
    induction l with
    | nil => exact fun _ => rfl
    | cons c l ih =>
      intro hl
      have hc : (!isSpace c) = isBlank false c := by
        rw [isSpace_plain (hl c List.mem_cons_self)]
        simp [isBlank]
      rw [List.takeWhile_cons, List.takeWhile_cons, hc, ih fun b hb =>
          hl b (List.mem_cons_of_mem c hb)]
  exact hfront t.reverse fun c hc => ht c (List.mem_reverse.mp hc)

theorem endsBlank_good {z : Zipper UInt8} {vty : Vty} (h : Good z vty) (hne : z.text ≠ []) :
    endsBlank vty = .ok (isSpace (z.text.getLast hne)) := by
  obtain ⟨n, hn⟩ := h.held
  have hpos := List.length_pos_iff.mpr hne
  have hlast : vty.buf[vty.length - 1]? = some (z.text.getLast hne) := by
    rw [← hn, line_buf, line_length, List.getElem?_append_left (by omega), List.getLast_eq_getElem,
      List.getElem?_eq_getElem]
  rw [endsBlank, if_neg (by rw [h.length]; omega), hlast]
  rfl

/-- `vty_describe_command` -/
theorem describe_good {z : Zipper UInt8} {vty : Vty} (h : Good z vty) (env : Env) :
    Leaves vty (.behind z.text) (vtyDescribeCommand env vty) := by
  obtain ⟨hfree, hstring⟩ := h.string vty rfl
  rw [vtyDescribeCommand, hstring]
  simp only [Except.bind]
  cases hwords : cmdMakeStrvec ⟨z.text, hfree⟩ with
  | none =>
    exact redraw_good h ⟨rfl, rfl, rfl, rfl⟩ ⟨⟨rfl, rfl, rfl, .inl rfl⟩, rfl, rfl⟩
      (rowOf_prompt _ _)
  | some vline =>
    have hne : z.text ≠ [] := (strvec_last hwords).1
    simp only [endsBlank_good h hne, Except.map]
    exact redraw_good h ⟨rfl, rfl, rfl, rfl⟩ ⟨⟨rfl, rfl, rfl, .inl rfl⟩, rfl, rfl⟩
      (rowOf_prompt _ _)

/-- The line is the same, or its end was typed by Tab. -/
def Completed (z z' : Zipper UInt8) : Prop := z' = z ∨ ∃ t, z.text <+: t ∧ z' = .behind t

/-- The line with `s` for its last word. -/
def replaced (t : List UInt8) (s : Desc) : List UInt8 :=
  (t.reverse.dropWhile (isBlank false)).reverse ++ s

theorem prefix_replaced {t : List UInt8} (ht : Plain t) {s : Desc}
    (hs : (lastRun t).reverse <+: s) : t <+: replaced t s := by
  have hcut : (t.reverse.dropWhile (isBlank false)).reverse ++ (lastRun t).reverse = t := by
    rw [lastRun_plain ht, ← List.reverse_append, List.takeWhile_append_dropWhile,
      List.reverse_reverse]
  obtain ⟨r, hr⟩ := hs
  exact ⟨r, by rw [replaced, ← hr, ← List.append_assoc, hcut]⟩

theorem length_replaced (t : List UInt8) (s : Desc) :
    (replaced t s).length ≤ t.length + s.length := by
  have hless : (t.reverse.dropWhile (isBlank false)).length ≤ t.length :=
    Nat.le_trans (List.dropWhile_sublist _).length_le (Nat.le_of_eq List.length_reverse)
  rw [replaced, List.length_append, List.length_reverse]
  omega

theorem plain_replaced {t : List UInt8} (ht : Plain t) {s : Desc} (hs : Plain s) :
    Plain (replaced t s) :=
  Plain.append
    (fun c hc =>
      ht c (List.mem_reverse.mp ((List.dropWhile_sublist _).subset (List.mem_reverse.mp hc)))) hs

/-- The line is drawn again and `s` comes over its last word, which `s` begins with. -/
theorem overwrite_becomes {vty : Vty} {z : Zipper UInt8} {n : Nat} (hz : Plain z.text) {s : Desc}
    (hs : Plain s) (hfits : s.length ≤ n) (hword : (lastRun z.text).reverse <+: s) :
    Becomes vty Row.blank (z.text.length + n) (.behind (replaced z.text s))
      ((vtyRedrawLine (line z n vty)).bind fun v =>
        (vtyBackwardPureWord v).bind (vtyInsertWordOverwrite s)) := by
  have hplain : Plain (Zipper.behind z.text).text := plain_behind hz
  have hbehind : Zipper.behind (replaced z.text s) =
      ⟨s.reverse ++ ((Zipper.behind z.text).backwardWhile (isBlank false)).before, []⟩ := by
    simp [Zipper.behind, Zipper.backwardWhile, replaced]
  have hcover : ((Zipper.behind z.text).backwardWhile (isBlank false)).after.length ≤ s.length := by
    have hlength := hword.length_le
    rw [List.length_reverse, lastRun_plain hz] at hlength
    simpa [Zipper.behind, Zipper.backwardWhile] using hlength
  have hshort : ((Zipper.behind z.text).backwardWhile (isBlank false)).before.length ≤
      z.text.length := by
    have hlength := Zipper.length_text ((Zipper.behind z.text).backwardWhile (isBlank false))
    rw [Zipper.text_backwardWhile, Zipper.text_behind] at hlength
    omega
  rw [hbehind]
  refine (redraw_becomes hz).bind fun n' w hsize =>
    (pureWord_edits hplain).bind fun n'' w' hsize' => ?_
  refine overwriteWord_edits hs hcover ?_
  rw [Zipper.text_behind] at hsize hsize'
  omega

theorem bind_last (x : Except Halt Vty) (f g k : Vty → Except Halt Vty) :
    x.bind (fun v => (f v).bind fun v => (g v).bind k) = (x.bind fun v => (f v).bind g).bind k := by
  cases x with
  | error e => rfl
  | ok v =>
    simp only [Except.bind]
    cases f v <;> rfl

/-- `vty_complete_command` -/
theorem complete_good {z : Zipper UInt8} {vty : Vty} (h : Good z vty) {env : Env}
    (hfits : Fitting env vty) :
    ∃ z', Completed z z' ∧ Leaves vty z' (vtyCompleteCommand env vty) := by
  obtain ⟨hfree, hstring⟩ := h.string vty rfl
  have hkeeps : ∃ t, z.text <+: t ∧ Zipper.behind z.text = .behind t :=
    ⟨z.text, List.prefix_rfl, rfl⟩
  have hroom : ∀ n, line z n vty = vty → ∀ s : Desc, vty.length + s.length + 1 < vty.buf.length →
      s.length + 1 ≤ n := by
    intro n hn s hs
    rw [size_line hn, h.length] at hs
    omega
  rw [vtyCompleteCommand]
  split
  · exact ⟨z, .inl rfl, Leaves.stay h⟩
  · rw [hstring]
    simp only [Except.bind]
    cases hwords : cmdMakeStrvec ⟨z.text, hfree⟩ with
    | none => exact ⟨z, .inl rfl, Leaves.stay h⟩
    | some vline =>
      obtain ⟨hne, hlast⟩ := strvec_last hwords
      simp only [endsBlank_good h hne]
      have hword : ∀ s : Desc,
        (∀ word, (lastWord vline (isSpace (z.text.getLast hne))).2 = some word → word.bytes <+: s) →
          (lastRun z.text).reverse <+: s := by
        intro s hs
        cases hblank : isSpace (z.text.getLast hne) with
        | true =>
          have hnone : lastRun (z.text ++ []) = lastRun [] := lastRun_append fun c hc => by
            rw [List.getLast?_eq_some_getLast hne] at hc
            cases hc
            exact hblank
          rw [List.append_nil] at hnone
          rw [hnone]
          exact List.nil_prefix
        | false =>
          obtain ⟨w, hw, hrun⟩ := hlast fun c hc => by
            have hc' : some (z.text.getLast hne) = some c :=
              (List.getLast?_eq_some_getLast hne).symm.trans hc
            cases hc'
            exact hblank
          rw [hblank] at hs
          have hstarts := hs w hw
          rwa [hrun] at hstarts
      have hmatch := @match_fits env vty hfits (lastWord vline (isSpace (z.text.getLast hne))).1
        (lastWord vline (isSpace (z.text.getLast hne))).2
      cases hret : cmdCompleteCommand env.matchers (env.cmdvec vty.node)
        (lastWord vline (isSpace (z.text.getLast hne))).1
        (lastWord vline (isSpace (z.text.getLast hne))).2 with
      | CMD_ERR_AMBIGUOUS =>
        exact ⟨_, .inr hkeeps,
          redraw_good h ⟨rfl, rfl, rfl, rfl⟩ ⟨⟨rfl, rfl, rfl, .inl rfl⟩, rfl, rfl⟩
            (rowOf_prompt _ _)⟩
      | CMD_ERR_NO_MATCH =>
        exact ⟨_, .inr hkeeps,
          redraw_good h ⟨rfl, rfl, rfl, rfl⟩ ⟨⟨rfl, rfl, rfl, .inl rfl⟩, rfl, rfl⟩
            (rowOf_prompt _ _)⟩
      | CMD_ERR_NOTHING_TODO =>
        exact ⟨_, .inr hkeeps,
          redraw_good h ⟨rfl, rfl, rfl, rfl⟩ ⟨⟨rfl, rfl, rfl, .inl rfl⟩, rfl, rfl⟩
            (rowOf_prompt _ _)⟩
      | CMD_COMPLETE_LIST_MATCH matched =>
        exact ⟨_, .inr hkeeps,
          redraw_good h ⟨rfl, rfl, rfl, rfl⟩ ⟨⟨rfl, rfl, rfl, .inl rfl⟩, rfl, rfl⟩
            (rowOf_prompt _ _)⟩
      | CMD_COMPLETE_MATCH s =>
        obtain ⟨hplain, hshort, hstarts⟩ := hmatch (.inr hret)
        have hmade : Leaves vty (.behind (replaced z.text s))
          ((vtyRedrawLine (vtyPrompt (vtyOut VTY_NEWLINE vty))).bind fun v =>
            (vtyBackwardPureWord v).bind (vtyInsertWordOverwrite s)) :=
          h.drawn (f := fun v => (vtyRedrawLine v).bind fun v =>
            (vtyBackwardPureWord v).bind (vtyInsertWordOverwrite s))
            (vtyPrompt (vtyOut VTY_NEWLINE vty)) ⟨rfl, rfl, rfl, rfl⟩
              ⟨⟨rfl, rfl, rfl, .inl rfl⟩, rfl, rfl⟩ (rowOf_prompt _ _)
                (plain_behind (plain_replaced h.plain hplain))
            fun n hn => overwrite_becomes h.plain hplain (Nat.le_of_succ_le (hroom n hn s hshort))
              (hword s hstarts)
        exact ⟨_, .inr ⟨_, prefix_replaced h.plain (hword s hstarts), rfl⟩, hmade⟩
      | CMD_COMPLETE_FULL_MATCH s =>
        obtain ⟨hplain, hshort, hstarts⟩ := hmatch (.inl hret)
        have hspace : Printable 32 := ⟨by decide, by decide⟩
        have hplain' := plain_replaced h.plain hplain
        have hinsert : (Zipper.behind (replaced z.text s)).insert 32 =
            .behind (replaced z.text s ++ [32]) := by
          simp [Zipper.behind, Zipper.insert]
        have hmade : Leaves vty ((Zipper.behind (replaced z.text s)).insert 32)
            ((vtyRedrawLine (vtyPrompt (vtyOut VTY_NEWLINE vty))).bind fun v =>
              (vtyBackwardPureWord v).bind fun v =>
              (vtyInsertWordOverwrite s v).bind (vtySelfInsert env.grown 32)) := by
          refine h.drawn (f := fun v => (vtyRedrawLine v).bind fun v =>
            (vtyBackwardPureWord v).bind fun v =>
              (vtyInsertWordOverwrite s v).bind (vtySelfInsert env.grown 32))
            (vtyPrompt (vtyOut VTY_NEWLINE vty)) ⟨rfl, rfl, rfl, rfl⟩
              ⟨⟨rfl, rfl, rfl, .inl rfl⟩, rfl, rfl⟩ (rowOf_prompt _ _)
            (plain_insert (plain_behind hplain') hspace) fun n hn => ?_
          have hspare := hroom n hn s hshort
          have hover : Becomes (vtyPrompt (vtyOut VTY_NEWLINE vty)) _ (z.text.length + n) _ _ :=
            overwrite_becomes h.plain hplain (Nat.le_of_succ_le hspare) (hword s hstarts)
          have hinserted := hover.bind (f := vtySelfInsert env.grown 32) fun n' w hsize =>
              insert_edits (c := 32) (.inl ?_)
            (plain_behind hplain') hspace
          · rwa [← bind_last] at hinserted
          · have hle := length_replaced z.text s
            rw [Zipper.text_behind] at hsize
            omega
        exact ⟨_, .inr
          ⟨_, (prefix_replaced h.plain (hword s hstarts)).trans (List.prefix_append _ _), hinsert⟩,
          hmade⟩

end NetmtVtyWords
