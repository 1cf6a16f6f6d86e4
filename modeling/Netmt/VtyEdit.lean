import Netmt.Vty

/-!
# Editing a line

Each edit of the buffer is an edit of the line that it holds, and the bytes that go to the
terminal make of the row that shows the line the row that shows what became of it.
-/
namespace NetmtVtyEdit

open NetmtVty

/-- A character that can be typed into a line. -/
def Printable (c : UInt8) : Prop := 31 < c ∧ c < 127

def Plain (t : List UInt8) : Prop := ∀ c ∈ t, Printable c

theorem Printable.ne {c : UInt8} (h : Printable c) : c ≠ 0 ∧ c ≠ 8 := by
  obtain ⟨hlow, -⟩ := h
  constructor
  · rintro rfl
    exact absurd hlow (by decide)
  · rintro rfl
    exact absurd hlow (by decide)

theorem Plain.no_back {t : List UInt8} (h : Plain t) : (8 : UInt8) ∉ t :=
  fun hin => (h 8 hin).ne.2 rfl

theorem Plain.no_nul {t : List UInt8} (h : Plain t) : (0 : UInt8) ∉ t :=
  fun hin => (h 0 hin).ne.1 rfl

theorem Plain.append {s t : List UInt8} (hs : Plain s) (ht : Plain t) : Plain (s ++ t) :=
  fun c hc =>
  (List.mem_append.mp hc).elim (hs c) (ht c)

/-! ## A terminal with a line in its buffer -/

/-- What the output leaves alone. -/
def setLine (buf : List UInt8) (cp length : Nat) (vty : Vty) : Vty :=
  { vty with buf := buf, cp := cp, length := length }

/-- The line in the buffer, and zeros behind it. -/
def line (z : Zipper UInt8) (n : Nat) (vty : Vty) : Vty :=
  setLine (z.text ++ List.replicate (n + 1) 0) z.before.length z.text.length vty

section Line

variable (z z' : Zipper UInt8) (n n' : Nat) (vty : Vty) (u w : List UInt8)

@[simp] theorem line_buf : (line z n vty).buf = z.text ++ List.replicate (n + 1) 0 := rfl
@[simp] theorem line_cp : (line z n vty).cp = z.before.length := rfl
@[simp] theorem line_length : (line z n vty).length = z.text.length := rfl
@[simp] theorem line_node : (line z n vty).node = vty.node := rfl
@[simp] theorem line_hist : (line z n vty).hist = vty.hist := rfl
@[simp] theorem line_hp : (line z n vty).hp = vty.hp := rfl
@[simp] theorem line_hindex : (line z n vty).hindex = vty.hindex := rfl
@[simp] theorem line_out : (line z n vty).out = vty.out := rfl
@[simp] theorem line_line : line z n (line z' n' vty) = line z n vty := rfl

theorem write_setLine (buf : List UInt8) (cp length : Nat) :
    vtyWrite w (setLine buf cp length vty) = setLine buf cp length (vtyWrite w vty) := by
  unfold vtyWrite
  rw [show (setLine buf cp length vty).node = vty.node from rfl]
  split <;> rfl

theorem write_line : vtyWrite w (line z n vty) = line z n (vtyWrite w vty) := write_setLine ..

theorem write_node : (vtyWrite w vty).node = vty.node := by
  unfold vtyWrite
  split <;> rfl

theorem write_hist : (vtyWrite w vty).hist = vty.hist := by
  unfold vtyWrite
  split <;> rfl

theorem write_hp : (vtyWrite w vty).hp = vty.hp := by
  unfold vtyWrite
  split <;> rfl

theorem write_nil : vtyWrite [] vty = vty := by
  unfold vtyWrite
  split
  · rfl
  · simp [Vty.emit]

theorem write_write : vtyWrite w (vtyWrite u vty) = vtyWrite (u ++ w) vty := by
  by_cases hauth : inAuth vty.node = true
  · simp only [vtyWrite, if_pos hauth]
  · have hnode : ¬ inAuth (vtyWrite u vty).node = true := by rwa [write_node]
    rw [vtyWrite, if_neg hnode, vtyWrite, vtyWrite, if_neg hauth, if_neg hauth]
    simp [Vty.emit, Nat.add_assoc]

end Line

/-- A line `z'` is in the buffer, which is not smaller than it was, and what went to the
terminal made of a row the row that shows the line. -/
def Becomes (vty : Vty) (row : Row) (size : Nat) (z' : Zipper UInt8) (r : Except Halt Vty) : Prop :=
  ∃ n' w, r = .ok (line z' n' (vtyWrite w vty)) ∧ size ≤ z'.text.length + n' ∧
    Row.write w row = Row.showing z'

/-- An edit makes `z'` of a line `z` that is shown. -/
abbrev Edited (vty : Vty) (z : Zipper UInt8) (n : Nat) (z' : Zipper UInt8)
    (r : Except Halt Vty) : Prop :=
  Becomes vty (Row.showing z) (z.text.length + n) z' r

section Edits

variable {vty : Vty} {z z' z'' : Zipper UInt8} {n : Nat} {r : Except Halt Vty}

theorem Edited.refl (vty : Vty) (z : Zipper UInt8) (n : Nat) :
    Edited vty z n z (.ok (line z n vty)) :=
  ⟨n, [], by rw [write_nil], Nat.le_refl _, rfl⟩

theorem Becomes.bind {row : Row} {size : Nat} {f : Vty → Except Halt Vty}
    (h : Becomes vty row size z' r)
    (hf : ∀ n' w, size ≤ z'.text.length + n' →
      Edited (vtyWrite w vty) z' n' z'' (f (line z' n' (vtyWrite w vty)))) :
    Becomes vty row size z'' (r.bind f) := by
  obtain ⟨n', w, rfl, hsize, hrow⟩ := h
  obtain ⟨n'', w', hrun, hsize', hrow'⟩ := hf n' w hsize
  refine ⟨n'', w ++ w', ?_, Nat.le_trans hsize hsize', ?_⟩
  · rw [← write_write]
    exact hrun
  · rw [Row.write_append, hrow, hrow']

/-! ## Moves of the cursor -/

theorem getElem_after {c : UInt8} {after : List UInt8} (hz : z.after = c :: after)
    (r : List UInt8) :
    (z.text ++ r)[z.before.length]? = some c := by
  rw [Zipper.text, hz, List.append_assoc,
    show z.before.length = z.before.reverse.length from List.length_reverse.symm,
    List.getElem?_append_right (Nat.le_refl _), Nat.sub_self]
  rfl

theorem getElem_before {c : UInt8} {before : List UInt8} (hz : z.before = c :: before)
    (r : List UInt8) :
    (z.text ++ r)[z.before.length - 1]? = some c := by
  have htext : z.text ++ r = before.reverse ++ c :: (z.after ++ r) := by simp [Zipper.text, hz]
  rw [htext, hz, List.length_cons, Nat.add_sub_cancel,
    show before.length = before.reverse.length from List.length_reverse.symm,
    List.getElem?_append_right (Nat.le_refl _), Nat.sub_self]
  rfl

theorem forward_edits (hz : Plain z.text) :
    Edited vty z n z.forward (vtyForwardChar (line z n vty)) := by
  have hlength := z.length_text
  cases hafter : z.after with
  | nil =>
    rw [hafter, List.length_nil] at hlength
    have hsame : z.forward = z := by rw [Zipper.forward, hafter]
    rw [vtyForwardChar, if_neg (by simp only [line_cp, line_length]; omega), hsame]
    exact Edited.refl vty z n
  | cons c after =>
    have hc : Printable c := hz c (by simp [Zipper.text, hafter])
    have hcp : z.forward.before.length = z.before.length + 1 := by simp [Zipper.forward, hafter]
    rw [hafter, List.length_cons] at hlength
    refine ⟨n, [c], ?_, by rw [Zipper.text_forward], Row.showing_forward hafter hc.ne.2⟩
    rw [vtyForwardChar, if_pos (by simp only [line_cp, line_length]; omega), line_buf, line_cp,
      getElem_after hafter, access]
    simp only [Except.map, write_line]
    rw [line, line, hcp, Zipper.text_forward]
    rfl

theorem backward_edits : Edited vty z n z.backward (.ok (vtyBackwardChar (line z n vty))) := by
  cases hbefore : z.before with
  | nil =>
    have hsame : z.backward = z := by rw [Zipper.backward, hbefore]
    rw [vtyBackwardChar, if_neg (by simp [hbefore]), hsame]
    exact Edited.refl vty z n
  | cons c before =>
    have hcp : z.backward.before.length = z.before.length - 1 := by simp [Zipper.backward, hbefore]
    refine ⟨n, [8], ?_, by rw [Zipper.text_backward], Row.showing_backward hbefore⟩
    have hline : ({ line z n vty with cp := z.before.length - 1 } : Vty) =
        line z.backward n vty := by
      rw [line, line, hcp, Zipper.text_backward]
      rfl
    rw [vtyBackwardChar, if_pos (by simp [hbefore]), line_cp, hline, write_line]
    rfl

/-! ## Loops -/

theorem while_step {cond : Vty → Except Halt Bool} {body : Vty → Except Halt Vty} {vty : Vty}
    {b : Bool} (h : cond vty = .ok b) (fuel : Nat) :
    whileDo cond body (fuel + 1) vty = if b then (body vty).bind (whileDo cond body fuel)
      else .ok vty := by
  rw [whileDo, h]
  rfl

/-- A loop of edits is an edit. -/
theorem while_edits {cond : Vty → Except Halt Bool} {body : Vty → Except Halt Vty}
    {goes : Zipper UInt8 → Bool} {next : Zipper UInt8 → Zipper UInt8} {P : Vty → Prop}
    (hP : ∀ w vty, P vty → P (vtyWrite w vty))
    (hcond : ∀ vty z n, cond (line z n vty) = .ok (goes z))
    (hbody : ∀ vty z n, P vty → Plain z.text → goes z = true →
      Edited vty z n (next z) (body (line z n vty)))
    (hplain : ∀ z, Plain z.text → Plain (next z).text) (size : Zipper UInt8 → Nat)
    (hsize : ∀ z, goes z = true → size (next z) < size z) (fuel : Nat) :
    ∀ vty z n, P vty → Plain z.text → size z < fuel →
      Edited vty z n (z.repeatWhile goes next fuel) (whileDo cond body fuel (line z n vty)) := by
  induction fuel with
  | zero => exact fun vty z n _ _ h => absurd h (Nat.not_lt_zero _)
  | succ fuel ih =>
    intro vty z n hvty hz hfuel
    rw [while_step (hcond vty z n), Zipper.repeatWhile]
    by_cases hgoes : goes z = true
    · rw [if_pos hgoes, if_pos hgoes]
      refine (hbody vty z n hvty hz hgoes).bind fun n' w _ => ?_
      have hless := hsize z hgoes
      exact ih _ _ _ (hP w vty hvty) (hplain z hz) (by omega)
    · rw [if_neg hgoes, if_neg hgoes]
      exact Edited.refl vty z n

/-- A blank, or a character that is none. -/
def isBlank (space : Bool) (c : UInt8) : Bool := (c = 32) = space

theorem atChar_line (space : Bool) (vty : Vty) (z : Zipper UInt8) (n : Nat) :
    atChar space (line z n vty) = .ok (z.after.head?.any (isBlank space)) := by
  have hlength := z.length_text
  cases hafter : z.after with
  | nil =>
    rw [hafter, List.length_nil] at hlength
    rw [atChar, if_pos (by simp only [line_cp, line_length]; omega)]
    rfl
  | cons c after =>
    rw [hafter, List.length_cons] at hlength
    rw [atChar, if_neg (by simp only [line_cp, line_length]; omega), line_buf, line_cp,
      getElem_after hafter]
    rfl

theorem behindChar_line (space : Bool) (vty : Vty) (z : Zipper UInt8) (n : Nat) :
    behindChar space (line z n vty) = .ok (z.before.head?.any (isBlank space)) := by
  cases hbefore : z.before with
  | nil =>
    rw [behindChar, if_pos (by simp [hbefore])]
    rfl
  | cons c before =>
    rw [behindChar, if_neg (by simp [hbefore]), line_buf, line_cp, getElem_before hbefore]
    rfl

theorem forward_less {p : UInt8 → Bool} {z : Zipper UInt8} (h : z.after.head?.any p = true) :
    z.forward.after.length < z.after.length := by
  cases hafter : z.after with
  | nil =>
    rw [hafter] at h
    cases h
  | cons c after => simp [Zipper.forward, hafter]

theorem backward_less {p : UInt8 → Bool} {z : Zipper UInt8} (h : z.before.head?.any p = true) :
    z.backward.before.length < z.before.length := by
  cases hbefore : z.before with
  | nil =>
    rw [hbefore] at h
    cases h
  | cons c before => simp [Zipper.backward, hbefore]

theorem delete_less {p : UInt8 → Bool} {z : Zipper UInt8} (h : z.after.head?.any p = true) :
    z.delete.after.length < z.after.length := by
  cases hafter : z.after with
  | nil =>
    rw [hafter] at h
    cases h
  | cons c after => simp [Zipper.delete, hafter]

theorem rub_less {p : UInt8 → Bool} {z : Zipper UInt8} (h : z.before.head?.any p = true) :
    z.rub.before.length < z.before.length := by
  cases hbefore : z.before with
  | nil =>
    rw [hbefore] at h
    cases h
  | cons c before => simp [Zipper.rub, hbefore]

theorem plain_repeat {goes : Zipper UInt8 → Bool} {next : Zipper UInt8 → Zipper UInt8}
    (hnext : ∀ z : Zipper UInt8, Plain z.text → Plain (next z).text) (fuel : Nat) :
    ∀ z : Zipper UInt8, Plain z.text →
      Plain (z.repeatWhile goes next fuel).text := by
  induction fuel with
  | zero => exact fun z hz => hz
  | succ fuel ih =>
    intro z hz
    rw [Zipper.repeatWhile]
    split
    · exact ih _ (hnext z hz)
    · exact hz

theorem plain_forward {z : Zipper UInt8} (h : Plain z.text) : Plain z.forward.text := by
  rwa [Zipper.text_forward]

theorem plain_backward {z : Zipper UInt8} (h : Plain z.text) : Plain z.backward.text := by
  rwa [Zipper.text_backward]

theorem forwardWhile_edits {cond : Vty → Except Halt Bool} {p : UInt8 → Bool}
    (hcond : ∀ vty z n, cond (line z n vty) = .ok (z.after.head?.any p)) (hz : Plain z.text)
    {fuel : Nat} (hfuel : z.after.length < fuel) :
    Edited vty z n (z.forwardWhile p) (whileDo cond vtyForwardChar fuel (line z n vty)) := by
  rw [← Zipper.repeat_forward p fuel z hfuel]
  exact while_edits (P := fun _ => True) (fun _ _ h => h) hcond
    (fun _ _ _ _ hz _ => forward_edits hz)
    (fun _ => plain_forward) (fun z => z.after.length) (fun _ => forward_less) fuel
      vty z n trivial hz hfuel

theorem backwardWhile_edits {cond : Vty → Except Halt Bool} {p : UInt8 → Bool}
    (hcond : ∀ vty z n, cond (line z n vty) = .ok (z.before.head?.any p)) (hz : Plain z.text)
    {fuel : Nat} (hfuel : z.before.length < fuel) :
    Edited vty z n (z.backwardWhile p)
      (whileDo cond (fun vty => .ok (vtyBackwardChar vty)) fuel (line z n vty)) := by
  rw [← Zipper.repeat_backward p fuel z hfuel]
  exact while_edits (P := fun _ => True) (fun _ _ h => h) hcond (fun _ _ _ _ _ _ => backward_edits)
    (fun _ => plain_backward) (fun z => z.before.length) (fun _ => backward_less) fuel vty z n
      trivial hz hfuel

/-- `vty_beginning_of_line` -/
theorem home_edits (hz : Plain z.text) :
    Edited vty z n z.home (vtyBeginningOfLine (line z n vty)) := by
  rw [← Zipper.backwardWhile_all]
  refine backwardWhile_edits (fun vty z n => ?_) hz (Nat.lt_succ_self _)
  cases hbefore : z.before <;> simp [hbefore]

/-- `vty_end_of_line` -/
theorem end_edits (hz : Plain z.text) :
    Edited vty z n (.behind z.text) (vtyEndOfLine (line z n vty)) := by
  have hlength := z.length_text
  rw [← Zipper.forwardWhile_all]
  refine forwardWhile_edits (fun vty z n => ?_) hz (by simp only [line_length]; omega)
  have hlength := z.length_text
  cases hafter : z.after <;> simp [hafter, hlength]

/-- `vty_backward_pure_word` -/
theorem pureWord_edits (hz : Plain z.text) :
    Edited vty z n (z.backwardWhile (isBlank false)) (vtyBackwardPureWord (line z n vty)) :=
  backwardWhile_edits (behindChar_line false) hz (Nat.lt_succ_self _)

/-- `vty_backward_word` -/
theorem backwardWord_edits (hz : Plain z.text) :
    Edited vty z n ((z.backwardWhile (isBlank true)).backwardWhile (isBlank false))
      (vtyBackwardWord (line z n vty)) := by
  refine (backwardWhile_edits (behindChar_line true) hz (Nat.lt_succ_self _)).bind fun n' w _ =>
    pureWord_edits ?_
  rwa [Zipper.text_backwardWhile]

/-- `vty_forward_word` -/
theorem forwardWord_edits (hz : Plain z.text) :
    Edited vty z n ((z.forwardWhile (isBlank false)).forwardWhile (isBlank true))
      (vtyForwardWord (line z n vty)) := by
  have hlength := z.length_text
  have hbound : z.after.length < (line z n vty).length + 1 := by
    simp only [line_length]
    omega
  refine (forwardWhile_edits (atChar_line false) hz hbound).bind fun n' w _ => ?_
  have hz' : Plain (z.forwardWhile (isBlank false)).text := by rwa [Zipper.text_forwardWhile]
  have hlength' := (z.forwardWhile (isBlank false)).length_text
  exact forwardWhile_edits (atChar_line true) hz' (by simp only [line_length]; omega)

/-! ## Edits of the text -/

/-- What a `realloc` adds is zero, or there is no need of it. -/
def Roomy (n : Nat) (grown : Nat → UInt8) : Prop := 1 ≤ n ∨ ∀ i, grown i = 0

theorem ensure_line {grown : Nat → UInt8} (hroomy : Roomy n grown) :
    ∃ n', vtyEnsure grown (z.text.length + 1) (line z n vty) = line z n' vty ∧ 1 ≤ n' ∧ n ≤ n' := by
  have hsize : (line z n vty).buf.length = z.text.length + n + 1 := by simp [Nat.add_assoc]
  by_cases hfull : n = 0
  · have hzero : ∀ i, grown i = 0 := hroomy.resolve_left (by omega)
    refine ⟨z.text.length + 1, ?_, by omega, by omega⟩
    have hgrown : (List.range (z.text.length + n + 1)).map grown = List.replicate
        (z.text.length + 1) 0 := by
      rw [hfull, Nat.add_zero, List.eq_replicate_iff]
      refine ⟨by simp, fun b hb => ?_⟩
      obtain ⟨i, -, rfl⟩ := List.mem_map.mp hb
      exact hzero i
    have hbuf : z.text ++ List.replicate (0 + 1) 0 ++ List.replicate (z.text.length + 1) 0 =
        z.text ++ List.replicate (z.text.length + 1 + 1) (0 : UInt8) := by
      rw [List.append_assoc, List.replicate_append_replicate]
      congr 2
      omega
    rw [vtyEnsure, if_pos (by omega), hsize, hgrown, hfull]
    exact congrArg (fun buf => setLine buf z.before.length z.text.length vty) hbuf
  · refine ⟨n, ?_, by omega, Nat.le_refl n⟩
    rw [vtyEnsure, if_neg (by omega)]

theorem plain_insert {c : UInt8} (hz : Plain z.text) (hc : Printable c) :
    Plain (z.insert c).text := by
  intro b hb
  simp only [Zipper.insert, Zipper.text, List.reverse_cons, List.append_assoc,
    List.singleton_append, List.mem_append,
    List.mem_cons] at hb
  rcases hb with hb | rfl | hb
  · exact hz b (List.mem_append_left _ hb)
  · exact hc
  · exact hz b (List.mem_append_right _ hb)

/-- `vty_self_insert` -/
theorem insert_edits {grown : Nat → UInt8} (hroomy : Roomy n grown) (hz : Plain z.text) {c : UInt8}
    (hc : Printable c) :
    Edited vty z n (z.insert c) (vtySelfInsert grown c (line z n vty)) := by
  obtain ⟨n₁, hensure, hpos, hle⟩ :
      ∃ n', vtyEnsure grown (z.text.length + 1) (line z n vty) = line z n' vty ∧ 1 ≤ n' ∧ n ≤ n' :=
        ensure_line hroomy
  obtain ⟨m, rfl⟩ := Nat.exists_eq_add_of_le' hpos
  have hlength := z.length_text
  have hsub : z.text.length - z.before.length = z.after.length := by omega
  have hlength' : (z.insert c).text.length = z.text.length + 1 := by
    simp [Zipper.insert, Zipper.text, Nat.add_assoc]
  have hafter : (8 : UInt8) ∉ z.after := fun hin => hz.no_back (List.mem_append_right _ hin)
  have hbuf : (Cells.memmove (z.before.length + 1) z.before.length z.after.length
    (z.text ++ List.replicate (m + 1 + 1) 0)).bind
      (Cells.writeAt z.before.length c) = some ((z.insert c).text ++ List.replicate (m + 1) 0) := by
    have hmove := Cells.insert_middle z.before.reverse z.after (List.replicate (m + 1) 0) c 0
    rw [List.length_reverse, ← List.replicate_succ] at hmove
    rw [Zipper.text, hmove]
    simp [Zipper.insert, Zipper.text]
  have hread : Cells.readAt z.before.length (z.after.length + 1)
    ((z.insert c).text ++ List.replicate (m + 1) 0) =
      some (c :: z.after) := by
    have hmiddle := Cells.readAt_middle z.before.reverse (c :: z.after) (List.replicate (m + 1) 0)
    rw [List.length_reverse, List.length_cons] at hmiddle
    rw [← hmiddle]
    simp [Zipper.insert, Zipper.text]
  refine ⟨m, c :: z.after ++ List.replicate z.after.length 8,
    ?_, by omega, Row.showing_insert hc.ne.2 hafter⟩
  rw [vtySelfInsert, line_length, hensure]
  simp only [line_cp, line_length, line_buf, hsub, hbuf, access, Except.bind, hread, Except.map,
    telnet_backward_char]
  have hwrite : vtyWrite (List.replicate z.after.length 8) (vtyWrite (c :: z.after)
      { line z (m + 1) vty with buf := (z.insert c).text ++ List.replicate (m + 1) 0 }) =
      setLine ((z.insert c).text ++ List.replicate (m + 1) 0) z.before.length z.text.length
        (vtyWrite (c :: z.after ++ List.replicate z.after.length 8) vty) := by
    rw [← write_write, ← write_setLine, ← write_setLine]
    rfl
  refine (congrArg (fun v : Vty => Except.ok { v with cp := v.cp + 1, length := v.length + 1 })
    hwrite).trans ?_
  rw [line, hlength']
  rfl

/-- `vty_delete_char` with a character at the cursor, where the line is shown. -/
theorem delete_edits (hnode : inAuth vty.node = false) (hz : Plain z.text) (hafter : z.after ≠ []) :
    Edited vty z n z.delete (vtyDeleteChar (line z n vty)) := by
  obtain ⟨y, b, hcons⟩ := List.exists_cons_of_ne_nil hafter
  have hlength := z.length_text
  rw [hcons, List.length_cons] at hlength
  have hsub : z.text.length - z.before.length = b.length + 1 := by omega
  have hlength' : z.delete.text.length = z.text.length - 1 := by
    simp [Zipper.delete, Zipper.text, hcons]
  have hb : (8 : UInt8) ∉ b :=
    fun hin => hz.no_back (List.mem_append_right _ (hcons ▸ List.mem_cons_of_mem y hin))
  have hbuf : (Cells.memmove z.before.length (z.before.length + 1) b.length
    (z.text ++ List.replicate (n + 1) 0)).bind
      (Cells.writeAt (z.text.length - 1) 0) =
        some (z.delete.text ++ List.replicate (n + 1 + 1) 0) := by
    have hmove := Cells.delete_middle z.before.reverse b (List.replicate (n + 1) 0) y
    rw [List.length_reverse, show z.before.length + b.length =
      z.text.length - 1 by omega, ← List.replicate_succ] at hmove
    have htext : z.text ++ List.replicate (n + 1) 0 = z.before.reverse ++ y :: b ++
        List.replicate (n + 1) 0 := by
      rw [Zipper.text, hcons]
    rw [htext, hmove]
    simp [Zipper.delete, Zipper.text, hcons]
  have hread : Cells.readAt z.before.length b.length
      (z.delete.text ++ List.replicate (n + 1 + 1) 0) = some b := by
    have hmiddle := Cells.readAt_middle z.before.reverse b (List.replicate (n + 1 + 1) 0)
    rw [List.length_reverse] at hmiddle
    rw [← hmiddle]
    simp [Zipper.delete, Zipper.text, hcons]
  refine ⟨n + 1, b ++ 32 :: List.replicate (b.length + 1) 8,
    ?_, by omega, Row.showing_delete hcons hb⟩
  rw [vtyDeleteChar, line_node, if_neg (by rw [hnode]; exact Bool.false_ne_true), line_length,
    line_cp, line_buf,
    if_neg (by omega), if_neg (by omega)]
  simp only [hsub, Nat.add_sub_cancel, hbuf, access, Except.bind, hread, Except.map,
    telnet_backward_char, telnet_space_char]
  have hwrite : vtyWrite (List.replicate (b.length + 1) 8) (vtyWrite [32] (vtyWrite b
      { line z n vty with
        buf := z.delete.text ++ List.replicate (n + 1 + 1) 0
        length := z.text.length - 1 })) =
      setLine (z.delete.text ++ List.replicate (n + 1 + 1) 0) z.before.length (z.text.length - 1)
        (vtyWrite (b ++ 32 :: List.replicate (b.length + 1) 8) vty) := by
    rw [show b ++ 32 :: List.replicate (b.length + 1) 8 = b ++ [32] ++ List.replicate (b.length + 1)
      8 by simp, ← write_write, ← write_write, ← write_setLine, ← write_setLine, ← write_setLine]
    rfl
  refine (congrArg Except.ok hwrite).trans ?_
  rw [line, hlength']
  rfl

/-- Where it is not shown, nothing is deleted. -/
theorem delete_auth (hnode : inAuth vty.node = true) : vtyDeleteChar vty = .ok vty := by
  rw [vtyDeleteChar, if_pos hnode]

/-- `vty_delete_backward_char` -/
theorem rub_edits (hz : Plain z.text) :
    Edited vty z n (if inAuth vty.node then z.backward else z.rub)
      (vtyDeleteBackwardChar (line z n vty)) := by
  obtain ⟨before, after⟩ := z
  cases before with
  | nil =>
    have hstay : (if inAuth vty.node then Zipper.backward ⟨[], after⟩ else Zipper.rub ⟨[], after⟩) =
        ⟨[], after⟩ := by
      split <;> rfl
    rw [hstay]
    exact Edited.refl vty _ n
  | cons c before =>
    have hrun : vtyDeleteBackwardChar (line ⟨c :: before, after⟩ n vty) =
        Except.bind (.ok (vtyBackwardChar (line ⟨c :: before, after⟩ n vty))) vtyDeleteChar := by
      rw [vtyDeleteBackwardChar, if_neg (by simp)]
      rfl
    rw [hrun]
    refine backward_edits.bind fun n' w _ => ?_
    by_cases hnode : inAuth vty.node = true
    · rw [if_pos hnode, delete_auth (by rwa [line_node, write_node])]
      exact Edited.refl _ _ _
    · have hnode' : inAuth (vtyWrite w vty).node = false := by
        rw [write_node]
        exact Bool.eq_false_iff.mpr hnode
      rw [if_neg hnode]
      exact delete_edits hnode' (plain_backward hz) (List.cons_ne_nil c after)

theorem plain_delete {z : Zipper UInt8} (hz : Plain z.text) : Plain z.delete.text := by
  intro c hc
  rcases List.mem_append.mp hc with hc | hc
  · exact hz c (List.mem_append_left _ hc)
  · exact hz c (List.mem_append_right _ (List.mem_of_mem_tail hc))

theorem plain_rub {z : Zipper UInt8} (hz : Plain z.text) : Plain z.rub.text := by
  intro c hc
  rcases List.mem_append.mp hc with hc | hc
  · exact hz c
      (List.mem_append_left _
        (List.mem_reverse.mpr (List.mem_of_mem_tail (List.mem_reverse.mp hc))))
  · exact hz c (List.mem_append_right _ hc)

/-- `vty_backward_kill_word` -/
theorem backwardKillWord_edits (hz : Plain z.text) :
    Edited vty z n
      (if inAuth vty.node then (z.backwardWhile (isBlank true)).backwardWhile (isBlank false)
      else (z.rubWhile (isBlank true)).rubWhile (isBlank false))
        (vtyBackwardKillWord (line z n vty)) := by
  by_cases hnode : inAuth vty.node = true
  · have hloop : ∀ (space : Bool) (vty : Vty) (z : Zipper UInt8) (n : Nat),
      inAuth vty.node = true → Plain z.text →
        Edited vty z n (z.backwardWhile (isBlank space))
          (whileDo (behindChar space) vtyDeleteBackwardChar ((line z n vty).cp + 1)
            (line z n vty)) := by
      intro space vty z n hvty hz
      rw [← Zipper.repeat_backward (isBlank space) (z.before.length + 1) z (Nat.lt_succ_self _)]
      refine while_edits (P := fun vty => inAuth vty.node = true)
        (fun w vty h => by rwa [write_node]) (behindChar_line space)
        (fun vty z n hvty hz _ => ?_) (fun _ => plain_backward) (fun z => z.before.length)
          (fun _ => backward_less) _ vty z n hvty
        hz (Nat.lt_succ_self _)
      have hrub : Edited vty z n _ (vtyDeleteBackwardChar (line z n vty)) := rub_edits hz
      rwa [if_pos hvty] at hrub
    rw [if_pos hnode]
    refine (hloop true vty z n hnode hz).bind fun n' w _ =>
      hloop false _ _ _ (by rwa [write_node]) ?_
    rwa [Zipper.text_backwardWhile]
  · have hloop : ∀ (space : Bool) (vty : Vty) (z : Zipper UInt8) (n : Nat),
      ¬ inAuth vty.node = true → Plain z.text →
        Edited vty z n (z.rubWhile (isBlank space))
          (whileDo (behindChar space) vtyDeleteBackwardChar ((line z n vty).cp + 1)
            (line z n vty)) := by
      intro space vty z n hvty hz
      rw [← Zipper.repeat_rub (isBlank space) (z.before.length + 1) z (Nat.lt_succ_self _)]
      refine while_edits (P := fun vty => ¬ inAuth vty.node = true)
        (fun w vty h => by rwa [write_node]) (behindChar_line space)
        (fun vty z n hvty hz _ => ?_) (fun _ => plain_rub) (fun z => z.before.length)
          (fun _ => rub_less) _ vty z n hvty
        hz (Nat.lt_succ_self _)
      have hrub : Edited vty z n _ (vtyDeleteBackwardChar (line z n vty)) := rub_edits hz
      rwa [if_neg hvty] at hrub
    rw [if_neg hnode]
    refine (hloop true vty z n hnode hz).bind fun n' w _ =>
      hloop false _ _ _ (by rwa [write_node]) ?_
    rw [← Zipper.repeat_rub (isBlank true) (z.before.length + 1) z (Nat.lt_succ_self _)]
    exact plain_repeat (fun _ => plain_rub) _ _ hz

/-- `vty_forward_kill_word`, where the line is shown. -/
theorem forwardKillWord_edits (hnode : inAuth vty.node = false) (hz : Plain z.text) {fuel : Nat}
    (hfuel : z.after.length < fuel) :
    Edited vty z n ((z.deleteWhile (isBlank true)).deleteWhile (isBlank false))
      (vtyForwardKillWord fuel (line z n vty)) := by
  have hloop : ∀ (space : Bool) (vty : Vty) (z : Zipper UInt8) (n : Nat),
    inAuth vty.node = false → Plain z.text →
      z.after.length < fuel →
      Edited vty z n (z.deleteWhile (isBlank space))
        (whileDo (atChar space) vtyDeleteChar fuel (line z n vty)) := by
    intro space vty z n hvty hz hfuel
    rw [← Zipper.repeat_delete (isBlank space) fuel z hfuel]
    refine while_edits (P := fun vty => inAuth vty.node = false)
      (fun w vty h => by rwa [write_node]) (atChar_line space)
      (fun vty z n hvty hz hgoes => delete_edits hvty hz ?_) (fun _ => plain_delete)
        (fun z => z.after.length)
      (fun _ => delete_less) fuel vty z n hvty hz hfuel
    rintro hnil
    rw [hnil] at hgoes
    cases hgoes
  have hshort : (z.deleteWhile (isBlank true)).after.length ≤ z.after.length :=
    (List.dropWhile_sublist _).length_le
  refine (hloop true vty z n hnode hz hfuel).bind fun n' w _ =>
    hloop false _ _ _ (by rwa [write_node]) ?_ (by omega)
  rw [← Zipper.repeat_delete (isBlank true) fuel z hfuel]
  exact plain_repeat (fun _ => plain_delete) _ _ hz

/-- Where it is not, the loops delete nothing and do not end. -/
theorem forwardKillWord_endless (hnode : inAuth vty.node = true)
    (hafter : z.after ≠ []) (fuel : Nat) :
    vtyForwardKillWord fuel (line z n vty) = .error .endless := by
  obtain ⟨c, after, hcons⟩ := List.exists_cons_of_ne_nil hafter
  have hcond : ∀ space, atChar space (line z n vty) = .ok (isBlank space c) := fun space => by
    rw [atChar_line, hcons]
    rfl
  have hloop : ∀ space, isBlank space c = true → ∀ fuel, whileDo (atChar space) vtyDeleteChar fuel
      (line z n vty) = .error .endless := by
    intro space hc fuel
    induction fuel with
    | zero => rfl
    | succ fuel ih =>
      rw [while_step (hcond space), if_pos hc,
        delete_auth (show inAuth (line z n vty).node = true from hnode)]
      exact ih
  by_cases hc : isBlank true c = true
  · rw [vtyForwardKillWord, hloop true hc]
    rfl
  · cases fuel with
    | zero => rfl
    | succ fuel =>
      have hc' : isBlank false c = true := by
        simpa [isBlank] using hc
      rw [vtyForwardKillWord, while_step (hcond true), if_neg hc]
      exact hloop false hc' (fuel + 1)

/-- `vty_kill_line` -/
theorem kill_edits : Edited vty z n z.kill (vtyKillLine (line z n vty)) := by
  have hlength := z.length_text
  have hsub : z.text.length - z.before.length = z.after.length := by omega
  by_cases hnone : z.after.length = 0
  · have hkill : z.kill = z := by
      rw [Zipper.kill, ← List.length_eq_zero_iff.mp hnone]
    rw [vtyKillLine, hkill]
    simp only [line_cp, line_length, hsub, if_pos hnone]
    exact Edited.refl vty z n
  · have hbuf : Cells.memset z.before.length z.after.length (z.text ++ List.replicate (n + 1) 0) =
        some (z.kill.text ++ List.replicate (z.after.length + n + 1) 0) := by
      have hset := Cells.memset_middle z.before.reverse z.after (List.replicate (n + 1) 0)
      rw [List.length_reverse, List.append_assoc (_ : List UInt8) (List.replicate _ _),
        List.replicate_append_replicate] at hset
      rw [Zipper.text, hset, Zipper.kill, Zipper.text, List.append_nil, Nat.add_assoc]
    have hlength' : z.kill.text.length = z.before.length := by simp [Zipper.kill, Zipper.text]
    refine ⟨z.after.length + n, List.replicate z.after.length 32 ++ List.replicate z.after.length 8,
      ?_, by omega, Row.showing_kill⟩
    rw [vtyKillLine]
    simp only [line_cp, line_length, hsub, if_neg hnone, telnet_space_char, telnet_backward_char,
      write_line, write_write,
      line_buf, hbuf, access, Except.map]
    rw [line, line, hlength']
    rfl

/-- `vty_kill_line_from_beginning` -/
theorem killAll_edits (hz : Plain z.text) :
    Edited vty z n (.behind []) (vtyKillLineFromBeginning (line z n vty)) :=
  (home_edits hz).bind fun _ _ _ => kill_edits

/-- `vty_self_insert_overwrite` with a character at the cursor. -/
theorem overwrite_edits {grown : Nat → UInt8} (hroomy : Roomy n grown) {y c : UInt8}
    {after : List UInt8} (hz : z.after = y :: after) (hc : Printable c) :
    Edited vty z n ⟨c :: z.before, after⟩ (vtySelfInsertOverwrite grown c (line z n vty)) := by
  obtain ⟨n₁, hensure, hpos, hle⟩ :
      ∃ n', vtyEnsure grown (z.text.length + 1) (line z n vty) = line z n' vty ∧ 1 ≤ n' ∧ n ≤ n' :=
        ensure_line hroomy
  have hlength := z.length_text
  rw [hz, List.length_cons] at hlength
  have hlength' : (⟨c :: z.before, after⟩ : Zipper UInt8).text.length = z.text.length := by
    rw [Zipper.length_text, hlength]
    simp only [List.length_cons]
    omega
  have hbuf : Cells.writeAt z.before.length c (z.text ++ List.replicate (n₁ + 1) 0) =
      some ((⟨c :: z.before, after⟩ : Zipper UInt8).text ++ List.replicate (n₁ + 1) 0) := by
    have hwrite := Cells.writeAt_append z.before.reverse c y (after ++ List.replicate (n₁ + 1) 0)
    rw [List.length_reverse] at hwrite
    have htext : z.text ++ List.replicate (n₁ + 1) 0 = z.before.reverse ++ y ::
        (after ++ List.replicate (n₁ + 1) 0) := by
      rw [Zipper.text, hz, List.append_assoc, List.cons_append]
    rw [htext, hwrite]
    simp [Zipper.text]
  refine ⟨n₁, [c], ?_, by omega, Row.showing_overwrite hz hc.ne.2⟩
  rw [vtySelfInsertOverwrite, line_length, hensure]
  simp only [line_cp, line_length, line_buf, hbuf, access, Except.map]
  have hwrite : vtyWrite [c]
    (setLine ((⟨c :: z.before, after⟩ : Zipper UInt8).text ++ List.replicate (n₁ + 1) 0)
      (z.before.length + 1) (if z.before.length + 1 > z.text.length then z.text.length + 1
        else z.text.length) vty) =
      line ⟨c :: z.before, after⟩ n₁ (vtyWrite [c] vty) := by
    rw [if_neg (by omega), write_setLine, line, hlength']
    rfl
  exact congrArg Except.ok hwrite

theorem Roomy.mono {n n' : Nat} {grown : Nat → UInt8} (h : Roomy n grown) (hle : n ≤ n') :
    Roomy n' grown :=
  h.imp_left fun hpos => Nat.le_trans hpos hle

/-- `vty_transpose_chars` -/
theorem transpose_edits {grown : Nat → UInt8} (hroomy : Roomy n grown) (hz : Plain z.text) :
    Edited vty z n z.transpose (vtyTransposeChars grown (line z n vty)) := by
  obtain ⟨before, after⟩ := z
  have htext := Zipper.length_text ⟨before, after⟩
  have hin : ∀ c ∈ before, Printable c :=
    fun c hc => hz c (List.mem_append_left _ (List.mem_reverse.mpr hc))
  cases before with
  | nil =>
    rw [vtyTransposeChars, if_pos (.inr (by simp))]
    exact Edited.refl vty _ n
  | cons b before =>
    cases after with
    | cons c after =>
      simp only [List.length_cons] at htext
      have hshort : ¬ ((line ⟨b :: before, c :: after⟩ n vty).length < 2 ∨
          (line ⟨b :: before, c :: after⟩ n vty).cp < 1) := by
        simp only [line_length, line_cp, List.length_cons]
        omega
      have hinside : ¬ (line ⟨b :: before, c :: after⟩ n vty).cp =
          (line ⟨b :: before, c :: after⟩ n vty).length := by
        simp only [line_length, line_cp, List.length_cons]
        omega
      have hc : Printable c := hz c (List.mem_append_right _ List.mem_cons_self)
      rw [vtyTransposeChars, if_neg hshort, if_neg hinside, line_buf, line_cp, getElem_after rfl,
        getElem_before rfl]
      -- the cursor goes back and both are written again
      have hback : Edited vty ⟨b :: before, c :: after⟩ n ⟨before, b :: c :: after⟩
          (.ok (vtyBackwardChar (line ⟨b :: before, c :: after⟩ n vty))) := backward_edits
      refine (hback.bind fun n' w hsize => overwrite_edits (hroomy.mono ?_) rfl hc).bind
        fun n' w hsize => overwrite_edits (hroomy.mono ?_) rfl (hin b List.mem_cons_self)
      · simp only [Zipper.length_text, List.length_cons] at hsize
        omega
      · simp only [Zipper.length_text, List.length_cons] at hsize
        omega
    | nil =>
      cases before with
      | nil =>
        rw [vtyTransposeChars, if_pos (.inl (by simp [Zipper.text]))]
        exact Edited.refl vty _ n
      | cons c before =>
        simp only [List.length_cons, List.length_nil] at htext
        have hshort : ¬ ((line ⟨b :: c :: before, []⟩ n vty).length < 2 ∨
            (line ⟨b :: c :: before, []⟩ n vty).cp < 1) := by
          simp only [line_length, line_cp, List.length_cons]
          omega
        have hbehind : (line ⟨b :: c :: before, []⟩ n vty).cp =
            (line ⟨b :: c :: before, []⟩ n vty).length := by
          simp only [line_length, line_cp, List.length_cons]
          omega
        have hsecond : ((⟨b :: c :: before, []⟩ : Zipper UInt8).text ++ List.replicate
          (n + 1) 0)[(b :: c :: before).length - 2]? =
            some c := by
          have hbefore := getElem_before (z := ⟨c :: before, [b]⟩) rfl (List.replicate (n + 1) 0)
          rw [← hbefore]
          simp [Zipper.text]
        rw [vtyTransposeChars, if_neg hshort, if_pos hbehind, line_buf, line_cp,
          getElem_before rfl, hsecond]
        have hback : Edited vty ⟨b :: c :: before, []⟩ n ⟨before, [c, b]⟩
            (.ok (vtyBackwardChar (vtyBackwardChar (line ⟨b :: c :: before, []⟩ n vty)))) := by
          have hfirst : Edited vty ⟨b :: c :: before, []⟩ n ⟨c :: before, [b]⟩
              (.ok (vtyBackwardChar (line ⟨b :: c :: before, []⟩ n vty))) := backward_edits
          exact hfirst.bind (f := fun vty => .ok (vtyBackwardChar vty)) fun _ _ _ => backward_edits
        refine (hback.bind fun n' w hsize =>
          overwrite_edits (hroomy.mono ?_) rfl (hin b List.mem_cons_self)).bind
          fun n' w hsize =>
            overwrite_edits (hroomy.mono ?_) rfl (hin c (List.mem_cons_of_mem b List.mem_cons_self))
        · simp only [Zipper.length_text, List.length_cons, List.length_nil] at hsize
          omega
        · simp only [Zipper.length_text, List.length_cons, List.length_nil] at hsize
          omega

/-- `vty_redraw_line` -/
theorem redraw_line :
    vtyRedrawLine (line z n vty) = .ok (line (.behind z.text) n (vtyWrite z.text vty)) := by
  have hread : Cells.readAt 0 z.text.length (z.text ++ List.replicate (n + 1) 0) = some z.text :=
    Cells.readAt_middle [] z.text (List.replicate (n + 1) 0)
  rw [vtyRedrawLine, line_length, line_buf, hread]
  simp only [access, Except.map, write_line]
  rw [line, line, Zipper.text_behind, Zipper.length_behind]
  rfl

/-- On a row that is empty, as it is behind a prompt. -/
theorem redraw_becomes (hz : Plain z.text) :
    Becomes vty Row.blank (z.text.length + n) (.behind z.text) (vtyRedrawLine (line z n vty)) :=
  ⟨n, z.text, redraw_line, by rw [Zipper.text_behind], Row.showing_behind hz.no_back⟩

/-- `vty_history_print` -/
theorem historyPrint_edits (hz : Plain z.text) {t : List UInt8} (ht : vty.hist vty.hp = some t)
    (hplain : Plain t) (hfits : t.length ≤ z.text.length + n) :
    Edited vty z n (.behind t) (vtyHistoryPrint (line z n vty)) := by
  refine (killAll_edits hz).bind fun n' w hsize => ?_
  have hfits' : t.length ≤ n' := by
    rw [Zipper.text_behind, List.length_nil, Nat.zero_add] at hsize
    omega
  have hcopy : Cells.copyTo t (List.replicate (n' + 1) 0) =
      some (t ++ List.replicate (n' - t.length + 1) 0) := by
    rw [Cells.copyTo, if_pos (by simp; omega), List.drop_replicate, Nat.sub_add_comm hfits']
  have hhist : (vtyWrite w vty).hist (vtyWrite w vty).hp = some t := by
    rw [write_hist, write_hp, ht]
  have hredraw : vtyRedrawLine (line (.behind t) (n' - t.length) (vtyWrite w vty)) =
      .ok (line (.behind t) (n' - t.length) (vtyWrite t (vtyWrite w vty))) := by
    rw [redraw_line, Zipper.text_behind]
  refine ⟨n' - t.length, t, ?_, ?_, Row.showing_behind hplain.no_back⟩
  · simp only [line_hist, line_hp, hhist, access, Except.bind, line_buf, Zipper.text_behind,
      List.nil_append, hcopy]
    have hline : setLine (t ++ List.replicate (n' - t.length + 1) 0) t.length t.length
      (vtyWrite w vty) =
        line (.behind t) (n' - t.length) (vtyWrite w vty) := by
      rw [line, Zipper.text_behind, Zipper.length_behind]
    exact (congrArg vtyRedrawLine hline).trans hredraw
  · rw [Zipper.text_behind, Zipper.text_behind, List.length_nil]
    omega

/-- `vty_insert_word_overwrite` of a word that is not shorter than what is behind the cursor. -/
theorem overwriteWord_edits {str : List UInt8} (hstr : Plain str)
    (hcover : z.after.length ≤ str.length)
    (hfits : z.before.length + str.length ≤ z.text.length + n) :
    Edited vty z n ⟨str.reverse ++ z.before, []⟩ (vtyInsertWordOverwrite str (line z n vty)) := by
  have hlength := z.length_text
  have htext : (⟨str.reverse ++ z.before, []⟩ : Zipper UInt8).text = z.before.reverse ++ str := by
    simp [Zipper.text]
  have hbuf : Cells.strcpy z.before.length str (z.text ++ List.replicate (n + 1) 0) =
      some (z.before.reverse ++ str ++ List.replicate
        (z.text.length + n - (z.before.length + str.length) + 1) 0) := by
    have hold : z.text ++ List.replicate (n + 1) 0 = z.before.reverse ++
        (z.after ++ List.replicate (str.length + 1 - z.after.length) 0) ++
        List.replicate (z.text.length + n - (z.before.length + str.length)) 0 := by
      rw [Zipper.text, List.append_assoc, List.append_assoc, List.append_assoc,
        List.replicate_append_replicate]
      congr 3
      rw [← Zipper.text]
      omega
    have hcopy :=
      Cells.strcpy_middle z.before.reverse
        (z.after ++ List.replicate (str.length + 1 - z.after.length) 0) str
      (List.replicate (z.text.length + n - (z.before.length + str.length)) 0) (by simp; omega)
    rw [List.length_reverse] at hcopy
    rw [hold, hcopy, List.replicate_succ]
  refine ⟨z.text.length + n - (z.before.length + str.length), str, ?_, ?_, ?_⟩
  · rw [vtyInsertWordOverwrite, write_line]
    simp only [line_cp, line_buf, hbuf, access, Except.map]
    rw [line, line, htext, List.length_append, List.length_append, List.length_reverse,
      List.length_reverse,
      Nat.add_comm str.length]
    rfl
  · rw [htext, List.length_append, List.length_reverse]
    omega
  · have hpad :=
      Row.holding_pad (z.before.reverse ++ z.after) (str.length - z.after.length) z.before.length
    have hwrite :=
      Row.write_middle str z.before.reverse
        (z.after ++ List.replicate (str.length - z.after.length) 32) []
      (by simp; omega) hstr.no_back
    rw [List.append_nil, List.append_nil, List.length_reverse, ← List.append_assoc, hpad] at hwrite
    rw [Row.showing, Row.showing, htext, Zipper.text, hwrite, List.length_append,
      List.length_reverse, Nat.add_comm]

end Edits

end NetmtVtyEdit
