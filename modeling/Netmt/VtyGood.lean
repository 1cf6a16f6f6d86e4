import Netmt.VtyEdit

/-!
# Terminals in order

The buffer holds a line, and the row behind the last prompt shows it with the cursor where
it is edited; a password is not shown. Each function that a byte calls keeps this.
-/
namespace NetmtVtyGood

open NetmtVty NetmtVtyEdit NetmtCli

/-! ## The row behind the last prompt -/

def shows (row : Option Row) : Out → Option Row
  | .echo b => row.map fun r => r.put b
  | .text _ => none
  | .prompt _ => some Row.blank

def rowOf (out : List Out) : Option Row := out.foldl shows none

theorem rowOf_append (u v : List Out) : rowOf (u ++ v) = v.foldl shows (rowOf u) :=
  List.foldl_append

theorem rowOf_prompt (out : List Out) (node : NodeType) :
    rowOf (out ++ [.prompt node]) = some Row.blank := by
  rw [rowOf_append]
  rfl

theorem foldl_echo (w : List UInt8) :
    ∀ row : Option Row, (w.map Out.echo).foldl shows row = row.map (Row.write w) := by
  induction w with
  | nil => exact fun row => by cases row <;> rfl
  | cons b w ih =>
    intro row
    rw [List.map_cons, List.foldl_cons, ih]
    cases row <;> rfl

theorem write_out (w : List UInt8) (vty : Vty) :
    rowOf (vtyWrite w vty).out = if inAuth vty.node then rowOf vty.out
      else (rowOf vty.out).map (Row.write w) := by
  unfold vtyWrite
  split
  · rfl
  · exact (rowOf_append _ _).trans (foldl_echo w _)

theorem write_status (w : List UInt8) (vty : Vty) : (vtyWrite w vty).status = vty.status := by
  unfold vtyWrite
  split <;> rfl

/-- What the row shows of a line: all of it, or nothing where a password is asked for. -/
def Shown (row : Row) (vty : Vty) : Prop :=
  rowOf vty.out = some (if inAuth vty.node then Row.blank else row)

/-! ## Terminals in order -/

/-- The buffer holds a line of characters that can be typed, which is shown until the
terminal is closed, and every line of the history fits into it. -/
structure Good (z : Zipper UInt8) (vty : Vty) : Prop where
  held : ∃ n, line z n vty = vty
  plain : Plain z.text
  hist : ∀ i t, vty.hist i = some t → Plain t ∧ t.length < vty.buf.length
  status : vty.status ≠ .VTY_START ∧ vty.status ≠ .VTY_CONTINUE
  row : vty.status ≠ .VTY_CLOSE → Shown (Row.showing z) vty

/-- The history of a terminal. -/
structure Ring where
  hist : Nat → Option (List UInt8)
  hindex : Nat
  hp : Nat

def ring (vty : Vty) : Ring := ⟨vty.hist, vty.hindex, vty.hp⟩

/-- What no key touches; only bytes of options and of escapes do. -/
structure Modes (vty vty' : Vty) : Prop where
  iac : vty'.iac = vty.iac
  sub : vty'.iac_sb_in_progress = vty.iac_sb_in_progress
  escape : vty'.escape = vty.escape
  status : vty'.status = vty.status ∨ vty'.status = .VTY_CLOSE

/-- What an edit of the line leaves alone. -/
structure Frame (vty vty' : Vty) : Prop extends Modes vty vty' where
  auth : inAuth vty'.node = inAuth vty.node
  ring : ring vty' = ring vty

theorem Modes.refl (vty : Vty) : Modes vty vty := ⟨rfl, rfl, rfl, .inl rfl⟩

theorem Modes.trans {v₁ v₂ v₃ : Vty} (h : Modes v₁ v₂) (h' : Modes v₂ v₃) : Modes v₁ v₃ := by
  refine ⟨h'.iac.trans h.iac, h'.sub.trans h.sub, h'.escape.trans h.escape, ?_⟩
  rcases h'.status with hsame | hclosed
  · rw [hsame]
    exact h.status
  · exact .inr hclosed

theorem Modes.running {vty vty' : Vty} (h : Modes vty vty')
    (hvty : vty.status ≠ .VTY_START ∧ vty.status ≠ .VTY_CONTINUE) :
    vty'.status ≠ .VTY_START ∧ vty'.status ≠ .VTY_CONTINUE := by
  rcases h.status with hsame | hclosed
  · rwa [hsame]
  · rw [hclosed]
    exact ⟨Status.noConfusion, Status.noConfusion⟩

theorem Frame.refl (vty : Vty) : Frame vty vty := ⟨Modes.refl vty, rfl, rfl⟩

theorem Frame.trans {v₁ v₂ v₃ : Vty} (h : Frame v₁ v₂) (h' : Frame v₂ v₃) : Frame v₁ v₃ :=
  ⟨h.toModes.trans h'.toModes, h'.auth.trans h.auth, h'.ring.trans h.ring⟩

theorem write_frame (w : List UInt8) (vty : Vty) : Frame vty (vtyWrite w vty) := by
  unfold vtyWrite
  split
  · exact Frame.refl vty
  · exact ⟨⟨rfl, rfl, rfl, .inl rfl⟩, rfl, rfl⟩

theorem line_frame (z : Zipper UInt8) (n : Nat) (vty : Vty) : Frame vty (line z n vty) :=
  ⟨⟨rfl, rfl, rfl, .inl rfl⟩, rfl, rfl⟩

/-- The run goes on with the line `z`. -/
def Leaves (vty : Vty) (z : Zipper UInt8) (r : Except Halt Vty) : Prop :=
  ∃ vty', r = .ok vty' ∧ Good z vty' ∧ Frame vty vty'

theorem Leaves.stay {vty : Vty} {z : Zipper UInt8} (h : Good z vty) : Leaves vty z (.ok vty) :=
  ⟨vty, rfl, h, Frame.refl vty⟩

theorem Leaves.after {vty vty' : Vty} {z : Zipper UInt8} {r : Except Halt Vty}
    (hframe : Frame vty vty') (h : Leaves vty' z r) :
    Leaves vty z r := by
  obtain ⟨v, hrun, hgood, hkeeps⟩ := h
  exact ⟨v, hrun, hgood, hframe.trans hkeeps⟩

theorem Becomes.leaves {vty : Vty} {row : Row} {size : Nat} {z : Zipper UInt8} {r : Except Halt Vty}
    (h : Becomes vty row size z r) (hz : Plain z.text)
    (hhist : ∀ i t, vty.hist i = some t → Plain t ∧ t.length ≤ size)
    (hstatus : vty.status ≠ .VTY_START ∧ vty.status ≠ .VTY_CONTINUE)
    (hrow : vty.status ≠ .VTY_CLOSE → Shown row vty) :
    Leaves vty z r := by
  obtain ⟨n, w, rfl, hsize, hshow⟩ := h
  have hsame : (line z n (vtyWrite w vty)).status = vty.status := write_status w vty
  refine ⟨_, rfl, ⟨⟨n, rfl⟩, hz, fun i t ht => ?_, by rwa [hsame], fun hopen => ?_⟩,
    (write_frame w vty).trans (line_frame z n _)⟩
  · rw [line_hist, write_hist] at ht
    obtain ⟨hplain, hlength⟩ := hhist i t ht
    refine ⟨hplain, ?_⟩
    rw [line_buf, List.length_append, List.length_replicate]
    omega
  · rw [hsame] at hopen
    have hbefore := hrow hopen
    rw [Shown] at hbefore
    rw [Shown, line_out, line_node, write_node, write_out, hbefore]
    by_cases hauth : inAuth vty.node = true
    · rw [if_pos hauth, if_pos hauth, if_pos hauth]
    · rw [if_neg hauth, if_neg hauth, if_neg hauth, Option.map_some, hshow]

theorem setLine_self (vty : Vty) : setLine vty.buf vty.cp vty.length vty = vty := rfl

section Good

variable {z z' : Zipper UInt8} {vty : Vty}

theorem size_line {n : Nat} (hn : line z n vty = vty) : vty.buf.length = z.text.length + n + 1 := by
  rw [← hn]
  simp [Nat.add_assoc]

theorem Good.length (h : Good z vty) : vty.length = z.text.length := by
  obtain ⟨n, hn⟩ := h.held
  rw [← hn]
  rfl

theorem Good.cp (h : Good z vty) : vty.cp = z.before.length := by
  obtain ⟨n, hn⟩ := h.held
  rw [← hn]
  rfl

theorem Good.short (h : Good z vty) : z.text.length < vty.buf.length := by
  obtain ⟨n, hn⟩ := h.held
  rw [size_line hn]
  omega

/-- An edit of the line in a terminal that is in order. -/
theorem Good.edited (h : Good z vty) {f : Vty → Except Halt Vty} (hz' : Plain z'.text)
    (hf : ∀ n, line z n vty = vty → Edited vty z n z' (f (line z n vty))) :
    Leaves vty z' (f vty) := by
  obtain ⟨n, hn⟩ := h.held
  have hedit := hf n hn
  rw [hn] at hedit
  refine Becomes.leaves hedit hz' (fun i t ht => ?_) h.status h.row
  obtain ⟨hplain, hlength⟩ := h.hist i t ht
  rw [size_line hn] at hlength
  exact ⟨hplain, Nat.le_of_lt_succ hlength⟩

/-- Enter reads all of the line. -/
theorem Good.string (h : Good z vty) (vty' : Vty) (hsame : vty'.buf = vty.buf) :
    ∃ hfree, bufString vty' = .ok ⟨z.text, hfree⟩ := by
  obtain ⟨n, hn⟩ := h.held
  have hbuf : vty'.buf = z.text ++ 0 :: List.replicate n 0 := by
    rw [hsame, ← hn]
    rfl
  have hfield : CString.ofField vty'.buf = z.text := by rw [hbuf, Cells.ofField_cut h.plain.no_nul]
  have hmem : (0 : UInt8) ∈ vty'.buf := by
    rw [hbuf]
    simp
  refine ⟨h.plain.no_nul, ?_⟩
  rw [bufString, if_pos hmem]
  simp only [hfield]

end Good

/-- The line and the history are not touched. -/
structure SameText (vty vty' : Vty) : Prop where
  buf : vty'.buf = vty.buf
  cp : vty'.cp = vty.cp
  length : vty'.length = vty.length
  hist : vty'.hist = vty.hist

theorem SameText.line {z : Zipper UInt8} {n : Nat} {vty vty' : Vty} (h : SameText vty vty')
    (hn : line z n vty = vty) :
    NetmtVtyEdit.line z n vty' = vty' := by
  have hsame : setLine vty.buf vty.cp vty.length vty' = vty' := by
    rw [← h.buf, ← h.cp, ← h.length]
    rfl
  rw [← hn] at hsame
  exact hsame

/-- What is in order does not depend on the other fields. -/
theorem Good.congr {z : Zipper UInt8} {vty vty' : Vty} (h : Good z vty) (hsame : SameText vty vty')
    (hstatus : vty'.status ≠ .VTY_START ∧ vty'.status ≠ .VTY_CONTINUE)
    (hrow : vty'.status ≠ .VTY_CLOSE → Shown (Row.showing z) vty') : Good z vty' := by
  obtain ⟨n, hn⟩ := h.held
  refine ⟨⟨n, hsame.line hn⟩, h.plain, fun i t ht => ?_, hstatus, hrow⟩
  rw [hsame.buf]
  exact h.hist i t (hsame.hist ▸ ht)

/-! ## A new prompt -/

/-- The line is gone and the history is what it was, until there is a new prompt. -/
structure Emptied (vty vty' : Vty) : Prop where
  buf : vty'.buf = List.replicate vty.buf.length 0
  cp : vty'.cp = 0
  length : vty'.length = 0
  hist : ∀ i t, vty'.hist i = some t → Plain t ∧ t.length < vty.buf.length
  status : vty'.status ≠ .VTY_START ∧ vty'.status ≠ .VTY_CONTINUE
  row : vty'.status ≠ .VTY_CLOSE → rowOf vty'.out = some Row.blank

theorem Emptied.good {z : Zipper UInt8} {vty vty' : Vty} (h : Good z vty) (he : Emptied vty vty') :
    Good (.behind []) vty' := by
  obtain ⟨size, hsize⟩ :=
    Nat.exists_eq_succ_of_ne_zero (Nat.ne_of_gt (Nat.lt_of_le_of_lt (Nat.zero_le _) h.short))
  refine ⟨⟨size, ?_⟩, fun c hc => absurd hc List.not_mem_nil, fun i t ht => ?_, he.status,
    fun hopen => ?_⟩
  · have hsame : setLine (List.replicate vty.buf.length 0) 0 0 vty' = vty' := by
      rw [← he.buf]
      conv_rhs => rw [← setLine_self vty']
      rw [he.cp, he.length]
    rw [hsize] at hsame
    exact hsame
  · rw [he.buf, List.length_replicate]
    exact he.hist i t ht
  · rw [Shown, he.row hopen]
    split <;> rfl

/-- Another node. -/
def moved (node : NodeType) (status : Status) (config vty_config : Bool) (vty : Vty) : Vty :=
  { vty with node := node, status := status, config := config, vty_config := vty_config }

theorem unlock_moved (vty : Vty) :
    ∃ config vty_config, vtyConfigUnlock vty = moved vty.node vty.status config vty_config vty := by
  unfold vtyConfigUnlock
  split
  · exact ⟨_, _, rfl⟩
  · exact ⟨_, _, rfl⟩

theorem configExit_moved (vty : Vty) :
    ∃ node status config vty_config, configExit vty = moved node status config vty_config vty ∧
    inAuth node = inAuth vty.node ∧ (status = vty.status ∨ status = .VTY_CLOSE) := by
  unfold configExit
  cases hnode : vty.node with
  | CONFIG_NODE =>
    obtain ⟨config, vty_config, hunlock⟩ := unlock_moved { vty with node := .ENABLE_NODE }
    exact ⟨_, _, config, vty_config, hunlock, rfl, .inl rfl⟩
  | VIEW_NODE | ENABLE_NODE => exact ⟨_, _, _, _, rfl, rfl, .inr rfl⟩
  | _ =>
    -- another command node, or the one it was
    first
    | exact ⟨_, _, _, _, rfl, rfl, .inl rfl⟩
    | exact ⟨_, _, _, _, rfl, congrArg inAuth hnode, .inl rfl⟩

theorem shown_empty {z : Zipper UInt8} {vty : Vty} (hz : z.text = [])
    (hout : rowOf vty.out = some Row.blank) :
    Shown (Row.showing z) vty := by
  have hlength := z.length_text
  rw [hz, List.length_nil] at hlength
  have hblank : Row.showing z = Row.blank := by
    rw [Row.showing, hz, Nat.eq_zero_of_add_eq_zero_right hlength.symm]
    rfl
  rw [Shown, hout, hblank]
  split <;> rfl

theorem cp_empty {z : Zipper UInt8} {vty : Vty} (h : Good z vty) (hempty : z.text = []) :
    (0 : Nat) = vty.cp := by
  have hlength := z.length_text
  rw [hempty, List.length_nil] at hlength
  rw [h.cp]
  omega

/-- `vty_down_level` with an empty line -/
theorem downLevel_good {z : Zipper UInt8} {vty : Vty} (h : Good z vty) (hempty : z.text = []) :
    Leaves vty z (.ok (vtyDownLevel vty)) := by
  obtain ⟨node, status, config, vty_config, hmoved, hauth, hstatus⟩ :=
    configExit_moved (vtyOut VTY_NEWLINE vty)
  have hframe : Frame vty (vtyDownLevel vty) := by
    rw [vtyDownLevel, hmoved]
    exact ⟨⟨rfl, rfl, rfl, hstatus⟩, hauth, rfl⟩
  refine ⟨_, rfl, ?_, hframe⟩
  have hrunning := hframe.running h.status
  rw [vtyDownLevel, hmoved] at hrunning ⊢
  exact h.congr ⟨rfl, cp_empty h hempty, rfl, rfl⟩ hrunning fun _ =>
    shown_empty hempty (rowOf_prompt _ _)

/-- `vty_end_config` with an empty line -/
theorem endConfig_good {z : Zipper UInt8} {vty : Vty} (h : Good z vty) (hempty : z.text = []) :
    Leaves vty z (.ok (vtyEndConfig vty)) := by
  have hmoved : ∃ node config vty_config, vtyEndConfig vty =
      { vtyPrompt (moved node vty.status config vty_config (vtyOut VTY_NEWLINE vty)) with
        cp := 0 } ∧
      inAuth node = inAuth vty.node := by
    obtain ⟨config, vty_config, hunlock⟩ := unlock_moved (vtyOut VTY_NEWLINE vty)
    unfold vtyEndConfig
    simp only
    split
    all_goals first
      | exact ⟨_, _, _, rfl, rfl⟩
      | next hnode =>
        rw [hunlock]
        exact ⟨_, _, _, rfl, (congrArg inAuth hnode).symm⟩
  obtain ⟨node, config, vty_config, hrun, hauth⟩ := hmoved
  rw [hrun]
  exact ⟨_, rfl, h.congr ⟨rfl, cp_empty h hempty, rfl, rfl⟩ h.status fun _ => shown_empty hempty
    (rowOf_prompt _ _),
    ⟨rfl, rfl, rfl, .inl rfl⟩, hauth, rfl⟩

/-- `vty_stop_input` -/
theorem stopInput_good {z : Zipper UInt8} {vty : Vty} (h : Good z vty) :
    Leaves { vty with hp := vty.hindex } (.behind []) (.ok (vtyStopInput vty)) := by
  have hmoved : ∃ node config vty_config, vtyStopInput vty =
      { vtyPrompt (moved node vty.status config vty_config
        (vtyOut VTY_NEWLINE (vtyClearBuf { vty with cp := 0, length := 0 }))) with
        hp := vty.hindex } ∧ inAuth node = inAuth vty.node := by
    obtain ⟨config, vty_config, hunlock⟩ :=
      unlock_moved (vtyOut VTY_NEWLINE (vtyClearBuf { vty with cp := 0, length := 0 }))
    unfold vtyStopInput
    simp only
    split
    all_goals first
      | exact ⟨_, _, _, rfl, rfl⟩
      | next hnode =>
        rw [hunlock]
        exact ⟨_, _, _, rfl, (congrArg inAuth hnode).symm⟩
  obtain ⟨node, config, vty_config, hrun, hauth⟩ := hmoved
  rw [hrun]
  exact ⟨_, rfl, Emptied.good h ⟨rfl, rfl, rfl, h.hist, h.status, fun _ => rowOf_prompt _ _⟩,
    ⟨rfl, rfl, rfl, .inl rfl⟩, hauth, rfl⟩

/-! ## A line that is entered -/

/-- What `vty_auth` and `vty_command` leave alone. -/
structure SameLine (vty vty' : Vty) : Prop extends Modes vty vty' where
  buf : vty'.buf = vty.buf
  length : vty'.length = vty.length
  ring : ring vty' = ring vty

theorem SameLine.refl (vty : Vty) : SameLine vty vty := ⟨Modes.refl vty, rfl, rfl, rfl⟩

theorem SameLine.ite {c : Prop} [Decidable c] {vty v v' : Vty} (h : SameLine vty v)
    (h' : SameLine vty v') :
    SameLine vty (if c then v else v') := by
  split
  · exact h
  · exact h'

theorem auth_same (env : Env) (buf : CString) (vty : Vty) : SameLine vty (vtyAuth env buf vty) := by
  unfold vtyAuth
  refine SameLine.ite ⟨⟨rfl, rfl, rfl, .inl rfl⟩, rfl, rfl, rfl⟩
    (SameLine.ite (SameLine.ite ?_ ?_) ?_)
  · exact ⟨⟨rfl, rfl, rfl, .inr rfl⟩, rfl, rfl, rfl⟩
  · exact ⟨⟨rfl, rfl, rfl, .inl rfl⟩, rfl, rfl, rfl⟩
  · exact ⟨⟨rfl, rfl, rfl, .inl rfl⟩, rfl, rfl, rfl⟩

theorem command_same (env : Env) (buf : CString) (vty : Vty) :
    SameLine vty (vtyCommand env buf vty) := by
  unfold vtyCommand
  split
  · exact SameLine.refl vty
  · split
    · split
      · exact ⟨⟨rfl, rfl, rfl, .inl rfl⟩, rfl, rfl, rfl⟩
      · exact SameLine.refl vty
    · next element argv _ =>
      refine ⟨⟨rfl, rfl, rfl, ?_⟩, rfl, rfl, rfl⟩
      by_cases hcloses : (env.func element argv vty.node).closes = true
      · exact .inr (if_pos hcloses)
      · exact .inl (if_neg hcloses)

/-- The places of the history around one. -/
def indexBefore (i : Nat) : Nat := if i = 0 then VTY_MAXHIST - 1 else i - 1
def indexBehind (i : Nat) : Nat := if i + 1 = VTY_MAXHIST then 0 else i + 1

/-- A line is added, unless it is empty or the last one there is. -/
def Ring.add (t : List UInt8) (r : Ring) : Ring :=
  if t = [] then r
  else if r.hist (indexBefore r.hindex) = some t then { r with hp := r.hindex }
  else ⟨Function.update r.hist r.hindex (some t), indexBehind r.hindex, indexBehind r.hindex⟩

/-- `vty_hist_add` -/
theorem histAdd_run {t : List UInt8} {hfree : (0 : UInt8) ∉ t} {vty : Vty}
    (hstring : bufString vty = .ok ⟨t, hfree⟩) (hlength : vty.length = t.length) :
    ∃ vty', vtyHistAdd vty = .ok vty' ∧ vty'.buf = vty.buf ∧ Modes vty vty' ∧
    ring vty' = (ring vty).add t := by
  by_cases hempty : t = []
  · rw [vtyHistAdd, if_pos (by rw [hlength, hempty]; rfl), Ring.add, if_pos hempty]
    exact ⟨vty, rfl, rfl, Modes.refl vty, rfl⟩
  · rw [vtyHistAdd,
      if_neg (by rw [hlength]; exact fun hzero => hempty (List.length_eq_zero_iff.mp hzero)),
      hstring, Ring.add,
      if_neg hempty]
    by_cases hlast : vty.hist (indexBefore vty.hindex) = some t
    · exact ⟨{ vty with hp := vty.hindex }, congrArg Except.ok (if_pos hlast), rfl,
        ⟨rfl, rfl, rfl, .inl rfl⟩, (if_pos hlast).symm⟩
    · exact ⟨_, congrArg Except.ok (if_neg hlast), rfl, ⟨rfl, rfl, rfl, .inl rfl⟩,
        (if_neg hlast).symm⟩

theorem Ring.add_hist {t : List UInt8} {r : Ring} {i : Nat} {s : List UInt8}
    (h : (r.add t).hist i = some s) :
    s = t ∨ r.hist i = some s := by
  unfold Ring.add at h
  split at h
  · exact .inr h
  · split at h
    · exact .inr h
    · by_cases hi : i = r.hindex
      · rw [hi] at h
        simp only [Function.update_self, Option.some.injEq] at h
        exact .inl h.symm
      · simp only [Function.update_of_ne hi] at h
        exact .inr h

/-- The history behind Enter. -/
def entered (auth : Bool) (t : List UInt8) (r : Ring) : Ring := if auth then r else r.add t

/-- `vty_execute` behind the line feed -/
theorem execute_good {z : Zipper UInt8} {vty : Vty} (h : Good z vty) (env : Env) :
    ∃ vty', vtyExecute env (vtyOut VTY_NEWLINE vty) = .ok vty' ∧
    Good (.behind []) vty' ∧ Modes vty vty' ∧
      ring vty' = entered (inAuth vty.node) z.text (ring vty) := by
  obtain ⟨hfree, hstring⟩ := h.string (vtyOut VTY_NEWLINE vty) rfl
  -- the line is run, and what is run leaves the buffer alone
  have hrun : ∃ vty', (if inAuth (vtyOut VTY_NEWLINE vty).node then
        Except.ok (vtyAuth env ⟨z.text, hfree⟩ (vtyOut VTY_NEWLINE vty))
      else vtyHistAdd (vtyCommand env ⟨z.text, hfree⟩ (vtyOut VTY_NEWLINE vty))) = .ok vty' ∧
        vty'.buf = vty.buf ∧
      Modes vty vty' ∧ ring vty' = entered (inAuth vty.node) z.text (ring vty) := by
    have hout : Modes vty (vtyOut VTY_NEWLINE vty) := ⟨rfl, rfl, rfl, .inl rfl⟩
    by_cases hauth : inAuth vty.node = true
    · have hsame := auth_same env ⟨z.text, hfree⟩ (vtyOut VTY_NEWLINE vty)
      rw [if_pos (by exact hauth), entered, if_pos hauth]
      exact ⟨_, rfl, hsame.buf, hout.trans hsame.toModes, hsame.ring⟩
    · have hsame := command_same env ⟨z.text, hfree⟩ (vtyOut VTY_NEWLINE vty)
      obtain ⟨hfree', hstring'⟩ := h.string _ hsame.buf
      obtain ⟨vty', hadd, hbuf, hmodes, hring⟩ := histAdd_run hstring' (hsame.length.trans h.length)
      rw [if_neg (by exact hauth), entered, if_neg hauth]
      refine ⟨vty', hadd, hbuf.trans hsame.buf, hout.trans (hsame.toModes.trans hmodes), ?_⟩
      rw [hring, hsame.ring]
      rfl
  obtain ⟨vty', hrun, hbuf, hmodes, hring⟩ := hrun
  have hrunning := hmodes.running h.status
  have hfits : ∀ i t, vty'.hist i = some t → Plain t ∧ t.length < vty.buf.length := by
    intro i t ht
    have hin : (entered (inAuth vty.node) z.text (ring vty)).hist i = some t := by
      rw [← hring]
      exact ht
    unfold entered at hin
    split at hin
    · exact h.hist i t hin
    · rcases Ring.add_hist hin with rfl | hold
      · exact ⟨h.plain, h.short⟩
      · exact h.hist i t hold
  have hzeros : List.replicate vty'.buf.length (0 : UInt8) = List.replicate vty.buf.length 0 := by
    rw [hbuf]
  rw [vtyExecute, hstring]
  simp only [Except.bind, hrun, Except.map]
  by_cases hclosed : vty'.status = .VTY_CLOSE
  · have hstay : ¬ (vty'.status ≠ .VTY_CLOSE ∧ vty'.status ≠ .VTY_START ∧
        vty'.status ≠ .VTY_CONTINUE) := fun hne => hne.1 hclosed
    rw [if_neg (by exact hstay)]
    exact ⟨_, rfl,
      Emptied.good h ⟨hzeros, rfl, rfl, hfits, hrunning, fun hne => absurd hclosed hne⟩,
      ⟨hmodes.iac, hmodes.sub, hmodes.escape, hmodes.status⟩, hring⟩
  · rw [if_pos (by exact ⟨hclosed, hrunning⟩)]
    exact ⟨_, rfl, Emptied.good h ⟨hzeros, rfl, rfl, hfits, hrunning, fun _ => rowOf_prompt _ _⟩,
      ⟨hmodes.iac, hmodes.sub, hmodes.escape, hmodes.status⟩, hring⟩

/-! ## The history -/

theorem historyPrint_good {z : Zipper UInt8} {vty : Vty} (h : Good z vty) {i : Nat} {t : List UInt8}
    (ht : vty.hist i = some t) :
    Leaves { vty with hp := i } (.behind t) (vtyHistoryPrint { vty with hp := i }) := by
  obtain ⟨hplain, hshort⟩ := h.hist i t ht
  have hmoved : Good z { vty with hp := i } := h.congr ⟨rfl, rfl, rfl, rfl⟩ h.status h.row
  refine hmoved.edited (by rwa [Zipper.text_behind]) fun n hn =>
    historyPrint_edits h.plain ht hplain ?_
  have hsize := size_line hn
  simp only at hsize
  omega

/-- The line at a place of the history, if there is one. -/
def recalled (i : Nat) (vty : Vty) : Except Halt Vty :=
  if vty.hist i = none then .ok vty else vtyHistoryPrint { vty with hp := i }

theorem previousLine_recalled (vty : Vty) :
    vtyPreviousLine vty = recalled (indexBefore vty.hp) vty := rfl

theorem nextLine_recalled (vty : Vty) :
    vtyNextLine vty = if vty.hp = vty.hindex then .ok vty
      else recalled (indexBehind vty.hp) vty := by
  have hsame : (if vty.hp = VTY_MAXHIST - 1 then 0 else vty.hp + 1) = indexBehind vty.hp := by
    unfold indexBehind VTY_MAXHIST
    split <;> split <;> omega
  rw [← hsame]
  rfl

theorem recalled_good {z : Zipper UInt8} {vty : Vty} (h : Good z vty) (i : Nat) :
    (vty.hist i = none ∧ recalled i vty = .ok vty) ∨
      ∃ t, vty.hist i = some t ∧ Leaves { vty with hp := i } (.behind t) (recalled i vty) := by
  cases ht : vty.hist i with
  | none => exact .inl ⟨rfl, if_pos ht⟩
  | some t =>
    have hrun : recalled i vty = vtyHistoryPrint { vty with hp := i } :=
      if_neg (by rw [ht]; exact Option.some_ne_none t)
    rw [hrun]
    exact .inr ⟨t, rfl, historyPrint_good h ht⟩

/-! ## Keys that edit -/

/-- What a key makes of a line, where it is shown or where a password is asked for. Enter,
Tab and the keys of the history are not among these. -/
def keyed (auth : Bool) (c : UInt8) (z : Zipper UInt8) : Zipper UInt8 :=
  if c = control 65 then z.home
  else if c = control 66 then z.backward
  else if c = control 67 then .behind []
  else if c = control 68 then if auth then z else z.delete
  else if c = control 69 then .behind z.text
  else if c = control 70 then z.forward
  else if c = control 72 ∨ c = 127 then if auth then z.backward else z.rub
  else if c = control 75 then z.kill
  else if c = control 84 then z.transpose
  else if c = control 85 then .behind []
  else if c = control 87 then
    if auth then (z.backwardWhile (isBlank true)).backwardWhile (isBlank false)
      else (z.rubWhile (isBlank true)).rubWhile (isBlank false)
  else if c = 63 then if auth then z.insert c else .behind z.text
  else if 31 < c ∧ c < 127 then z.insert c
  else z

/-- `vty_delete_char` -/
theorem delete_good {z : Zipper UInt8} {vty : Vty} (h : Good z vty) :
    Leaves vty (if inAuth vty.node then z else z.delete) (vtyDeleteChar vty) := by
  by_cases hauth : inAuth vty.node = true
  · rw [if_pos hauth, delete_auth hauth]
    exact Leaves.stay h
  · rw [if_neg hauth]
    cases hafter : z.after with
    | nil =>
      have hlength := z.length_text
      have hsame : z.delete = z := by rw [Zipper.delete, hafter, List.tail_nil, ← hafter]
      rw [hafter, List.length_nil] at hlength
      rw [hsame, vtyDeleteChar, if_neg hauth]
      by_cases hempty : vty.length = 0
      · rw [if_pos hempty]
        exact downLevel_good h (List.length_eq_zero_iff.mp (h.length.symm.trans hempty))
      · rw [if_neg hempty, if_pos (by rw [h.cp, h.length]; omega)]
        exact Leaves.stay h
    | cons c after =>
      refine h.edited (plain_delete h.plain) fun n _ =>
        delete_edits (Bool.eq_false_iff.mpr hauth) h.plain ?_
      rw [hafter]
      exact List.cons_ne_nil c after

theorem plain_transpose {z : Zipper UInt8} (hz : Plain z.text) : Plain z.transpose.text := by
  intro c hc
  obtain ⟨before, after⟩ := z
  refine hz c ?_
  cases before with
  | nil => exact hc
  | cons b before =>
    cases after with
    | cons a after =>
      simp only [Zipper.transpose, Zipper.text, List.reverse_cons, List.mem_append,
        List.mem_cons] at hc ⊢
      tauto
    | nil =>
      cases before with
      | nil => exact hc
      | cons a before =>
        simp only [Zipper.transpose, Zipper.text, List.reverse_cons, List.mem_append,
          List.mem_cons] at hc ⊢
        tauto

theorem plain_kill {z : Zipper UInt8} (hz : Plain z.text) : Plain z.kill.text := fun c hc => by
  rw [Zipper.kill, Zipper.text, List.append_nil] at hc
  exact hz c (List.mem_append_left _ hc)

theorem plain_nil : Plain (Zipper.behind ([] : List UInt8)).text :=
  fun _ hc => absurd hc List.not_mem_nil

theorem plain_behind {t : List UInt8} (ht : Plain t) : Plain (Zipper.behind t).text := by
  rwa [Zipper.text_behind]

/-- A line that is drawn behind a prompt. -/
theorem Good.drawn {z z' : Zipper UInt8} {vty : Vty} (h : Good z vty) (vty' : Vty)
    (hsame : SameText vty vty') (hframe : Frame vty vty') (hout : rowOf vty'.out = some Row.blank)
    (hz' : Plain z'.text) {f : Vty → Except Halt Vty}
    (hf : ∀ n, line z n vty = vty → Becomes vty' Row.blank (z.text.length + n) z'
      (f (line z n vty'))) :
    Leaves vty z' (f vty') := by
  obtain ⟨n, hn⟩ := h.held
  have hedit := hf n hn
  rw [hsame.line hn] at hedit
  refine Leaves.after hframe
    (Becomes.leaves hedit hz' (fun i t ht => ?_) (hframe.running h.status) fun _ => ?_)
  · obtain ⟨hplain, hshort⟩ := h.hist i t (hsame.hist ▸ ht)
    rw [size_line hn] at hshort
    exact ⟨hplain, Nat.le_of_lt_succ hshort⟩
  · rw [Shown, hout]
    split <;> rfl

/-- `vty_redraw_line` behind a prompt. -/
theorem redraw_good {z : Zipper UInt8} {vty vty' : Vty} (h : Good z vty) (hsame : SameText vty vty')
    (hframe : Frame vty vty') (hout : rowOf vty'.out = some Row.blank) :
    Leaves vty (.behind z.text) (vtyRedrawLine vty') :=
  h.drawn vty' hsame hframe hout (plain_behind h.plain) fun _ _ => redraw_becomes h.plain

/-- Memory for one more character: there is room, or what a `realloc` adds is zero. -/
def Room (grown : Nat → UInt8) (vty : Vty) : Prop :=
  vty.length + 1 < vty.buf.length ∨ ∀ i, grown i = 0

theorem Room.roomy {grown : Nat → UInt8} {z : Zipper UInt8} {n : Nat} {vty : Vty}
    (h : Room grown vty) (hn : line z n vty = vty) : Roomy n grown := by
  refine h.imp_left fun hroom => ?_
  rw [← hn, line_length, hn, size_line hn] at hroom
  omega

/-- `vty_self_insert` -/
theorem insert_good {z : Zipper UInt8} {vty : Vty} (h : Good z vty) {grown : Nat → UInt8}
    (hroom : Room grown vty) {c : UInt8} (hc : Printable c) :
    Leaves vty (z.insert c) (vtySelfInsert grown c vty) :=
  h.edited (plain_insert h.plain hc) fun _ hn => insert_edits (hroom.roomy hn) h.plain hc

end NetmtVtyGood
