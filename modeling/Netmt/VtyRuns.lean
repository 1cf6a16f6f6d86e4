import Netmt.VtyWords

/-!
# Reads of a terminal

Whatever comes in, in whatever pieces, the buffer holds a line, and the row behind the last
prompt shows that line with the cursor where it is edited; a password is not shown.
-/
namespace NetmtVtyRuns

open NetmtVty NetmtVtyEdit NetmtVtyGood NetmtVtyWords NetmtCli

/-! ## The keys -/

/-- Bytes are keys: no option is under way, and nothing waits to be shown. -/
structure Keys (vty : Vty) : Prop where
  iac : vty.iac = false
  sub : vty.iac_sb_in_progress = false
  shown : vty.status ≠ .VTY_MORE

theorem Keys.modes {vty vty' : Vty} (h : Keys vty) (hiac : vty'.iac = vty.iac)
    (hsub : vty'.iac_sb_in_progress = vty.iac_sb_in_progress)
    (hstatus : vty'.status = vty.status ∨ vty'.status = .VTY_CLOSE) : Keys vty' := by
  refine ⟨hiac.trans h.iac, hsub.trans h.sub, ?_⟩
  rcases hstatus with hsame | hclosed
  · rw [hsame]
    exact h.shown
  · rw [hclosed]
    exact Status.noConfusion

/-- A key that writes a character of the line. -/
def Inserts (c : UInt8) (vty : Vty) : Prop :=
  Keys vty ∧ vty.escape = .VTY_NORMAL ∧
    (c = control 84 ∨ (31 < c ∧ c < 127) ∧ (c = 63 → inAuth vty.node = true))

/-- What a byte may be: no defect of the code is reached, and the line is not hidden. -/
structure Permitted (env : Env) (c : UInt8) (vty : Vty) : Prop where
  room : Inserts c vty → Room env.grown vty
  tab : c = 9 → Fitting env vty
  word : c = 100 → Keys vty → vty.escape = .VTY_PRE_ESCAPE → inAuth vty.node = true →
    vty.cp = vty.length
  option : c = SE → vty.iac = true → vty.iac_sb_in_progress = true → vty.sb_buffer ≠ []
  leave : c = control 90 → Keys vty → vty.escape = .VTY_NORMAL → vty.length = 0

section Keys

variable {z : Zipper UInt8} {vty : Vty} {env : Env}

theorem rub_good (h : Good z vty) :
    Leaves vty (if inAuth vty.node then z.backward else z.rub) (vtyDeleteBackwardChar vty) := by
  refine h.edited ?_ fun _ _ => rub_edits h.plain
  split
  · exact plain_backward h.plain
  · exact plain_rub h.plain

theorem backwardKillWord_good (h : Good z vty) :
    Leaves vty (if inAuth vty.node then
      (z.backwardWhile (isBlank true)).backwardWhile (isBlank false)
      else (z.rubWhile (isBlank true)).rubWhile (isBlank false)) (vtyBackwardKillWord vty) := by
  have hrubbed : ∀ (space : Bool) (z : Zipper UInt8), Plain z.text →
      Plain (z.rubWhile (isBlank space)).text := by
    intro space z hz
    rw [← Zipper.repeat_rub (isBlank space) (z.before.length + 1) z (Nat.lt_succ_self _)]
    exact plain_repeat (fun _ => plain_rub) _ _ hz
  refine h.edited ?_ fun _ _ => backwardKillWord_edits h.plain
  split
  · rw [Zipper.text_backwardWhile, Zipper.text_backwardWhile]
    exact h.plain
  · exact hrubbed false _ (hrubbed true _ h.plain)

/-- The keys that edit, all but those for a line of the history, for Tab and for Enter. -/
def Editing (c : UInt8) : Prop := c ≠ control 78 ∧ c ≠ control 80 ∧ c ≠ 9 ∧ ¬ (c = 10 ∨ c = 13)

/-- Ctrl-C goes back to the end of the history. -/
def cancelled (c : UInt8) (vty : Vty) : Vty :=
  if c = control 67 then { vty with hp := vty.hindex } else vty

/-- A key that edits. -/
theorem key_edits (h : Good z vty) {c : UInt8} (hc : Permitted env c vty) (hkeys : Keys vty)
    (hnormal : vty.escape = .VTY_NORMAL) (hedits : Editing c) :
    Leaves (cancelled c vty) (keyed (inAuth vty.node) c z) (keyByte env c vty) := by
  obtain ⟨hnext, hprevious, htab, henter⟩ := hedits
  unfold keyed keyByte
  by_cases hhome : c = control 65
  · rw [if_pos hhome, if_pos hhome, cancelled, if_neg (by rw [hhome]; decide)]
    exact h.edited h.plain fun _ _ => home_edits h.plain
  rw [if_neg hhome, if_neg hhome]
  by_cases hbackward : c = control 66
  · rw [if_pos hbackward, if_pos hbackward, cancelled, if_neg (by rw [hbackward]; decide)]
    exact h.edited (f := fun vty => .ok (vtyBackwardChar vty)) (plain_backward h.plain) fun _ _ =>
      backward_edits
  rw [if_neg hbackward, if_neg hbackward]
  by_cases hstop : c = control 67
  · rw [if_pos hstop, if_pos hstop, cancelled, if_pos hstop]
    exact stopInput_good h
  rw [if_neg hstop, if_neg hstop, cancelled, if_neg hstop]
  by_cases hdelete : c = control 68
  · rw [if_pos hdelete, if_pos hdelete]
    exact delete_good h
  rw [if_neg hdelete, if_neg hdelete]
  by_cases hend : c = control 69
  · rw [if_pos hend, if_pos hend]
    exact h.edited (plain_behind h.plain) fun _ _ => end_edits h.plain
  rw [if_neg hend, if_neg hend]
  by_cases hforward : c = control 70
  · rw [if_pos hforward, if_pos hforward]
    exact h.edited (plain_forward h.plain) fun _ _ => forward_edits h.plain
  rw [if_neg hforward, if_neg hforward]
  by_cases hrub : c = control 72 ∨ c = 127
  · rw [if_pos hrub, if_pos hrub]
    exact rub_good h
  rw [if_neg hrub, if_neg hrub]
  by_cases hkill : c = control 75
  · rw [if_pos hkill, if_pos hkill]
    exact h.edited (plain_kill h.plain) fun _ _ => kill_edits
  rw [if_neg hkill, if_neg hkill, if_neg hnext, if_neg hprevious]
  by_cases htranspose : c = control 84
  · rw [if_pos htranspose, if_pos htranspose]
    have hroom : Room env.grown vty := hc.room ⟨hkeys, hnormal, .inl htranspose⟩
    exact h.edited (plain_transpose h.plain) fun _ hn => transpose_edits (hroom.roomy hn) h.plain
  rw [if_neg htranspose, if_neg htranspose]
  by_cases hclear : c = control 85
  · rw [if_pos hclear, if_pos hclear]
    exact h.edited plain_nil fun _ _ => killAll_edits h.plain
  rw [if_neg hclear, if_neg hclear]
  by_cases hword : c = control 87
  · rw [if_pos hword, if_pos hword]
    exact backwardKillWord_good h
  rw [if_neg hword, if_neg hword]
  by_cases hleave : c = control 90
  · have hrest : c ≠ 63 ∧ ¬ (31 < c ∧ c < 127) := by
      rw [hleave]
      decide
    rw [if_pos hleave, if_neg hrest.1, if_neg hrest.2]
    exact endConfig_good h
      (List.length_eq_zero_iff.mp (h.length.symm.trans (hc.leave hleave hkeys hnormal)))
  rw [if_neg hleave, if_neg henter, if_neg htab]
  by_cases hhelp : c = 63
  · rw [if_pos hhelp, if_pos hhelp]
    split
    · next hauth =>
      have hplain : 31 < c ∧ c < 127 := by
        rw [hhelp]
        exact ⟨by decide, by decide⟩
      exact insert_good h (hc.room ⟨hkeys, hnormal, .inr ⟨hplain, fun _ => hauth⟩⟩) hplain
    · exact describe_good h env
  rw [if_neg hhelp, if_neg hhelp]
  by_cases hplain : 31 < c ∧ c < 127
  · rw [if_pos hplain, if_pos hplain]
    exact insert_good h
      (hc.room ⟨hkeys, hnormal, .inr ⟨hplain, fun heq => absurd heq hhelp⟩⟩) hplain
  · rw [if_neg hplain, if_neg hplain]
    exact Leaves.stay h

theorem key_previous : keyByte env (control 80) vty = vtyPreviousLine vty := rfl

theorem key_next : keyByte env (control 78) vty = vtyNextLine vty := rfl

theorem key_tab : keyByte env 9 vty = vtyCompleteCommand env vty := rfl

theorem key_enter {c : UInt8} (hc : c = 10 ∨ c = 13) :
    keyByte env c vty = vtyExecute env (vtyOut VTY_NEWLINE vty) := by
  rcases hc with rfl | rfl
  · rfl
  · rfl

/-- A run that leaves some line. -/
def Kept (r : Except Halt Vty) : Prop := ∃ vty z, r = .ok vty ∧ Good z vty

theorem Leaves.kept {r : Except Halt Vty} (h : Leaves vty z r) : Kept r := by
  obtain ⟨v, hrun, hgood, -⟩ := h
  exact ⟨v, z, hrun, hgood⟩

theorem recalled_kept (h : Good z vty) (i : Nat) : Kept (recalled i vty) := by
  rcases recalled_good h i with ⟨-, hrun⟩ | ⟨t, -, hshown⟩
  · exact ⟨vty, z, hrun, h⟩
  · exact Leaves.kept hshown

theorem nextLine_kept (h : Good z vty) : Kept (vtyNextLine vty) := by
  rw [nextLine_recalled]
  split
  · exact ⟨vty, z, rfl, h⟩
  · exact recalled_kept h _

/-- Whatever key it is. -/
theorem key_kept (h : Good z vty) {c : UInt8} (hc : Permitted env c vty) (hkeys : Keys vty)
    (hnormal : vty.escape = .VTY_NORMAL) : Kept (keyByte env c vty) := by
  by_cases hnext : c = control 78
  · rw [hnext, key_next]
    exact nextLine_kept h
  by_cases hprevious : c = control 80
  · rw [hprevious, key_previous]
    exact recalled_kept h _
  by_cases htab : c = 9
  · rw [htab, key_tab]
    obtain ⟨z', -, hmade⟩ := complete_good h (hc.tab htab)
    exact Leaves.kept hmade
  by_cases henter : c = 10 ∨ c = 13
  · rw [key_enter henter]
    obtain ⟨v, hrun, hgood, -⟩ := execute_good h env
    exact ⟨v, _, hrun, hgood⟩
  · exact Leaves.kept (key_edits h hc hkeys hnormal ⟨hnext, hprevious, htab, henter⟩)

/-! ## Escapes -/

theorem good_mode (h : Good z vty) (e : Escape) : Good z { vty with escape := e } :=
  h.congr ⟨rfl, rfl, rfl, rfl⟩ h.status h.row

theorem Leaves.mode {r : Except Halt Vty} (h : Leaves vty z r) (e : Escape) :
    Leaves { vty with escape := e } z (r.map fun v => { v with escape := e }) := by
  obtain ⟨v, rfl, hgood, hframe⟩ := h
  exact ⟨_, rfl, good_mode hgood e, ⟨hframe.iac, hframe.sub, rfl, hframe.status⟩,
    hframe.auth, hframe.ring⟩

theorem Kept.mode {r : Except Halt Vty} (h : Kept r) (e : Escape) :
    Kept (r.map fun v => { v with escape := e }) := by
  obtain ⟨v, z, rfl, hgood⟩ := h
  exact ⟨_, z, rfl, good_mode hgood e⟩

/-- What the arrows make of a line. -/
def arrowed (c : UInt8) (z : Zipper UInt8) : Zipper UInt8 :=
  if c = 67 then z.forward else if c = 68 then z.backward else z

/-- `vty_escape_map`, but for the arrows up and down. -/
theorem escapeMap_edits (h : Good z vty) {c : UInt8} (hup : c ≠ 65) (hdown : c ≠ 66) :
    Leaves { vty with escape := .VTY_NORMAL } (arrowed c z) (vtyEscapeMap c vty) := by
  rw [vtyEscapeMap, if_neg hup, if_neg hdown]
  refine Leaves.mode ?_ .VTY_NORMAL
  unfold arrowed
  by_cases hright : c = 67
  · rw [if_pos hright, if_pos hright]
    exact h.edited (plain_forward h.plain) fun _ _ => forward_edits h.plain
  rw [if_neg hright, if_neg hright]
  by_cases hleft : c = 68
  · rw [if_pos hleft, if_pos hleft]
    exact h.edited (f := fun vty => .ok (vtyBackwardChar vty)) (plain_backward h.plain) fun _ _ =>
      backward_edits
  · rw [if_neg hleft, if_neg hleft]
    exact Leaves.stay h

theorem escapeMap_kept (h : Good z vty) (c : UInt8) : Kept (vtyEscapeMap c vty) := by
  by_cases hup : c = 65
  · rw [vtyEscapeMap, if_pos hup]
    exact Kept.mode (recalled_kept h _) .VTY_NORMAL
  by_cases hdown : c = 66
  · rw [vtyEscapeMap, if_neg hup, if_pos hdown]
    exact Kept.mode (nextLine_kept h) .VTY_NORMAL
  · exact Leaves.kept (escapeMap_edits h hup hdown)

/-- What a key behind an escape character makes of a line. -/
def escaped (auth : Bool) (c : UInt8) (z : Zipper UInt8) : Zipper UInt8 :=
  if c = 98 then (z.backwardWhile (isBlank true)).backwardWhile (isBlank false)
  else if c = 102 then (z.forwardWhile (isBlank false)).forwardWhile (isBlank true)
  else if c = 100 then if auth then z
    else (z.deleteWhile (isBlank true)).deleteWhile (isBlank false)
  else if c = 8 ∨ c = 127 then
    if auth then (z.backwardWhile (isBlank true)).backwardWhile (isBlank false)
      else (z.rubWhile (isBlank true)).rubWhile (isBlank false)
  else z

theorem plain_deleteWhile (p : UInt8 → Bool) (hz : Plain z.text) :
    Plain (z.deleteWhile p).text := by
  intro c hc
  rcases List.mem_append.mp hc with hc | hc
  · exact hz c (List.mem_append_left _ hc)
  · exact hz c (List.mem_append_right _ ((List.dropWhile_sublist p).subset hc))

/-- `vty_forward_kill_word`; a password is left alone where its loops end. -/
theorem forwardKillWord_good (h : Good z vty)
    (hends : inAuth vty.node = true → vty.cp = vty.length) :
    Leaves vty (if inAuth vty.node then z
      else (z.deleteWhile (isBlank true)).deleteWhile (isBlank false))
      (vtyForwardKillWord (vty.length + 1) vty) := by
  by_cases hauth : inAuth vty.node = true
  · have hdone : ∀ space, atChar space vty = .ok false := fun space => if_pos (hends hauth)
    rw [if_pos hauth, vtyForwardKillWord, while_step (hdone true), if_neg Bool.false_ne_true]
    simp only [Except.bind]
    rw [while_step (hdone false), if_neg Bool.false_ne_true]
    exact Leaves.stay h
  · have hlength := z.length_text
    rw [if_neg hauth]
    refine h.edited (plain_deleteWhile _ (plain_deleteWhile _ h.plain)) fun n _ =>
      forwardKillWord_edits (Bool.eq_false_iff.mpr hauth) h.plain ?_
    rw [h.length]
    omega

/-- A key behind an escape character. -/
theorem preEscape_edits (h : Good z vty) {c : UInt8} (hc : Permitted env c vty) (hkeys : Keys vty)
    (hescape : vty.escape = .VTY_PRE_ESCAPE) (hbracket : c ≠ 91) :
    Leaves { vty with escape := .VTY_NORMAL } (escaped (inAuth vty.node) c z)
      (preEscapeByte c vty) := by
  rw [preEscapeByte, if_neg hbracket]
  refine Leaves.mode ?_ .VTY_NORMAL
  unfold escaped
  by_cases hback : c = 98
  · rw [if_pos hback, if_pos hback]
    refine h.edited ?_ fun _ _ => backwardWord_edits h.plain
    rw [Zipper.text_backwardWhile, Zipper.text_backwardWhile]
    exact h.plain
  rw [if_neg hback, if_neg hback]
  by_cases hforward : c = 102
  · rw [if_pos hforward, if_pos hforward]
    refine h.edited ?_ fun _ _ => forwardWord_edits h.plain
    rw [Zipper.text_forwardWhile, Zipper.text_forwardWhile]
    exact h.plain
  rw [if_neg hforward, if_neg hforward]
  by_cases hkill : c = 100
  · rw [if_pos hkill, if_pos hkill]
    exact forwardKillWord_good h (hc.word hkill hkeys hescape)
  rw [if_neg hkill, if_neg hkill]
  by_cases hrub : c = 8 ∨ c = 127
  · rw [if_pos hrub, if_pos hrub]
    exact backwardKillWord_good h
  · rw [if_neg hrub, if_neg hrub]
    exact Leaves.stay h

theorem preEscape_kept (h : Good z vty) {c : UInt8} (hc : Permitted env c vty) (hkeys : Keys vty)
    (hescape : vty.escape = .VTY_PRE_ESCAPE) : Kept (preEscapeByte c vty) := by
  by_cases hbracket : c = 91
  · rw [preEscapeByte, if_pos hbracket]
    exact ⟨_, z, rfl, good_mode h .VTY_ESCAPE⟩
  · exact Leaves.kept (preEscape_edits h hc hkeys hescape hbracket)

/-! ## Any byte -/

/-- A byte that leaves some line. -/
def KeptByte (r : Except Halt (Nat × Vty)) : Prop := ∃ skip vty z, r = .ok (skip, vty) ∧ Good z vty

theorem Kept.byte {r : Except Halt Vty} (h : Kept r) (skip : Nat) :
    KeptByte (r.map fun v => (skip, v)) := by
  obtain ⟨v, z, rfl, hgood⟩ := h
  exact ⟨skip, v, z, rfl, hgood⟩

theorem more_kept (h : Good z vty) (hmore : vty.status = .VTY_MORE) (c : UInt8) :
    Kept (moreByte c vty) := by
  rw [moreByte]
  split
  · exact Leaves.kept
      (redraw_good h ⟨rfl, rfl, rfl, rfl⟩ ⟨⟨rfl, rfl, rfl, .inl rfl⟩, rfl, rfl⟩ (rowOf_prompt _ _))
  · split
    · refine ⟨_, z, rfl, h.congr ⟨rfl, rfl, rfl, rfl⟩ ⟨Status.noConfusion, Status.noConfusion⟩
        fun _ => h.row ?_⟩
      rw [hmore]
      exact Status.noConfusion
    · exact Leaves.kept (Leaves.stay h)

theorem option_kept (h : Good z vty) {c : UInt8}
    (hsub : c = SE → vty.iac_sb_in_progress = true → vty.sb_buffer ≠ []) :
    ∃ skip v, vtyTelnetOption c vty = .ok (skip, v) ∧ Good z v := by
  rw [vtyTelnetOption]
  split
  · exact ⟨0, _, rfl, h.congr ⟨rfl, rfl, rfl, rfl⟩ h.status h.row⟩
  · split
    · next hend =>
      cases hprogress : vty.iac_sb_in_progress with
      | false => exact ⟨0, vty, rfl, h⟩
      | true =>
        obtain ⟨first, rest, hfirst⟩ := List.exists_cons_of_ne_nil (hsub hend hprogress)
        rw [hfirst]
        simp only [Bool.not_true, Bool.false_eq_true, if_false, List.head?_cons, access, Except.map]
        split
        · exact ⟨0, _, rfl, h.congr ⟨rfl, rfl, rfl, rfl⟩ h.status h.row⟩
        · exact ⟨0, _, rfl, h.congr ⟨rfl, rfl, rfl, rfl⟩ h.status h.row⟩
    · exact ⟨1, vty, rfl, h⟩

/-- Whatever byte it is. -/
theorem byte_kept (h : Good z vty) {c : UInt8} (hc : Permitted env c vty) (next : Option UInt8) :
    KeptByte (readByte env c next vty) := by
  rw [readByte]
  split
  · exact ⟨0, _, z, rfl, h.congr ⟨rfl, rfl, rfl, rfl⟩ h.status h.row⟩
  · -- the second of two `IAC` is a byte like any other
    have hsecond : ∃ v, (if c = IAC then { vty with iac := false } else vty) = v ∧ Good z v ∧
        Permitted env c v := by
      refine ⟨_, rfl, ?_⟩
      by_cases hiac : c = IAC
      · rw [if_pos hiac]
        refine ⟨h.congr ⟨rfl, rfl, rfl, rfl⟩ h.status h.row, fun hinserts => ?_, hc.tab,
          fun hword => ?_,
          fun _ hset => absurd hset Bool.false_ne_true, fun hleave => ?_⟩
        · rw [hiac] at hinserts
          rcases hinserts.2.2 with heq | ⟨hplain, -⟩
          · exact absurd heq (by decide)
          · exact absurd hplain (by decide)
        · rw [hword] at hiac
          exact absurd hiac (by decide)
        · rw [hleave] at hiac
          exact absurd hiac (by decide)
      · rw [if_neg hiac]
        exact ⟨h, hc⟩
    obtain ⟨v, hv, hgood, hpermitted⟩ := hsecond
    simp only [hv]
    split
    · exact ⟨0, _, z, rfl, hgood.congr ⟨rfl, rfl, rfl, rfl⟩ hgood.status hgood.row⟩
    · next hsub =>
      split
      · next hset =>
        obtain ⟨skip, v', hrun, hgood'⟩ := option_kept hgood fun hend => hpermitted.option hend hset
        rw [hrun]
        exact ⟨skip, _, z, rfl, hgood'.congr ⟨rfl, rfl, rfl, rfl⟩ hgood'.status hgood'.row⟩
      · next hiac =>
        have hfalse : v.iac = false := Bool.eq_false_iff.mpr hiac
        split
        · next hmore => exact (more_kept hgood hmore c).byte 0
        · next hmore =>
          have hkeys : Keys v :=
            ⟨hfalse, Bool.eq_false_iff.mpr fun hprogress => hsub ⟨hprogress, hfalse⟩, hmore⟩
          cases hescape : v.escape with
          | VTY_ESCAPE => exact (escapeMap_kept hgood c).byte 0
          | VTY_PRE_ESCAPE => exact (preEscape_kept hgood hpermitted hkeys hescape).byte 0
          | VTY_NORMAL =>
            simp only [reduceCtorEq, if_false]
            split
            · split
              · exact ⟨1, _, z, rfl, good_mode hgood .VTY_ESCAPE⟩
              · exact ⟨0, _, z, rfl, good_mode hgood .VTY_PRE_ESCAPE⟩
            · exact (key_kept hgood hpermitted hkeys hescape).byte 0

end Keys

/-! ## Reads -/

/-- Every byte that is not skipped is permitted where it comes. -/
def LegalBytes : Nat → List (UInt8 × Env) → Vty → Prop
  | _, [], _ => True
  | skip + 1, _ :: bytes, vty => LegalBytes skip bytes vty
  | 0, byte :: bytes, vty => Permitted byte.2 byte.1 vty ∧
      ∀ r, readByte byte.2 byte.1 (bytes.head?.map Prod.fst) vty = .ok r → LegalBytes r.1 bytes r.2

/-- Where a `realloc` adds zeros, only four bytes can be out of place. -/
theorem legal_calm (bytes : List (UInt8 × Env))
    (h : ∀ byte ∈ bytes, (∀ i, byte.2.grown i = 0) ∧ byte.1 ≠ 9 ∧ byte.1 ≠ 100 ∧
    byte.1 ≠ SE ∧ byte.1 ≠ control 90) : ∀ (skip : Nat) (vty : Vty), LegalBytes skip bytes vty := by
  induction bytes with
  | nil => exact fun skip vty => by cases skip <;> trivial
  | cons byte bytes ih =>
    intro skip vty
    obtain ⟨⟨hgrown, htab, hword, hend, hleave⟩, hrest⟩ := List.forall_mem_cons.mp h
    cases skip with
    | succ skip => exact ih hrest skip vty
    | zero =>
      exact ⟨⟨fun _ => .inr hgrown, fun heq => absurd heq htab, fun heq => absurd heq hword,
        fun heq => absurd heq hend,
        fun heq => absurd heq hleave⟩, fun r _ => ih hrest r.1 r.2⟩

theorem loop_kept (bytes : List (UInt8 × Env)) :
    ∀ (skip : Nat) (vty : Vty) (z : Zipper UInt8), Good z vty →
    LegalBytes skip bytes vty → KeptByte (readLoop skip bytes vty) := by
  induction bytes with
  | nil => exact fun skip vty z h _ => ⟨skip, vty, z, by cases skip <;> rfl, h⟩
  | cons byte bytes ih =>
    intro skip vty z h hlegal
    cases skip with
    | succ skip => exact ih skip vty z h hlegal
    | zero =>
      obtain ⟨skip, v, z', hrun, hgood⟩ := byte_kept h hlegal.1 (bytes.head?.map Prod.fst)
      rw [readLoop, hrun]
      exact ih skip v z' hgood (hlegal.2 _ hrun)

def LegalEvent : Event → Vty → Prop
  | .read bytes, vty => LegalBytes 0 bytes vty
  | .flush _, _ => True

def LegalRun : List Event → Vty → Prop
  | [], _ => True
  | event :: events, vty => vty.status = .VTY_CLOSE ∨
      LegalEvent event vty ∧ ∀ vty', handle event vty = .ok vty' → LegalRun events vty'

theorem flush_good {z : Zipper UInt8} {vty : Vty} (h : Good z vty)
    (hopen : vty.status ≠ .VTY_CLOSE) (left : Nat) :
    Good z (vtyFlush left vty) := by
  refine h.congr ⟨rfl, rfl, rfl, rfl⟩ ?_ fun _ => h.row hopen
  rw [vtyFlush]
  simp only
  split
  · exact ⟨Status.noConfusion, Status.noConfusion⟩
  · exact ⟨Status.noConfusion, Status.noConfusion⟩

theorem handle_kept {z : Zipper UInt8} {vty : Vty} (h : Good z vty)
    (hopen : vty.status ≠ .VTY_CLOSE) (event : Event) (hlegal : LegalEvent event vty) :
    Kept (handle event vty) := by
  cases event with
  | flush left => exact ⟨_, z, rfl, flush_good h hopen left⟩
  | read bytes =>
    rw [handle, vtyRead]
    cases bytes with
    | nil =>
      exact ⟨_, z, rfl, h.congr ⟨rfl, rfl, rfl, rfl⟩ ⟨Status.noConfusion, Status.noConfusion⟩
        fun hne => absurd rfl hne⟩
    | cons byte bytes =>
      rw [if_neg (List.cons_ne_nil byte bytes)]
      obtain ⟨skip, v, z', hrun, hgood⟩ := loop_kept _ 0 vty z h hlegal
      rw [hrun]
      exact ⟨v, z', rfl, hgood⟩

theorem run_kept (events : List Event) :
    ∀ (vty : Vty) (z : Zipper UInt8), Good z vty → LegalRun events vty →
    Kept (run events vty) := by
  induction events with
  | nil => exact fun vty z h _ => ⟨vty, z, rfl, h⟩
  | cons event events ih =>
    intro vty z h hlegal
    rw [run]
    by_cases hclosed : vty.status = .VTY_CLOSE
    · rw [if_pos hclosed]
      exact ⟨vty, z, rfl, h⟩
    · rw [if_neg hclosed]
      obtain ⟨hevent, hrest⟩ := hlegal.resolve_left hclosed
      obtain ⟨v, z', hrun, hgood⟩ := handle_kept h hclosed event hevent
      rw [hrun]
      exact ih v z' hgood (hrest v hrun)

theorem create_good {env : Env} {no_password_check : Bool} {lines : Int} {hello : List UInt8}
    {vty_config : Bool} {vty : Vty}
    (h : vtyCreate env no_password_check lines hello vty_config = some vty) :
    Good (.behind []) vty := by
  unfold vtyCreate at h
  split at h
  · cases h
  · cases h
    refine ⟨⟨VTY_BUFSIZ - 1, rfl⟩, plain_nil, fun i t ht => ?_,
      ⟨Status.noConfusion, Status.noConfusion⟩, fun _ => ?_⟩
    · cases ht
    · exact shown_empty rfl (rowOf_prompt _ _)

/-- The line `z` is in the buffer with its NUL, and the row behind the last prompt shows it
until the terminal is closed; it shows nothing of a password. -/
structure OnScreen (z : Zipper UInt8) (vty : Vty) : Prop where
  cp : vty.cp = z.before.length
  length : vty.length = z.text.length
  fits : vty.length < vty.buf.length
  string : ∃ hfree, bufString vty = .ok ⟨z.text, hfree⟩
  row : vty.status ≠ .VTY_CLOSE →
    rowOf vty.out = some (if inAuth vty.node then Row.blank else Row.showing z)

theorem Good.onScreen {z : Zipper UInt8} {vty : Vty} (h : Good z vty) : OnScreen z vty :=
  ⟨h.cp, h.length, by rw [h.length]; exact h.short, h.string vty rfl, h.row⟩

/-- What Enter would run is what the row shows, with the cursor where the next key edits it,
whatever was read and flushed before. -/
theorem screen_exact (env : Env) (no_password_check : Bool) (lines : Int) (hello : List UInt8)
    (vty_config : Bool) (vty : Vty) (events : List Event)
    (hcreate : vtyCreate env no_password_check lines hello vty_config = some vty)
    (hlegal : LegalRun events vty) : ∃ vty' z, run events vty = .ok vty' ∧ OnScreen z vty' := by
  obtain ⟨vty', z, hrun, hgood⟩ := run_kept events vty _ (create_good hcreate) hlegal
  exact ⟨vty', z, hrun, Good.onScreen hgood⟩

/-- No commands, and `p` for the password. -/
def bareEnv : Env where
  grown := fun _ => 0
  matchers := ⟨fun _ _ => false, fun _ => .no_match, fun _ => .no_match, fun _ => .no_match,
    fun _ => .no_match⟩
  cmdvec := fun _ => []
  func := fun _ _ node => ⟨node, false, false, false, []⟩
  describe := fun _ _ _ => []
  password_encrypt := none
  password := some [112]
  enable_encrypt := none
  enable := none
  advanced := false

theorem legal_bare (cs : List UInt8)
    (h : cs.all (fun c => c ≠ 9 ∧ c ≠ 100 ∧ c ≠ SE ∧ c ≠ control 90) = true) (vty : Vty) :
    LegalBytes 0 (cs.map fun c => (c, bareEnv)) vty := by
  refine legal_calm _ (fun byte hbyte => ?_) 0 vty
  obtain ⟨c, hc, rfl⟩ := List.mem_map.mp hbyte
  exact ⟨fun _ => rfl, of_decide_eq_true (List.all_eq_true.mp h c hc)⟩

theorem screen_exact_password : ∃ vty, vtyCreate bareEnv false 24 [] false = some vty ∧
    ∃ vty' z, run [.read [(112, bareEnv), (1, bareEnv)], .flush 0, .read [(13, bareEnv)]] vty =
      .ok vty' ∧ OnScreen z vty' := by
  refine ⟨_, rfl, screen_exact bareEnv false 24 [] false _ _ rfl ?_⟩
  exact .inr ⟨legal_bare [112, 1] (by decide) _, fun _ _ => .inr ⟨trivial, fun vty _ =>
    .inr ⟨legal_bare [13] (by decide) vty, fun _ _ => trivial⟩⟩⟩

end NetmtVtyRuns
