import Netmt.VtyTyping

/-!
# A dialog

The terminal without its buffer, its screen and its ring: a line with a cursor, and the lines
that were entered, newest first, with how far back the line shown is. A read of the terminal
is a run of this, byte by byte.
-/
namespace NetmtVtyDialog

open NetmtVty NetmtVtyEdit NetmtVtyGood NetmtVtyWords NetmtVtyRuns NetmtVtyTyping

/-! ## The lines that were entered -/

/-- The lines, newest first, and how many steps back is the one that was shown last. -/
structure Past where
  lines : List (List UInt8)
  back : Nat

def Past.enter (t : List UInt8) (p : Past) : Past :=
  if t = [] then p else if p.lines.head? = some t then ⟨p.lines, 0⟩ else ⟨t :: p.lines, 0⟩

/-- The line one step back, or the one a step forward; a step forward from the newest of
them is to the oldest that is kept. -/
def Past.older (p : Past) : Option (List UInt8) := p.lines[p.back]?
def Past.newer (p : Past) : Option (List UInt8) :=
  if p.back = 0 then none else p.lines[(p.back + 18) % 20]?

/-- The ring holds the last lines, up to its size. -/
structure Holds (p : Past) (r : Ring) : Prop where
  small : r.hindex < 20
  kept : ∀ i, i < 20 → r.hist ((r.hindex + 19 - i) % 20) = p.lines[i]?
  back : p.back < 20
  hp : r.hp = (r.hindex + 20 - p.back) % 20

theorem indexBefore_mod {i : Nat} (h : i < 20) : indexBefore i = (i + 19) % 20 := by
  unfold indexBefore VTY_MAXHIST
  split <;> omega

theorem indexBehind_mod {i : Nat} (h : i < 20) : indexBehind i = (i + 1) % 20 := by
  unfold indexBehind VTY_MAXHIST
  split <;> omega

theorem Holds.newest {p : Past} {r : Ring} (h : Holds p r) :
    r.hist (indexBefore r.hindex) = p.lines.head? := by
  have hfirst := h.kept 0 (by decide)
  rw [indexBefore_mod h.small, List.head?_eq_getElem?]
  exact hfirst

theorem Holds.cancel {p : Past} {r : Ring} (h : Holds p r) :
    Holds ⟨p.lines, 0⟩ { r with hp := r.hindex } := by
  refine ⟨h.small, h.kept, Nat.zero_lt_succ 19, ?_⟩
  have hsmall := h.small
  simp only
  omega

theorem Holds.enter {p : Past} {r : Ring} (h : Holds p r) (t : List UInt8) :
    Holds (p.enter t) (r.add t) := by
  unfold Past.enter Ring.add
  by_cases hempty : t = []
  · rw [if_pos hempty, if_pos hempty]
    exact h
  rw [if_neg hempty, if_neg hempty, h.newest]
  by_cases hlast : p.lines.head? = some t
  · rw [if_pos hlast, if_pos hlast]
    exact h.cancel
  rw [if_neg hlast, if_neg hlast, indexBehind_mod h.small]
  have hsmall := h.small
  refine ⟨Nat.mod_lt _ (by decide), fun i hi => ?_, Nat.zero_lt_succ 19, ?_⟩
  · simp only
    cases i with
    | zero =>
      have hplace : ((r.hindex + 1) % 20 + 19 - 0) % 20 = r.hindex := by omega
      rw [hplace, Function.update_self, List.getElem?_cons_zero]
    | succ i =>
      have hplace : ((r.hindex + 1) % 20 + 19 - (i + 1)) % 20 = (r.hindex + 19 - i) % 20 := by omega
      have hother : (r.hindex + 19 - i) % 20 ≠ r.hindex := by omega
      rw [hplace, Function.update_of_ne hother, List.getElem?_cons_succ]
      exact h.kept i (by omega)
  · simp only
    omega

theorem Holds.older {p : Past} {r : Ring} (h : Holds p r) : r.hist (indexBefore r.hp) = p.older ∧
    Holds ⟨p.lines, (p.back + 1) % 20⟩ { r with hp := indexBefore r.hp } := by
  have hsmall := h.small
  have hback := h.back
  have hbefore : indexBefore r.hp = (r.hindex + 19 - p.back) % 20 := by
    rw [indexBefore_mod (by rw [h.hp]; omega), h.hp]
    omega
  rw [hbefore]
  refine ⟨h.kept p.back hback, h.small, h.kept, Nat.mod_lt _ (by decide), ?_⟩
  simp only
  omega

theorem Holds.newer {p : Past} {r : Ring} (h : Holds p r) : (r.hp = r.hindex ↔ p.back = 0) ∧
    (p.back ≠ 0 → r.hist (indexBehind r.hp) = p.newer ∧
      Holds ⟨p.lines, p.back - 1⟩ { r with hp := indexBehind r.hp }) := by
  have hsmall := h.small
  have hback := h.back
  have hhp := h.hp
  refine ⟨by omega, fun hne => ?_⟩
  have hbehind : indexBehind r.hp = (r.hindex + 19 - (p.back + 18) % 20) % 20 := by
    rw [indexBehind_mod (by rw [h.hp]; omega), h.hp]
    omega
  rw [hbehind, Past.newer, if_neg hne]
  refine ⟨h.kept _ (Nat.mod_lt _ (by decide)), h.small, h.kept, by simp only; omega, ?_⟩
  simp only
  omega

/-! ## A byte of the dialog -/

structure Dialog where
  auth : Bool
  mode : Escape
  line : Zipper UInt8
  past : Past

def Dialog.typed (d : Dialog) (c : UInt8) : Dialog :=
  { d with
    mode := (typing d.auth (d.mode, d.line) c).1
    line := (typing d.auth (d.mode, d.line) c).2 }

/-- A line of the past, if there is one, with the cursor behind it. -/
def Dialog.recalled (d : Dialog) (t : Option (List UInt8)) (back : Nat) : Dialog :=
  match t with
  | none => { d with mode := .VTY_NORMAL }
  | some t => { d with mode := .VTY_NORMAL, line := .behind t, past := ⟨d.past.lines, back⟩ }

def Dialog.up (d : Dialog) : Dialog := d.recalled d.past.older ((d.past.back + 1) % 20)
def Dialog.down (d : Dialog) : Dialog := d.recalled d.past.newer (d.past.back - 1)

/-- One byte; what a command makes of the node and what Tab finds are left open. -/
def Step (d : Dialog) (c : UInt8) (d' : Dialog) : Prop :=
  match d.mode with
  | .VTY_ESCAPE => d' = if c = 65 then d.up else if c = 66 then d.down else d.typed c
  | .VTY_PRE_ESCAPE => d' = d.typed c
  | .VTY_NORMAL =>
    if c = control 80 then d' = d.up
    else if c = control 78 then d' = d.down
    else if c = control 67 then d' = { d.typed c with past := ⟨d.past.lines, 0⟩ }
    else if c = 9 then ∃ line, Completed d.line line ∧ d' = { d with line := line }
    else if c = 10 ∨ c = 13 then
      ∃ auth, d' = ⟨auth, .VTY_NORMAL, .behind [], if d.auth then d.past
        else d.past.enter d.line.text⟩
    else d' = d.typed c

/-- The terminal shows the dialog. -/
structure Shows (d : Dialog) (vty : Vty) : Prop where
  typing : Typing d.auth (d.mode, d.line) vty
  past : Holds d.past (ring vty)

theorem step_normal {d d' : Dialog} (h : d.mode = .VTY_NORMAL) (c : UInt8) : Step d c d' =
    if c = control 80 then d' = d.up
    else if c = control 78 then d' = d.down
    else if c = control 67 then d' = { d.typed c with past := ⟨d.past.lines, 0⟩ }
    else if c = 9 then ∃ line, Completed d.line line ∧ d' = { d with line := line }
    else if c = 10 ∨ c = 13 then
      ∃ auth, d' = ⟨auth, .VTY_NORMAL, .behind [], if d.auth then d.past
        else d.past.enter d.line.text⟩
    else d' = d.typed c := by
  rw [Step, h]

section Bytes

variable {d : Dialog} {vty : Vty} {env : Env} {c : UInt8} {next : Option UInt8}

/-- The place of a line in the ring, or that there is none. -/
theorem recalled_shows (h : Shows d vty) {i : Nat} {t : Option (List UInt8)} {back : Nat}
    (ht : vty.hist i = t) (hholds : Holds ⟨d.past.lines, back⟩ { ring vty with hp := i }) :
    ∃ v, recalled i vty = .ok v ∧ v.escape = vty.escape ∧
    Shows (d.recalled t back) { v with escape := .VTY_NORMAL } := by
  rcases recalled_good h.typing.good i with ⟨hnone, hrun⟩ | ⟨s, hsome, hleaves⟩
  · obtain rfl : t = none := ht.symm.trans hnone
    exact ⟨vty, hrun, rfl,
      ⟨good_mode h.typing.good .VTY_NORMAL, rfl, h.typing.keys.modes rfl rfl (.inl rfl),
        h.typing.auth⟩, h.past⟩
  · obtain rfl : t = some s := ht.symm.trans hsome
    obtain ⟨v, hrun, hgood, hframe⟩ := hleaves
    refine ⟨v, hrun, hframe.escape, ⟨good_mode hgood .VTY_NORMAL, rfl, ?_, ?_⟩, ?_⟩
    · exact h.typing.keys.modes hframe.iac hframe.sub hframe.status
    · exact hframe.auth.trans h.typing.auth
    · have hring : ring v = { ring vty with hp := i } := hframe.ring
      exact hring ▸ hholds

theorem previous_shows (h : Shows d vty) :
    ∃ v, vtyPreviousLine vty = .ok v ∧ v.escape = vty.escape ∧
    Shows d.up { v with escape := .VTY_NORMAL } := by
  rw [previousLine_recalled]
  exact recalled_shows h h.past.older.1 h.past.older.2

theorem next_shows (h : Shows d vty) :
    ∃ v, vtyNextLine vty = .ok v ∧ v.escape = vty.escape ∧
    Shows d.down { v with escape := .VTY_NORMAL } := by
  rw [nextLine_recalled]
  obtain ⟨hend, hnewer⟩ := h.past.newer
  by_cases hback : d.past.back = 0
  · have hdown : d.down = { d with mode := .VTY_NORMAL } := by
      rw [Dialog.down, Past.newer, if_pos hback, Dialog.recalled]
    have hatEnd : vty.hp = vty.hindex := hend.mpr hback
    rw [if_pos hatEnd, hdown]
    exact ⟨vty, rfl, rfl,
      ⟨good_mode h.typing.good .VTY_NORMAL, rfl, h.typing.keys.modes rfl rfl (.inl rfl),
        h.typing.auth⟩, h.past⟩
  · have hinside : ¬ vty.hp = vty.hindex := fun hsame => hback (hend.mp hsame)
    rw [if_neg hinside]
    exact recalled_shows h (hnewer hback).1 (hnewer hback).2

theorem mode_self {v : Vty} {e : Escape} (h : v.escape = e) : { v with escape := e } = v := by
  rw [← h]

theorem enter_shows (h : Shows d vty) (hmode : d.mode = .VTY_NORMAL) (hc : c = 10 ∨ c = 13) :
    ∃ v auth, keyByte env c vty = .ok v ∧
      Shows ⟨auth, .VTY_NORMAL, .behind [], if d.auth then d.past
        else d.past.enter d.line.text⟩ v := by
  obtain ⟨v, hrun, hgood, hmodes, hring⟩ := execute_good h.typing.good env
  rw [key_enter hc]
  refine ⟨v, inAuth v.node, hrun,
    ⟨hgood, ?_, h.typing.keys.modes hmodes.iac hmodes.sub hmodes.status, rfl⟩, ?_⟩
  · rw [hmodes.escape, h.typing.escape]
    exact hmode
  · rw [hring, entered, h.typing.auth]
    by_cases hauth : d.auth = true
    · rw [if_pos hauth, if_pos hauth]
      exact h.past
    · rw [if_neg hauth, if_neg hauth]
      exact h.past.enter _

theorem tab_shows (h : Shows d vty) (hfits : Fitting env vty) :
    ∃ v line, keyByte env 9 vty = .ok v ∧ Completed d.line line ∧
      Shows { d with line := line } v := by
  obtain ⟨line, hcompleted, v, hrun, hgood, hframe⟩ := complete_good h.typing.good hfits
  rw [key_tab]
  refine ⟨v, line, hrun, hcompleted, ⟨hgood, hframe.escape.trans h.typing.escape,
    h.typing.keys.modes hframe.iac hframe.sub hframe.status, hframe.auth.trans h.typing.auth⟩, ?_⟩
  rw [hframe.ring]
  exact h.past

/-- One byte, where it is not taken together with the next. -/
theorem byte_shows (h : Shows d vty) (hc : Permitted env c vty) (hiac : c ≠ IAC)
    (hsingle : ¬ (d.mode = .VTY_NORMAL ∧ c = 27 ∧ next = some 91)) :
    ∃ v d', readByte env c next vty = .ok (0, v) ∧ Step d c d' ∧ Shows d' v := by
  have hedit : Types d.mode c → ∃ v, readByte env c next vty = .ok (0, v) ∧
      Typing d.auth ((d.typed c).mode, (d.typed c).line) v ∧
      ring v = ringBehind d.mode c vty := fun ht => byte_typed h.typing hc ht hsingle
  have hkey := readByte_key h.typing.keys env hiac next
  rw [h.typing.escape] at hkey
  cases hmode : d.mode with
  | VTY_PRE_ESCAPE =>
    obtain ⟨v, hrun, htyping, hring⟩ := hedit (by rw [hmode]; exact hiac)
    rw [hmode] at hring
    exact ⟨v, d.typed c, hrun, by rw [Step, hmode], htyping, hring ▸ h.past⟩
  | VTY_ESCAPE =>
    rw [hmode, if_pos rfl] at hkey
    by_cases hup : c = 65
    · obtain ⟨v, hrun, -, hshows⟩ := previous_shows h
      rw [vtyEscapeMap, if_pos hup, hrun] at hkey
      exact ⟨_, d.up, hkey, by rw [Step, hmode]; exact (if_pos hup).symm, hshows⟩
    by_cases hdown : c = 66
    · obtain ⟨v, hrun, -, hshows⟩ := next_shows h
      rw [vtyEscapeMap, if_neg hup, if_pos hdown, hrun] at hkey
      exact ⟨_, d.down, hkey, by rw [Step, hmode, if_neg hup]; exact (if_pos hdown).symm, hshows⟩
    · obtain ⟨v, hrun, htyping, hring⟩ := hedit (by rw [hmode]; exact ⟨hiac, hup, hdown⟩)
      rw [hmode] at hring
      exact ⟨v, d.typed c, hrun, by rw [Step, hmode, if_neg hup]; exact (if_neg hdown).symm,
          htyping, hring ▸ h.past⟩
  | VTY_NORMAL =>
    have hnormal : vty.escape = .VTY_NORMAL := h.typing.escape.trans hmode
    rw [hmode, if_neg Escape.noConfusion, if_neg Escape.noConfusion] at hkey
    by_cases hup : c = control 80
    · obtain ⟨v, hrun, hescape, hshows⟩ := previous_shows h
      rw [if_neg (by rw [hup]; decide), hup, key_previous, hrun] at hkey
      rw [mode_self (hescape.trans hnormal)] at hshows
      exact ⟨v, d.up, by rw [hup]; exact hkey, by rw [step_normal hmode, if_pos hup], hshows⟩
    by_cases hdown : c = control 78
    · obtain ⟨v, hrun, hescape, hshows⟩ := next_shows h
      rw [if_neg (by rw [hdown]; decide), hdown, key_next, hrun] at hkey
      rw [mode_self (hescape.trans hnormal)] at hshows
      refine ⟨v, d.down, by rw [hdown]; exact hkey, ?_, hshows⟩
      rw [step_normal hmode, if_neg hup, if_pos hdown]
    by_cases htab : c = 9
    · obtain ⟨v, line, hrun, hcompleted, hshows⟩ := tab_shows h (hc.tab htab)
      rw [if_neg (by rw [htab]; decide), htab, hrun] at hkey
      refine ⟨v, { d with line := line }, by rw [htab]; exact hkey, ?_, hshows⟩
      rw [step_normal hmode, if_neg hup, if_neg hdown, if_neg (by rw [htab]; decide), if_pos htab]
      exact ⟨line, hcompleted, rfl⟩
    by_cases henter : c = 10 ∨ c = 13
    · obtain ⟨v, auth, hrun, hshows⟩ := enter_shows h hmode henter
      have hother : c ≠ 27 ∧ c ≠ control 67 := by
        rcases henter with hfeed | hreturn
        · rw [hfeed]
          decide
        · rw [hreturn]
          decide
      rw [if_neg hother.1, hrun] at hkey
      refine ⟨v, _, hkey, ?_, hshows⟩
      rw [step_normal hmode, if_neg hup, if_neg hdown, if_neg hother.2, if_neg htab, if_pos henter]
      exact ⟨auth, rfl⟩
    · obtain ⟨v, hrun, htyping, hring⟩ :=
        hedit (by rw [hmode]; exact ⟨hiac, hdown, hup, htab, henter⟩)
      rw [hmode, ringBehind, if_pos rfl, cancelled] at hring
      by_cases hstop : c = control 67
      · rw [if_pos hstop] at hring
        refine ⟨v, { d.typed c with past := ⟨d.past.lines, 0⟩ }, hrun, ?_, htyping,
          hring ▸ h.past.cancel⟩
        rw [step_normal hmode, if_neg hup, if_neg hdown, if_pos hstop]
      · rw [if_neg hstop] at hring
        refine ⟨v, d.typed c, hrun, ?_, htyping, hring ▸ h.past⟩
        rw [step_normal hmode, if_neg hup, if_neg hdown, if_neg hstop, if_neg htab, if_neg henter]

end Bytes

/-! ## A read of the dialog -/

def Steps : Dialog → List UInt8 → Dialog → Prop
  | d, [], d' => d' = d
  | d, c :: bytes, d' => ∃ e, Step d c e ∧ Steps e bytes d'

/-- An escape character and the bracket behind it. -/
theorem bracket_shows {d : Dialog} {vty : Vty} (h : Shows d vty)
    (hmode : d.mode = .VTY_NORMAL) (env : Env) :
    ∃ v e d', readByte env 27 (some 91) vty = .ok (1, v) ∧ Step d 27 e ∧
    Step e 91 d' ∧ Shows d' v := by
  have htyping := h.typing
  rw [hmode] at htyping
  obtain ⟨v, hrun, hv, hring⟩ := bracket_typed htyping env
  have hescape : d.typed 27 = { d with mode := .VTY_PRE_ESCAPE } := by
    rw [Dialog.typed, hmode]
    rfl
  refine ⟨v, { d with mode := .VTY_PRE_ESCAPE }, { d with mode := .VTY_ESCAPE },
    hrun, ?_, rfl, hv, ?_⟩
  · rw [step_normal hmode, hescape]
    rfl
  · rw [hring]
    exact h.past

theorem loop_shows (n : Nat) : ∀ (bytes : List (UInt8 × Env)) (d : Dialog) (vty : Vty),
    bytes.length ≤ n → Shows d vty →
    LegalBytes 0 bytes vty → (∀ byte ∈ bytes, byte.1 ≠ IAC) →
    ∃ v d', readLoop 0 bytes vty = .ok (0, v) ∧ Steps d (bytes.map Prod.fst) d' ∧ Shows d' v := by
  induction n with
  | zero =>
    intro bytes d vty hlength h _ _
    obtain rfl := List.length_eq_zero_iff.mp (Nat.le_zero.mp hlength)
    exact ⟨vty, d, rfl, rfl, h⟩
  | succ n ih =>
    intro bytes d vty hlength h hlegal hkeys
    cases bytes with
    | nil => exact ⟨vty, d, rfl, rfl, h⟩
    | cons byte bytes =>
      obtain ⟨c, env⟩ := byte
      have hshort : bytes.length ≤ n := Nat.le_of_succ_le_succ hlength
      obtain ⟨hiac, hrest⟩ := List.forall_mem_cons.mp hkeys
      by_cases hsingle : d.mode = .VTY_NORMAL ∧ c = 27 ∧ bytes.head?.map Prod.fst = some 91
      · -- both bytes are taken at once
        obtain ⟨hnormal, rfl, hnext⟩ := hsingle
        cases bytes with
        | nil => cases hnext
        | cons byte bytes =>
          obtain ⟨b, env'⟩ := byte
          obtain rfl : b = 91 := Option.some.inj hnext
          obtain ⟨v, e, d', hrun, hfirst, hsecond, hshows⟩ := bracket_shows h hnormal env
          obtain ⟨v', d'', hrun', hsteps, hshows'⟩ :=
            ih bytes d' v (Nat.le_of_succ_le hshort) hshows (hlegal.2 _ hrun)
            (List.forall_mem_cons.mp hrest).2
          refine ⟨v', d'', ?_, ⟨e, hfirst, d', hsecond, hsteps⟩, hshows'⟩
          rw [readLoop]
          simp only [List.head?_cons, Option.map_some]
          rw [hrun]
          exact hrun'
      · obtain ⟨v, d', hrun, hstep, hshows⟩ := byte_shows h hlegal.1 hiac hsingle
        obtain ⟨v', d'', hrun', hsteps, hshows'⟩ :=
          ih bytes d' v hshort hshows (hlegal.2 _ hrun) hrest
        refine ⟨v', d'', ?_, ⟨d', hstep, hsteps⟩, hshows'⟩
        rw [readLoop, hrun]
        exact hrun'

/-- The dialog of a new terminal. -/
theorem create_shows {env : Env} {no_password_check : Bool} {lines : Int} {hello : List UInt8}
    {vty_config : Bool} {vty : Vty}
    (h : vtyCreate env no_password_check lines hello vty_config = some vty) :
    Shows ⟨inAuth vty.node, .VTY_NORMAL, .behind [], ⟨[], 0⟩⟩ vty := by
  refine ⟨create_typing h, ?_⟩
  unfold vtyCreate at h
  split at h
  · cases h
  · cases h
    refine ⟨Nat.zero_lt_succ 19, fun i _ => rfl, Nat.zero_lt_succ 19, ?_⟩
    change 0 = (0 + 20 - 0) % 20
    rfl

/-- The bytes of a read are steps of the dialog: the line in the buffer and on the screen is
its line, and the ring holds its last lines. -/
theorem dialog_exact (d : Dialog) (vty : Vty) (h : Shows d vty) (bytes : List (UInt8 × Env))
    (hlegal : LegalBytes 0 bytes vty) (hkeys : ∀ byte ∈ bytes, byte.1 ≠ IAC) :
    ∃ v d', readLoop 0 bytes vty = .ok (0, v) ∧ Steps d (bytes.map Prod.fst) d' ∧ Shows d' v ∧
    OnScreen d'.line v := by
  obtain ⟨v, d', hrun, hsteps, hshows⟩ := loop_shows _ bytes d vty (Nat.le_refl _) h hlegal hkeys
  exact ⟨v, d', hrun, hsteps, hshows, Good.onScreen hshows.typing.good⟩

theorem dialog_exact_up : ∃ vty, vtyCreate bareEnv true 24 [] false = some vty ∧
    ∃ v d', readLoop 0 ([97, 98, 13, 27, 91, 65].map fun c => (c, bareEnv)) vty = .ok (0, v) ∧
      Steps ⟨inAuth vty.node, .VTY_NORMAL, .behind [], ⟨[], 0⟩⟩
        (([97, 98, 13, 27, 91, 65].map fun c => (c, bareEnv)).map Prod.fst) d' ∧ Shows d' v ∧
        OnScreen d'.line v := by
  obtain ⟨vty, hcreate⟩ : ∃ vty, vtyCreate bareEnv true 24 [] false = some vty := ⟨_, rfl⟩
  refine ⟨vty, hcreate, dialog_exact _ vty (create_shows hcreate) _
    (legal_bare [97, 98, 13, 27, 91, 65] (by decide) vty) ?_⟩
  have hkeys : ([97, 98, 13, 27, 91, 65] : List UInt8).all (fun c => c ≠ IAC) = true := by decide
  intro byte hbyte
  obtain ⟨c, hc, rfl⟩ := List.mem_map.mp hbyte
  exact of_decide_eq_true (List.all_eq_true.mp hkeys c hc)

end NetmtVtyDialog
