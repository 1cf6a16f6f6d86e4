import Netmt.VtyTyping

/-!
# Lines of one read

All lines that come in one read are run, one after another: a line that closes the terminal
does not keep those behind it from being passwords or commands.
-/
namespace NetmtVtyLogin

open NetmtVty NetmtVtyEdit NetmtVtyGood NetmtVtyWords NetmtVtyRuns NetmtVtyTyping NetmtCli

/-! ## What a line makes of a login -/

structure Login where
  node : NodeType
  fail : Nat
  closed : Bool

def login (vty : Vty) : Login := ⟨vty.node, vty.fail, vty.status = .VTY_CLOSE⟩

/-- The password that a node asks for, and where it leads. -/
def passwd (env : Env) (node : NodeType) : Option (List UInt8) :=
  if node = .AUTH_NODE then env.password_encrypt.orElse fun _ => env.password
    else env.enable_encrypt.orElse fun _ => env.enable

def admitted (env : Env) (node : NodeType) : NodeType :=
  if node = .AUTH_NODE then if env.advanced then if env.enable ≠ none then .VIEW_NODE
    else .ENABLE_NODE else .VIEW_NODE
  else .ENABLE_NODE

def Login.tried (env : Env) (t : List UInt8) (s : Login) : Login :=
  if passwd env s.node = some t then ⟨admitted env s.node, 0, s.closed⟩
  else if s.fail < 2 then ⟨s.node, s.fail + 1, s.closed⟩
  else if s.node = .AUTH_NODE then ⟨s.node, s.fail + 1, true⟩
  else ⟨.VIEW_NODE, 0, s.closed⟩

def Login.commanded (env : Env) (t : CString) (s : Login) : Login :=
  match (cmdMakeStrvec t).map (cmdExecuteCommand env.matchers (env.cmdvec s.node)) with
  | some (.ok (element, argv)) =>
    ⟨(env.func element argv s.node).node, s.fail, s.closed || (env.func element argv s.node).closes⟩
  | _ => s

/-- One line. -/
def Login.submit (env : Env) (s : Login) (t : CString) : Login :=
  if inAuth s.node then s.tried env t.bytes else s.commanded env t

theorem auth_login (env : Env) (t : CString) (vty : Vty) :
    login (vtyAuth env t vty) = (login vty).tried env t.bytes := by
  have hpasswd : (if vty.node = .AUTH_NODE then env.password_encrypt.orElse fun _ => env.password
      else env.enable_encrypt.orElse fun _ => env.enable) = passwd env vty.node := rfl
  have htried : (login vty).tried env t.bytes = if passwd env vty.node = some t.bytes then
    ⟨admitted env vty.node, 0, (login vty).closed⟩
      else if vty.fail < 2 then ⟨vty.node, vty.fail + 1, (login vty).closed⟩
      else if vty.node = .AUTH_NODE then ⟨vty.node, vty.fail + 1, true⟩
        else ⟨.VIEW_NODE, 0, (login vty).closed⟩ := rfl
  rw [htried]
  unfold vtyAuth
  simp only [hpasswd]
  by_cases hright : passwd env vty.node = some t.bytes
  · rw [if_pos hright, if_pos hright]
    rfl
  rw [if_neg hright, if_neg hright]
  by_cases hagain : vty.fail < 2
  · have hfew : ¬ 3 ≤ vty.fail + 1 := by omega
    rw [if_neg hfew, if_pos hagain]
    rfl
  have hmany : 3 ≤ vty.fail + 1 := by omega
  rw [if_pos hmany, if_neg hagain]
  by_cases hauth : vty.node = .AUTH_NODE
  · rw [if_pos hauth, if_pos hauth]
    rfl
  · rw [if_neg hauth, if_neg hauth]
    rfl

theorem command_login (env : Env) (t : CString) (vty : Vty) :
    login (vtyCommand env t vty) = (login vty).commanded env t := by
  unfold vtyCommand Login.commanded
  cases hwords : cmdMakeStrvec t with
  | none => rfl
  | some vline =>
    rw [Option.map_some]
    have hnode : (login vty).node = vty.node := rfl
    rw [hnode]
    cases hrun : cmdExecuteCommand env.matchers (env.cmdvec vty.node) vline with
    | error e =>
      simp only [hrun]
      cases errorText e with
      | none => rfl
      | some text => rfl
    | ok r =>
      obtain ⟨element, argv⟩ := r
      simp only [hrun, login, vtyOut, Vty.emit]
      by_cases hcloses : (env.func element argv vty.node).closes = true
      · rw [if_pos hcloses, hcloses, Bool.or_true]
        rfl
      · rw [if_neg hcloses, Bool.eq_false_iff.mpr hcloses, Bool.or_false]

theorem login_ite {c : Prop} [Decidable c] {v v' vty : Vty} (h : login v = login vty)
    (h' : login v' = login vty) :
    login (if c then v else v') = login vty := by
  split
  · exact h
  · exact h'

/-- `vty_hist_add` -/
theorem histAdd_login {t : List UInt8} {hfree : (0 : UInt8) ∉ t} {vty vty' : Vty}
    (hstring : bufString vty = .ok ⟨t, hfree⟩) (h : vtyHistAdd vty = .ok vty') :
    login vty' = login vty := by
  unfold vtyHistAdd at h
  rw [hstring] at h
  by_cases hempty : vty.length = 0
  · rw [if_pos hempty] at h
    cases h
    rfl
  · rw [if_neg hempty] at h
    cases h
    exact login_ite rfl rfl

/-- `vty_execute` behind the line feed -/
theorem execute_login {z : Zipper UInt8} {vty : Vty} (h : Good z vty) (env : Env)
    (hfree : (0 : UInt8) ∉ z.text) {vty' : Vty}
    (hrun : vtyExecute env (vtyOut VTY_NEWLINE vty) = .ok vty') :
    login vty' = (login vty).submit env ⟨z.text, hfree⟩ := by
  obtain ⟨hfree', hstring⟩ := h.string (vtyOut VTY_NEWLINE vty) rfl
  have hprompt : ∀ v : Vty,
    login (if v.status ≠ .VTY_CLOSE ∧ v.status ≠ .VTY_START ∧
      v.status ≠ .VTY_CONTINUE then vtyPrompt v
      else v) = login v := fun v => login_ite rfl rfl
  rw [vtyExecute, hstring] at hrun
  simp only [Except.bind] at hrun
  rw [Login.submit]
  by_cases hauth : inAuth vty.node = true
  · rw [if_pos (by exact hauth)] at hrun
    rw [if_pos (by exact hauth)]
    cases hrun
    exact (hprompt _).trans (auth_login env _ _)
  · rw [if_neg (by exact hauth)] at hrun
    rw [if_neg (by exact hauth)]
    have hsame := command_same env ⟨z.text, hfree⟩ (vtyOut VTY_NEWLINE vty)
    obtain ⟨_, hstring'⟩ := h.string _ hsame.buf
    cases hadd : vtyHistAdd (vtyCommand env ⟨z.text, hfree⟩ (vtyOut VTY_NEWLINE vty)) with
    | error e =>
      rw [hadd] at hrun
      cases hrun
    | ok v =>
      rw [hadd] at hrun
      cases hrun
      exact (hprompt _).trans ((histAdd_login hstring' hadd).trans (command_login env _ _))

/-! ## Lines that are typed -/

/-- A character of a line that is entered; `?` is a key where it is no password. -/
def Letter (c : UInt8) : Prop := Printable c ∧ c ≠ 63

theorem Letter.key {c : UInt8} (h : Letter c) (env : Env) (vty : Vty) :
    keyByte env c vty = vtySelfInsert env.grown c vty := by
  obtain ⟨⟨hlow, hhigh⟩, hhelp⟩ := h
  have hcontrol : ∀ b : UInt8, b ≤ 31 → c ≠ b := by
    rintro b hb rfl
    exact absurd (UInt8.lt_of_lt_of_le hlow hb) (by simp)
  unfold keyByte
  rw [if_neg (hcontrol _ (by decide)), if_neg (hcontrol _ (by decide)),
    if_neg (hcontrol _ (by decide)),
    if_neg (hcontrol _ (by decide)), if_neg (hcontrol _ (by decide)),
    if_neg (hcontrol _ (by decide)),
    if_neg (not_or.mpr ⟨hcontrol _ (by decide), fun heq => absurd (heq ▸ hhigh) (by decide)⟩),
    if_neg (hcontrol _ (by decide)), if_neg (hcontrol _ (by decide)),
    if_neg (hcontrol _ (by decide)),
    if_neg (hcontrol _ (by decide)), if_neg (hcontrol _ (by decide)),
    if_neg (hcontrol _ (by decide)),
    if_neg (hcontrol _ (by decide)),
    if_neg (not_or.mpr ⟨hcontrol _ (by decide), hcontrol _ (by decide)⟩),
    if_neg (hcontrol _ (by decide)), if_neg hhelp, if_pos ⟨hlow, hhigh⟩]

theorem Letter.other {c : UInt8} (h : Letter c) : c ≠ 27 ∧ c ≠ IAC := by
  obtain ⟨⟨hlow, hhigh⟩, -⟩ := h
  constructor
  · rintro rfl
    exact absurd hlow (by decide)
  · rintro rfl
    exact absurd hhigh (by decide)

/-- A terminal that waits for a key, with the line `z`. -/
abbrev Waits (z : Zipper UInt8) (vty : Vty) : Prop := Typing (inAuth vty.node) (.VTY_NORMAL, z) vty

theorem write_login (w : List UInt8) (vty : Vty) : login (vtyWrite w vty) = login vty := by
  unfold vtyWrite
  split
  · rfl
  · rfl

/-- One character. -/
theorem letter_runs {z : Zipper UInt8} {vty : Vty} (h : Waits z vty) {env : Env} {c : UInt8}
    (hc : Letter c) (hroom : Room env.grown vty) (next : Option UInt8) :
    ∃ v, readByte env c next vty = .ok (0, v) ∧ Waits (z.insert c) v ∧ login v = login vty := by
  obtain ⟨n, hn⟩ := h.good.held
  have hedit : Edited vty z n (z.insert c) (vtySelfInsert env.grown c (line z n vty)) :=
    insert_edits (hroom.roomy hn) h.good.plain hc.1
  obtain ⟨v, hrun, hgood, hframe⟩ := insert_good h.good hroom hc.1
  have hlogin : login v = login vty := by
    obtain ⟨n', w, hinsert, -⟩ := hedit
    rw [hn, hrun] at hinsert
    rw [Except.ok.inj hinsert]
    exact write_login w vty
  have hescape : vty.escape = .VTY_NORMAL := h.escape
  refine ⟨v, ?_,
    ⟨hgood, hframe.escape.trans hescape, h.keys.modes hframe.iac hframe.sub hframe.status, rfl⟩,
    hlogin⟩
  rw [readByte_key h.keys env hc.other.2, hescape, if_neg Escape.noConfusion,
    if_neg Escape.noConfusion, if_neg hc.other.1,
    hc.key, hrun]
  rfl

theorem insert_behind (t : List UInt8) (c : UInt8) :
    (Zipper.behind t).insert c = .behind (t ++ [c]) := by
  simp [Zipper.behind, Zipper.insert]

/-- The characters of a line. -/
theorem letters_run (env : Env) (rest : List (UInt8 × Env)) (t : List UInt8) :
    ∀ (s : List UInt8) (vty : Vty),
    Waits (.behind s) vty → (∀ c ∈ t, Letter c) →
    LegalBytes 0 (t.map (fun c => (c, env)) ++ rest) vty →
    ∃ v, readLoop 0 (t.map (fun c => (c, env)) ++ rest) vty = readLoop 0 rest v ∧
    Waits (.behind (s ++ t)) v ∧
      LegalBytes 0 rest v ∧ login v = login vty := by
  induction t with
  | nil =>
    intro s vty h _ hlegal
    rw [List.append_nil]
    exact ⟨vty, rfl, h, hlegal, rfl⟩
  | cons c t ih =>
    intro s vty h hletters hlegal
    obtain ⟨hc, ht⟩ := List.forall_mem_cons.mp hletters
    have hinserts : Inserts c vty :=
      ⟨h.keys, h.escape, .inr ⟨hc.1, fun heq => absurd heq hc.2⟩⟩
    obtain ⟨v, hrun, hwaits, hlogin⟩ :=
      letter_runs h hc (hlegal.1.room hinserts)
        ((t.map (fun c => (c, env)) ++ rest).head?.map Prod.fst)
    rw [insert_behind] at hwaits
    obtain ⟨v', hrun', hwaits', hlegal', hlogin'⟩ := ih (s ++ [c]) v hwaits ht (hlegal.2 _ hrun)
    refine ⟨v', ?_,
      by rwa [List.append_assoc, List.singleton_append] at hwaits', hlegal', hlogin'.trans hlogin⟩
    rw [List.map_cons, List.cons_append, readLoop, hrun]
    exact hrun'

/-- Enter. -/
theorem enter_runs {t : CString} {vty : Vty} (h : Waits (.behind t.bytes) vty) (env : Env)
    (next : Option UInt8) :
    ∃ v, readByte env 13 next vty = .ok (0, v) ∧ Waits (.behind []) v ∧
    login v = (login vty).submit env t := by
  obtain ⟨v, hrun, hgood, hmodes, -⟩ := execute_good h.good env
  have hescape : vty.escape = .VTY_NORMAL := h.escape
  refine ⟨v, ?_,
    ⟨hgood, hmodes.escape.trans hescape, h.keys.modes hmodes.iac hmodes.sub hmodes.status, rfl⟩, ?_⟩
  · rw [readByte_key h.keys env (by decide), hescape, if_neg Escape.noConfusion,
      if_neg Escape.noConfusion, if_neg (by decide),
      key_enter (.inr rfl), hrun]
    rfl
  · have hfree : (0 : UInt8) ∉ (Zipper.behind t.bytes).text := by
      rw [Zipper.text_behind]
      exact t.nul_free
    have hline : (⟨(Zipper.behind t.bytes).text, hfree⟩ : CString) = t := by
      obtain ⟨bytes, hbytes⟩ := t
      simp only [Zipper.text_behind]
    rw [execute_login h.good env hfree hrun, hline]

def entering (env : Env) (ts : List CString) : List (UInt8 × Env) :=
  ts.flatMap fun t => t.bytes.map (fun c => (c, env)) ++ [(13, env)]

/-- Whatever comes of the lines in front, the next one is run where they lead. -/
theorem lines_exact (env : Env) (ts : List CString) :
    ∀ vty, Waits (.behind []) vty → (∀ t ∈ ts, ∀ c ∈ t.bytes, Letter c) →
    LegalBytes 0 (entering env ts) vty →
    ∃ v, readLoop 0 (entering env ts) vty = .ok (0, v) ∧ login v = ts.foldl (Login.submit env)
      (login vty) := by
  induction ts with
  | nil => exact fun vty _ _ _ => ⟨vty, rfl, rfl⟩
  | cons t ts ih =>
    intro vty h hletters hlegal
    obtain ⟨ht, hts⟩ := List.forall_mem_cons.mp hletters
    have hbytes : entering env (t :: ts) = t.bytes.map (fun c => (c, env)) ++ (13, env) ::
        entering env ts := by
      simp [entering]
    rw [hbytes] at hlegal ⊢
    obtain ⟨v, hrun, hwaits, hlegal', hlogin⟩ := letters_run env _ t.bytes [] vty h ht hlegal
    obtain ⟨v', hrun', hwaits', hlogin'⟩ :=
      enter_runs hwaits env ((entering env ts).head?.map Prod.fst)
    obtain ⟨v'', hrun'', hlogin''⟩ := ih v' hwaits' hts (hlegal'.2 _ hrun')
    refine ⟨v'', ?_, ?_⟩
    · rw [hrun, readLoop, hrun']
      exact hrun''
    · rw [hlogin'', hlogin', hlogin, List.foldl_cons]

/-! ## Passwords -/

theorem wrong_submit {env : Env} {w : CString} {s : Login} (hnode : s.node = .AUTH_NODE)
    (hwrong : passwd env .AUTH_NODE ≠ some w.bytes) :
    s.submit env w = ⟨.AUTH_NODE, s.fail + 1, s.closed || 3 ≤ s.fail + 1⟩ := by
  have hauth : inAuth s.node = true := by
    rw [hnode]
    rfl
  rw [Login.submit, if_pos hauth, Login.tried, hnode, if_neg hwrong]
  by_cases hfew : s.fail < 2
  · have hless : ¬ 3 ≤ s.fail + 1 := by omega
    rw [if_pos hfew, decide_eq_false hless, Bool.or_false]
  · have hmany : 3 ≤ s.fail + 1 := by omega
    rw [if_neg hfew, if_pos rfl, decide_eq_true hmany, Bool.or_true]

theorem wrong_tries (env : Env) (ws : List CString) : ∀ s : Login, s.node = .AUTH_NODE →
    (∀ w ∈ ws, passwd env .AUTH_NODE ≠ some w.bytes) →
    ∃ closed, ws.foldl (Login.submit env) s = ⟨.AUTH_NODE, s.fail + ws.length, closed⟩ ∧
      (closed = true ↔ s.closed = true ∨ ws ≠ [] ∧ 3 ≤ s.fail + ws.length) := by
  induction ws with
  | nil =>
    rintro ⟨node, fail, closed⟩ hnode _
    obtain rfl : node = .AUTH_NODE := hnode
    exact ⟨closed, rfl, by simp⟩
  | cons w ws ih =>
    intro s hnode hwrong
    obtain ⟨hw, hws⟩ := List.forall_mem_cons.mp hwrong
    obtain ⟨closed, hrun, hclosed⟩ :=
      ih ⟨.AUTH_NODE, s.fail + 1, s.closed || 3 ≤ s.fail + 1⟩ rfl hws
    refine ⟨closed, ?_, ?_⟩
    · rw [List.foldl_cons, wrong_submit hnode hw, hrun, List.length_cons,
        Nat.add_right_comm, Nat.add_assoc]
    · have hlength : ws ≠ [] ∨ ws.length = 0 := by
        rw [List.length_eq_zero_iff, or_comm]
        exact em _
      rw [hclosed]
      simp only [Bool.or_eq_true, decide_eq_true_eq, List.length_cons, ne_eq, reduceCtorEq,
        not_false_eq_true, true_and]
      constructor
      · rintro ((hold | hnow) | ⟨-, hlater⟩)
        · exact .inl hold
        · exact .inr (by omega)
        · exact .inr (by omega)
      · rintro (hold | hmany)
        · exact .inl (.inl hold)
        · rcases hlength with hne | hzero
          · exact .inr ⟨hne, by omega⟩
          · exact .inl (.inr (by omega))

/-- Any number of wrong passwords, the right one behind them and lines behind it, all in one
read: after the third the terminal is closed, and still the right one is let in and the lines
are commands. -/
theorem tries_exact (env : Env) (vty : Vty) (ws : List CString) (p : CString) (ts : List CString)
    (h : Waits (.behind []) vty) (hnode : vty.node = .AUTH_NODE)
    (hletters : ∀ t ∈ ws ++ p :: ts, ∀ c ∈ t.bytes, Letter c)
    (hlegal : LegalBytes 0 (entering env (ws ++ p :: ts)) vty)
    (hwrong : ∀ w ∈ ws, passwd env .AUTH_NODE ≠ some w.bytes)
    (hright : passwd env .AUTH_NODE = some p.bytes) :
    ∃ v closed, readLoop 0 (entering env (ws ++ p :: ts)) vty = .ok (0, v) ∧
      login v = ts.foldl (Login.submit env) ⟨admitted env .AUTH_NODE, 0, closed⟩ ∧
      (closed = true ↔ vty.status = .VTY_CLOSE ∨ ws ≠ [] ∧ 3 ≤ vty.fail + ws.length) := by
  obtain ⟨v, hrun, hlogin⟩ := lines_exact env _ vty h hletters hlegal
  obtain ⟨closed, hwrongs, hclosed⟩ := wrong_tries env ws (login vty) hnode hwrong
  have hlet : Login.submit env ⟨.AUTH_NODE, (login vty).fail + ws.length, closed⟩ p =
      ⟨admitted env .AUTH_NODE, 0, closed⟩ := by
    have hauth : inAuth .AUTH_NODE = true := rfl
    exact (if_pos hauth).trans (if_pos hright)
  refine ⟨v, closed, hrun, ?_, ?_⟩
  · rw [hlogin, List.foldl_append, hwrongs, List.foldl_cons, hlet]
  · rw [hclosed]
    exact or_congr_left decide_eq_true_iff

/-- Three lines that are not the password, and the password. -/
theorem tries_exact_four :
    ∃ (vty : Vty) (x p : CString), vtyCreate bareEnv false 24 [] false = some vty ∧
    x.bytes = [120] ∧ p.bytes = [112] ∧ ∃ v closed,
    readLoop 0 (entering bareEnv ([x, x, x] ++ p :: [])) vty = .ok (0, v) ∧
      login v = [].foldl (Login.submit bareEnv) ⟨admitted bareEnv .AUTH_NODE, 0, closed⟩ ∧
      (closed = true ↔ vty.status = .VTY_CLOSE ∨ [x, x, x] ≠ [] ∧
        3 ≤ vty.fail + [x, x, x].length) := by
  obtain ⟨vty, hcreate, hnode⟩ : ∃ vty, vtyCreate bareEnv false 24 [] false = some vty ∧
      vty.node = .AUTH_NODE := ⟨_, rfl, rfl⟩
  have hx : Letter 120 := ⟨⟨by decide, by decide⟩, by decide⟩
  have hp : Letter 112 := ⟨⟨by decide, by decide⟩, by decide⟩
  refine ⟨vty, ⟨[120], by decide⟩, ⟨[112], by decide⟩, hcreate, rfl, rfl,
    tries_exact bareEnv vty _ _ _ (create_typing hcreate) hnode
    ?_ (legal_bare [120, 13, 120, 13, 120, 13, 112, 13] (by decide) vty) ?_ rfl⟩
  · simp [hx, hp]
  · simp [passwd, bareEnv]

end NetmtVtyLogin
