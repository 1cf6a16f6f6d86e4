import Netmt.VtyRuns

/-!
# What is typed

The bytes of a read are edits of the line, one after another. Where a read ends does not
matter, unless it ends inside an option or closes the terminal.
-/
namespace NetmtVtyTyping

open NetmtVty NetmtVtyEdit NetmtVtyGood NetmtVtyWords NetmtVtyRuns NetmtCli

/-! ## Edits -/

/-- A line, and what the next byte is behind. -/
abbrev Typed := Escape × Zipper UInt8

/-- The edit that a byte is. -/
def typing (auth : Bool) (s : Typed) (c : UInt8) : Typed :=
  match s.1 with
  | .VTY_ESCAPE => (.VTY_NORMAL, arrowed c s.2)
  | .VTY_PRE_ESCAPE => if c = 91 then (.VTY_ESCAPE, s.2) else (.VTY_NORMAL, escaped auth c s.2)
  | .VTY_NORMAL => if c = 27 then (.VTY_PRE_ESCAPE, s.2) else (.VTY_NORMAL, keyed auth c s.2)

/-- A byte that edits, by what it is behind. -/
def Types (e : Escape) (c : UInt8) : Prop :=
  match e with
  | .VTY_ESCAPE => c ≠ IAC ∧ c ≠ 65 ∧ c ≠ 66
  | .VTY_PRE_ESCAPE => c ≠ IAC
  | .VTY_NORMAL => c ≠ IAC ∧ Editing c

theorem readByte_key {vty : Vty} (h : Keys vty) (env : Env) {c : UInt8} (hc : c ≠ IAC)
    (next : Option UInt8) :
    readByte env c next vty =
      if vty.escape = .VTY_ESCAPE then (vtyEscapeMap c vty).map fun vty => (0, vty)
      else if vty.escape = .VTY_PRE_ESCAPE then (preEscapeByte c vty).map fun vty => (0, vty)
      else if c = 27 then
        if next = some 91 then .ok (1, { vty with escape := .VTY_ESCAPE })
          else .ok (0, { vty with escape := .VTY_PRE_ESCAPE })
      else (keyByte env c vty).map fun vty => (0, vty) := by
  have hno : ¬ (c = IAC ∧ vty.iac = false) := fun hboth => hc hboth.1
  have hsub : ¬ (vty.iac_sb_in_progress = true ∧ vty.iac = false) := by
    rw [h.sub]
    exact fun hboth => Bool.false_ne_true hboth.1
  have hiac : ¬ vty.iac = true := by
    rw [h.iac]
    exact Bool.false_ne_true
  rw [readByte, if_neg hno, if_neg hc]
  simp only
  rw [if_neg hsub, if_neg hiac, if_neg h.shown]

/-- The line, what the next byte is behind, and that it is a key. -/
structure Typing (auth : Bool) (s : Typed) (vty : Vty) : Prop where
  good : Good s.2 vty
  escape : vty.escape = s.1
  keys : Keys vty
  auth : inAuth vty.node = auth

theorem Typing.leaves {auth : Bool} {vty : Vty} {s : Typed} {z : Zipper UInt8} {e : Escape}
    {r : Except Halt Vty} (h : Typing auth s vty) (vty' : Vty)
    (hmodes : Modes { vty with escape := e } vty') (hauth : inAuth vty'.node = inAuth vty.node)
    (hleaves : Leaves vty' z r) : ∃ v, r = .ok v ∧ Typing auth (e, z) v ∧ ring v = ring vty' := by
  obtain ⟨v, rfl, hgood, hframe⟩ := hleaves
  have hall := hmodes.trans hframe.toModes
  exact ⟨v, rfl,
    ⟨hgood, hall.escape, h.keys.modes hall.iac hall.sub hall.status,
      (hframe.auth.trans hauth).trans h.auth⟩,
    hframe.ring⟩

theorem cancelled_modes (c : UInt8) (vty : Vty) :
    Modes vty (cancelled c vty) ∧ inAuth (cancelled c vty).node = inAuth vty.node := by
  unfold cancelled
  split
  · exact ⟨⟨rfl, rfl, rfl, .inl rfl⟩, rfl⟩
  · exact ⟨Modes.refl vty, rfl⟩

/-- The history behind a byte that edits. -/
def ringBehind (e : Escape) (c : UInt8) (vty : Vty) : Ring :=
  if e = .VTY_NORMAL then ring (cancelled c vty) else ring vty

/-- One byte, where it is not taken together with the next. -/
theorem byte_typed {auth : Bool} {s : Typed} {vty : Vty} (h : Typing auth s vty) {env : Env}
    {c : UInt8} (hc : Permitted env c vty) (ht : Types s.1 c) {next : Option UInt8}
    (hsingle : ¬ (s.1 = .VTY_NORMAL ∧ c = 27 ∧ next = some 91)) :
    ∃ v, readByte env c next vty = .ok (0, v) ∧ Typing auth (typing auth s c) v ∧
    ring v = ringBehind s.1 c vty := by
  obtain ⟨e, z⟩ := s
  have hescape := h.escape
  cases e with
  | VTY_ESCAPE =>
    rw [readByte_key h.keys env ht.1, if_pos hescape]
    obtain ⟨v, hrun, htyping⟩ :=
      h.leaves { vty with escape := .VTY_NORMAL } (Modes.refl _) rfl
        (escapeMap_edits h.good ht.2.1 ht.2.2)
    rw [hrun]
    exact ⟨v, rfl, htyping⟩
  | VTY_PRE_ESCAPE =>
    rw [readByte_key h.keys env ht,
      if_neg (by rw [hescape]; exact Escape.noConfusion), if_pos hescape]
    by_cases hbracket : c = 91
    · rw [preEscapeByte, if_pos hbracket, typing, if_pos hbracket]
      exact ⟨_, rfl,
        ⟨good_mode h.good .VTY_ESCAPE, rfl, h.keys.modes rfl rfl (.inl rfl), h.auth⟩, rfl⟩
    · obtain ⟨v, hrun, htyping⟩ := h.leaves { vty with escape := .VTY_NORMAL } (Modes.refl _) rfl
        (preEscape_edits h.good hc h.keys hescape hbracket)
      rw [hrun, typing, if_neg hbracket, ← h.auth]
      exact ⟨v, rfl, h.auth ▸ htyping⟩
  | VTY_NORMAL =>
    rw [readByte_key h.keys env ht.1, if_neg (by rw [hescape]; exact Escape.noConfusion),
      if_neg (by rw [hescape]; exact Escape.noConfusion)]
    by_cases hesc : c = 27
    · have hring : ringBehind .VTY_NORMAL c vty = ring vty := by
        rw [ringBehind, if_pos rfl, cancelled, if_neg (by rw [hesc]; decide)]
      rw [if_pos hesc, if_neg (fun hnext => hsingle ⟨rfl, hesc, hnext⟩), typing, if_pos hesc, hring]
      exact ⟨_, rfl,
        ⟨good_mode h.good .VTY_PRE_ESCAPE, rfl, h.keys.modes rfl rfl (.inl rfl), h.auth⟩, rfl⟩
    · have hmodes : Modes { vty with escape := .VTY_NORMAL } (cancelled c vty) := by
        obtain ⟨hiac, hsub, hsame, hstatus⟩ := (cancelled_modes c vty).1
        exact ⟨hiac, hsub, hsame.trans hescape, hstatus⟩
      obtain ⟨v, hrun, htyping⟩ :=
        h.leaves (cancelled c vty) hmodes (cancelled_modes c vty).2
          (key_edits h.good hc h.keys hescape ht.2)
      rw [if_neg hesc, hrun, typing, if_neg hesc, ringBehind, if_pos rfl]
      exact ⟨v, rfl, h.auth ▸ htyping⟩

/-- An escape character with the bracket behind it in one read. -/
theorem bracket_typed {auth : Bool} {z : Zipper UInt8} {vty : Vty}
    (h : Typing auth (.VTY_NORMAL, z) vty) (env : Env) :
    ∃ v, readByte env 27 (some 91) vty = .ok (1, v) ∧
    Typing auth (typing auth (typing auth (.VTY_NORMAL, z) 27) 91) v ∧
      ring v = ring vty := by
  have hescape := h.escape
  rw [readByte_key h.keys env (by decide), if_neg (by rw [hescape]; exact Escape.noConfusion),
    if_neg (by rw [hescape]; exact Escape.noConfusion), if_pos rfl, if_pos rfl]
  exact ⟨_, rfl, ⟨good_mode h.good .VTY_ESCAPE, rfl, h.keys.modes rfl rfl (.inl rfl), h.auth⟩, rfl⟩

theorem create_typing {env : Env} {no_password_check : Bool} {lines : Int} {hello : List UInt8}
    {vty_config : Bool} {vty : Vty}
    (h : vtyCreate env no_password_check lines hello vty_config = some vty) :
    Typing (inAuth vty.node) (.VTY_NORMAL, .behind []) vty := by
  have hgood := create_good h
  unfold vtyCreate at h
  split at h
  · cases h
  · cases h
    exact ⟨hgood, rfl, ⟨rfl, rfl, Status.noConfusion⟩, rfl⟩

/-! ## Pieces of a read -/

/-- A byte in front of the last one of a piece. -/
theorem readByte_last (env : Env) (c : UInt8) (next : Option UInt8) (vty : Vty)
    (hc : next ≠ some 91) :
    readByte env c next vty = readByte env c none vty := by
  have hnext : ¬ (none : Option UInt8) = some 91 := Option.some_ne_none 91 ∘ Eq.symm
  unfold readByte
  simp only [if_neg hc, if_neg hnext]

/-- The byte in front of a bracket: the bracket is taken with it, or it is the escape character
and the bracket comes to the same by itself. -/
theorem readByte_bracket (env : Env) (c : UInt8) (vty : Vty) (env' : Env) (next : Option UInt8) :
    readByte env c (some 91) vty = readByte env c none vty ∨
      ∃ v v', readByte env c (some 91) vty = .ok (1, v) ∧ readByte env c none vty = .ok (0, v') ∧
        readByte env' 91 next v' = .ok (0, v) := by
  unfold readByte
  by_cases hfirst : c = IAC ∧ vty.iac = false
  · rw [if_pos hfirst, if_pos hfirst]
    exact .inl rfl
  rw [if_neg hfirst, if_neg hfirst]
  generalize hv : (if c = IAC then { vty with iac := false } else vty) = v
  simp only
  by_cases hsub : v.iac_sb_in_progress = true ∧ v.iac = false
  · rw [if_pos hsub, if_pos hsub]
    exact .inl rfl
  rw [if_neg hsub, if_neg hsub]
  by_cases hiac : v.iac = true
  · rw [if_pos hiac, if_pos hiac]
    exact .inl rfl
  rw [if_neg hiac, if_neg hiac]
  by_cases hmore : v.status = .VTY_MORE
  · rw [if_pos hmore, if_pos hmore]
    exact .inl rfl
  rw [if_neg hmore, if_neg hmore]
  by_cases hescape : v.escape = .VTY_ESCAPE
  · rw [if_pos hescape, if_pos hescape]
    exact .inl rfl
  rw [if_neg hescape, if_neg hescape]
  by_cases hpre : v.escape = .VTY_PRE_ESCAPE
  · rw [if_pos hpre, if_pos hpre]
    exact .inl rfl
  rw [if_neg hpre, if_neg hpre]
  by_cases hesc : c = 27
  · have hfalse : v.iac = false := Bool.eq_false_iff.mpr hiac
    have hkeys : Keys { v with escape := .VTY_PRE_ESCAPE } :=
      ⟨hfalse, Bool.eq_false_iff.mpr fun hprogress => hsub ⟨hprogress, hfalse⟩, hmore⟩
    have hbracket := readByte_key hkeys env' (c := 91) (by decide) next
    rw [if_pos hesc, if_pos hesc]
    refine .inr ⟨{ v with escape := .VTY_ESCAPE },
      { v with escape := .VTY_PRE_ESCAPE }, rfl, rfl, ?_⟩
    unfold readByte at hbracket
    exact hbracket
  · rw [if_neg hesc, if_neg hesc]
    exact .inl rfl

/-- The loop over two pieces is the loop over the first and, from what it skips behind it, over
the second. -/
theorem loop_append (u v : List (UInt8 × Env)) : ∀ (skip : Nat) (vty : Vty),
    readLoop skip (u ++ v) vty = (readLoop skip u vty).bind fun r => readLoop r.1 v r.2 := by
  induction u with
  | nil =>
    intro skip vty
    cases skip <;> rfl
  | cons byte u ih =>
    intro skip vty
    cases skip with
    | succ skip => exact ih skip vty
    | zero =>
      have hrest : ∀ r : Except Halt (Nat × Vty), (r.bind fun r => readLoop r.1 (u ++ v) r.2) =
          (r.bind fun r => readLoop r.1 u r.2).bind fun r => readLoop r.1 v r.2 := by
        intro r
        cases r with
        | error e => rfl
        | ok r => exact ih r.1 r.2
      have hstep : readLoop 0 (byte :: u ++ v) vty =
          (readByte byte.2 byte.1 ((u ++ v).head?.map Prod.fst) vty).bind fun r =>
            readLoop r.1 (u ++ v) r.2 := rfl
      rw [hstep, readLoop]
      cases u with
      | cons next u => exact hrest _
      | nil =>
        cases v with
        | nil => exact hrest _
        | cons next v =>
          obtain ⟨b, env'⟩ := next
          by_cases hb : b = 91
          · subst hb
            rcases readByte_bracket byte.2 byte.1 vty env' (v.head?.map Prod.fst) with hsame | ⟨w,
              w', hjoint, hfirst, hsecond⟩
            · have hnone : readByte byte.2 byte.1
                ((([] : List (UInt8 × Env)) ++ (91, env') :: v).head?.map Prod.fst) vty =
                  readByte byte.2 byte.1 (([] : List (UInt8 × Env)).head?.map Prod.fst) vty := hsame
              rw [hnone]
              exact hrest _
            · have hjoint' : readByte byte.2 byte.1
                ((([] : List (UInt8 × Env)) ++ (91, env') :: v).head?.map Prod.fst) vty =
                  .ok (1, w) := hjoint
              have hfirst' : readByte byte.2 byte.1
                (([] : List (UInt8 × Env)).head?.map Prod.fst) vty = .ok (0, w') := hfirst
              rw [hjoint', hfirst']
              have hloop : readLoop 0 ((91, env') :: v) w' = readLoop 0 v w := by
                rw [readLoop, hsecond]
                rfl
              exact hloop.symm
          · have hnone : readByte byte.2 byte.1
              ((([] : List (UInt8 × Env)) ++ (b, env') :: v).head?.map Prod.fst) vty =
                readByte byte.2 byte.1 (([] : List (UInt8 × Env)).head?.map Prod.fst) vty :=
              readByte_last byte.2 byte.1 (some b) vty fun hnext => hb (Option.some.inj hnext)
            rw [hnone]
            exact hrest _

/-- The pieces that are read, each in a read of its own: behind one that leaves `VTY_CLOSE`
the terminal is gone. -/
def heard : List (List (UInt8 × Env)) → Vty → List (List (UInt8 × Env))
  | [], _ => []
  | bytes :: pieces, vty =>
    if vty.status = .VTY_CLOSE then []
    else bytes :: (readLoop 0 bytes vty).toOption.elim [] fun r => heard pieces r.2

/-- No piece that is read is empty or ends inside an option. -/
def Whole : List (List (UInt8 × Env)) → Vty → Prop
  | [], _ => True
  | bytes :: pieces, vty => vty.status = .VTY_CLOSE ∨
      bytes ≠ [] ∧ ∀ r, readLoop 0 bytes vty = .ok r → r.1 = 0 ∧ Whole pieces r.2

/-- The terminal is open in front of each piece. -/
def StaysOpen : List (List (UInt8 × Env)) → Vty → Prop
  | [], _ => True
  | bytes :: pieces, vty => vty.status ≠ .VTY_CLOSE ∧ ∀ r, readLoop 0 bytes vty = .ok r →
      StaysOpen pieces r.2

/-- The reads come to one loop over what they hear. -/
theorem heard_loop {pieces : List (List (UInt8 × Env))} {vty : Vty} (h : Whole pieces vty) :
    run (pieces.map Event.read) vty = (readLoop 0 (heard pieces vty).flatten vty).map Prod.snd := by
  induction pieces generalizing vty with
  | nil => rfl
  | cons bytes pieces ih =>
    rw [List.map_cons, run, heard]
    by_cases hclosed : vty.status = .VTY_CLOSE
    · rw [if_pos hclosed, if_pos hclosed]
      rfl
    · obtain ⟨hne, hwhole⟩ := h.resolve_left hclosed
      rw [if_neg hclosed, if_neg hclosed, handle, vtyRead, if_neg hne,
        List.flatten_cons, loop_append]
      cases hrun : readLoop 0 bytes vty with
      | error e => rfl
      | ok r =>
        obtain ⟨skip, v⟩ := r
        obtain ⟨hskip, hrest⟩ := hwhole _ hrun
        have hzero : skip = 0 := hskip
        subst hzero
        exact ih hrest

/-- What is heard of pieces in front of which the terminal is open: all of them, or those
up to the byte that halts it. -/
theorem heard_open {pieces : List (List (UInt8 × Env))} {vty : Vty} (h : Whole pieces vty)
    (hopen : StaysOpen pieces vty) :
    readLoop 0 (heard pieces vty).flatten vty = readLoop 0 pieces.flatten vty := by
  induction pieces generalizing vty with
  | nil => rfl
  | cons bytes pieces ih =>
    obtain ⟨hstatus, hlater⟩ := hopen
    obtain ⟨-, hwhole⟩ := h.resolve_left hstatus
    rw [heard, if_neg hstatus, List.flatten_cons, List.flatten_cons, loop_append, loop_append]
    cases hrun : readLoop 0 bytes vty with
    | error e => rfl
    | ok r =>
      obtain ⟨skip, v⟩ := r
      obtain ⟨hskip, hrest⟩ := hwhole _ hrun
      have hzero : skip = 0 := hskip
      subst hzero
      exact ih hrest (hlater _ hrun)

/-- It makes no difference in what pieces the bytes come, as long as no piece ends inside an
option: up to the end of the piece that closes the terminal, if one does, and all of them if
it is open in front of each. -/
theorem pieces_exact (pieces : List (List (UInt8 × Env))) (vty : Vty) (h : Whole pieces vty) :
    run (pieces.map Event.read) vty = (readLoop 0 (heard pieces vty).flatten vty).map Prod.snd ∧
      (StaysOpen pieces vty →
        run (pieces.map Event.read) vty = (readLoop 0 pieces.flatten vty).map Prod.snd) :=
  ⟨heard_loop h, fun hopen => by rw [heard_loop h, heard_open h hopen]⟩

/-- An escape character at the end of one piece and a bracket at the front of the next. -/
theorem pieces_exact_arrow : ∃ vty, vtyCreate bareEnv true 24 [] false = some vty ∧
    run ([[(27, bareEnv)], [(91, bareEnv), (68, bareEnv)]].map Event.read) vty =
      (readLoop 0 [(27, bareEnv), (91, bareEnv), (68, bareEnv)] vty).map Prod.snd := by
  refine ⟨_, rfl, (pieces_exact [[(27, bareEnv)], [(91, bareEnv), (68, bareEnv)]] _ ?_).2 ?_⟩
  · refine .inr ⟨List.cons_ne_nil _ _, fun r hr => ?_⟩
    cases hr
    exact ⟨rfl, .inr ⟨List.cons_ne_nil _ _, fun r hr => by cases hr; exact ⟨rfl, trivial⟩⟩⟩
  · refine ⟨Status.noConfusion, fun r hr => ?_⟩
    cases hr
    exact ⟨Status.noConfusion, fun _ _ => trivial⟩

end NetmtVtyTyping
