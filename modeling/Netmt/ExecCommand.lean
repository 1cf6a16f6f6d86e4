import Netmt.CommandArgs
import Netmt.Registry
import Netmt.Lib.Strcat

/-!
# The command of `exec shell remote`

The server appends its arguments, each with a space behind it, to `cmdstr`, and nothing
looks at their length. The client runs the text that it finds there.
-/
namespace NetmtExecCommand

open NetmtCommand NetmtTcpRecv NetmtTransfer NetmtServer NetmtServerCommand NetmtRegistry NetmtCli
  NetmtCommandArgs
open NetmtClient (asciiBytes endsInLine execCommand execCommandWithReturn)

/-! ## The server -/

/-- `strcat(comm.cmdstr, argv[i]); strcat(comm.cmdstr, " ");` for each word. -/
def appendWords : List CString → Frame → Option Frame
  | [], comm => some comm
  | word :: words, comm =>
    (comm.strcat cmdstr word.bytes).bind fun c => (c.strcat cmdstr [32]).bind (appendWords words)

/-- Whom the frame goes to. -/
inductive Target where
  | total | fd (k : Int)

/-- `comm` after `bzero`. -/
def emptyComm : Frame := (default : Frame).putU32 commonid NETMT_EXEC

/-- The frame is passed on with its text and `flag` 0. -/
def passOn (target : Target) (words : List CString) : Except Fault (Option (Target × Frame)) :=
  match appendWords words emptyComm with
  | none => .error .outOfBounds
  | some comm => .ok (some (target, comm.putI32 flag 0))

/-- `exec_shell_remote`, up to the call that sends. -/
def execShellRemote (argv : List CString) : Except Fault (Option (Target × Frame)) :=
  match argv with
  | [] => .ok none
  | client :: rest =>
    match execBranch client with
    | .all => passOn .total rest
    | .single =>
      match rest with
      | [] => .error .outOfBounds
      | k :: words => passOn (.fd k.atoi) words
    | _ => .ok none

/-- The call that sends. -/
def send (argv : List CString) (s : Server) : Except Fault Server :=
  (execShellRemote argv).bind fun r =>
    match r with
    | none => .ok s
    | some (.total, comm) => sendTotalString comm s
    | some (.fd k, comm) => .ok (sendSingleFd k comm s)

/-- What it does is one of the console's steps. -/
theorem send_command {argv : List CString} {s s' : Server} (h : send argv s = .ok s') :
    s' = s ∨ NetmtRegistry.Command s s' := by
  rw [send] at h
  obtain ⟨r, -, h⟩ := Outcome.bind_eq_ok.mp h
  match r, h with
  | none, h =>
    cases h
    exact Or.inl rfl
  | some (.total, comm), h => exact Or.inr (.execAll h)
  | some (.fd k, comm), h =>
    cases h
    exact Or.inr (.execSingle k comm s)

/-! ## The client -/

/-- Which function runs a text, if one does. -/
inductive Run where
  | nothing
  | exec_command (text : List UInt8)
  | exec_command_with_return (text : List UInt8)

/-- The text that is given to `popen`. -/
def Run.popen : Run → Option (List UInt8)
  | nothing => none
  | exec_command text => some text
  | exec_command_with_return text => some text

/-- `NETMT_EXEC` of the client. -/
def clientRun (f : Frame) (tail : List UInt8) : Except Fault Run :=
  match cstrAt f tail cmdstr with
  | none => .error .outOfBounds
  | some origin =>
    if BUFFER_SIZE ≤ origin.length then .error .localBuffer
    else if endsInLine f then .ok .nothing
    else if (asciiBytes "ifconfig cmd").isPrefixOf origin then
      .ok (.exec_command (asciiBytes "ifconfig"))
    else .ok (.exec_command_with_return origin)

/-- It is the client's handler, which does not tell what it runs. -/
theorem onExec_run (e : NetmtClient.Env) (f : Frame) (tail : List UInt8) (c : NetmtClient.Client) :
    NetmtClient.onExec e f tail c =
      match clientRun f tail with
      | .error x => .fault x
      | .ok .nothing => .next c
      | .ok (.exec_command _) => execCommand e c
      | .ok (.exec_command_with_return _) => execCommandWithReturn e c := by
  simp only [NetmtClient.onExec, clientRun]
  cases cstrAt f tail cmdstr with
  | none => rfl
  | some origin =>
    dsimp only
    split
    · rfl
    · split
      · rfl
      · split <;> rfl

/-! ## What is meant -/

/-- The words of the command: behind `all`, or behind the descriptor. -/
def commandWords : List CString → List CString
  | [] => []
  | client :: rest => if execBranch client = .all then rest else rest.tail

/-- The words with a space behind each. -/
def spaced (words : List CString) : List UInt8 := words.flatMap fun word => word.bytes ++ [32]

/-- The words with a space between them. -/
def joined (words : List CString) : List UInt8 := [32].intercalate (words.map CString.bytes)

/-- `cmdstr` holds the text with its NUL, and whatever lies behind the frame it is the text
that the client runs. -/
structure Arrives (text : List UInt8) (f : Frame) : Prop where
  held : f.Text cmdstr text
  fits : text.length + 1 ≤ BUFFER_SIZE
  runs : ∀ tail, (clientRun f tail).map Run.popen = .ok (some text)

/-- The command is built and, if it is sent at all, arrives as the text of its words. -/
def CommandArrives (text : List CString → List UInt8) (argv : List CString) : Prop :=
  ∃ r, execShellRemote argv = .ok r ∧
    ∀ target comm, r = some (target, comm) → Arrives (text (commandWords argv)) (setLen comm)

/-! ## The text of the frame -/

/-- `comm` with the text `s`, and nothing behind it. -/
structure Holding (comm : Frame) (s : List UInt8) : Prop where
  text : comm.Text cmdstr s
  rest : ∀ i, cmdstr + s.length ≤ i → i < 5168 → comm.bytes[i]? = some 0

theorem spaced_cons (word : CString) (words : List CString) :
    spaced (word :: words) = word.bytes ++ [32] ++ spaced words := by
  rw [spaced, List.flatMap_cons]
  rfl

/-- The head of the frame is no part of it. -/
theorem Holding.put {comm : Frame} {s data : List UInt8} {off : Nat} (h : Holding comm s)
    (hoff : off + data.length ≤ cmdstr) : Holding (comm.put off data) s := by
  have hcmd : cmdstr = 48 := rfl
  refine ⟨⟨h.text.nul_free, h.text.fits, ?_⟩, fun i hi hlt => ?_⟩
  · rw [Region.slice_put_other _ _ _ _ _ (by omega) (Or.inr hoff)]
    exact h.text.bytes
  · change (Region.patch _ _ _)[i]? = _
    rw [Region.getElem?_patch _ _ _ (by rw [Region.length_bytes]; omega), if_neg (by omega),
      if_neg (by omega)]
    exact h.rest i hi hlt

theorem holding_empty : Holding emptyComm [] := by
  refine Holding.put ⟨Region.text_zero (by decide), fun i _ hlt => ?_⟩ (by simp)
  change (List.replicate 5168 (0 : UInt8))[i]? = some 0
  rw [List.getElem?_replicate_of_lt hlt]

/-- One `strcat` that stays in the frame. -/
theorem Holding.strcat {comm comm' : Frame} {s src : List UInt8} (h : Holding comm s)
    (hsrc : (0 : UInt8) ∉ src) (hcat : comm.strcat cmdstr src = some comm') :
    Holding comm' (s ++ src) := by
  have hfit : cmdstr + s.length + src.length < 5168 := by
    by_contra hover
    rw [h.text.strcat_overflow (by omega)] at hcat
    cases hcat
  obtain ⟨hcat', htext⟩ := h.text.strcat hsrc hfit
  rw [hcat'] at hcat
  cases hcat
  refine ⟨htext, fun i hi hlt => ?_⟩
  change (Region.patch _ _ _)[i]? = _
  rw [List.length_append] at hi
  have hlen : (src ++ [0]).length = src.length + 1 := by simp
  rw [Region.getElem?_patch _ _ _ (by rw [hlen, Region.length_bytes]; omega),
    if_neg (by omega), hlen]
  by_cases hnul : i = cmdstr + s.length + src.length
  · rw [if_pos (by omega), List.getElem?_append_right (by omega)]
    have hzero : i - (cmdstr + s.length) - src.length = 0 := by omega
    rw [hzero]
    rfl
  · rw [if_neg (by omega)]
    exact h.rest i (by omega) hlt

/-- The loop over the words. -/
theorem appendWords_some {words : List CString} {comm comm' : Frame} {s : List UInt8}
    (h : Holding comm s) (happ : appendWords words comm = some comm') :
    Holding comm' (s ++ spaced words) := by
  induction words generalizing comm s with
  | nil =>
    cases happ
    rwa [spaced, List.flatMap_nil, List.append_nil]
  | cons word words ih =>
    rw [appendWords] at happ
    cases hword : comm.strcat cmdstr word.bytes with
    | none =>
      rw [hword] at happ
      cases happ
    | some c =>
      rw [hword, Option.bind_some] at happ
      have hc := h.strcat word.nul_free hword
      cases hspace : c.strcat cmdstr [32] with
      | none =>
        rw [hspace] at happ
        cases happ
      | some c' =>
        rw [hspace, Option.bind_some] at happ
        have hlast := ih (hc.strcat (by decide) hspace) happ
        rw [spaced_cons]
        simpa only [List.append_assoc] using hlast

/-- It stays in the frame when the whole text does. -/
theorem appendWords_fits {words : List CString} {comm : Frame} {s : List UInt8} (h : Holding comm s)
    (hfit : cmdstr + s.length + (spaced words).length < 5168) :
    ∃ comm', appendWords words comm = some comm' := by
  induction words generalizing comm s with
  | nil => exact ⟨comm, rfl⟩
  | cons word words ih =>
    rw [spaced_cons] at hfit
    simp only [List.length_append, List.length_singleton] at hfit
    have hword := (h.text.strcat word.nul_free (by omega)).1
    have hc := h.strcat word.nul_free hword
    have hsp : (0 : UInt8) ∉ [32] := by decide
    have hspace := (hc.text.strcat hsp
      (by simp only [List.length_append, List.length_singleton]; omega)).1
    have hc' := hc.strcat hsp hspace
    obtain ⟨comm', hrest⟩ :=
      ih hc' (by simp only [List.length_append, List.length_singleton]; omega)
    exact ⟨comm', by rw [appendWords, hword, Option.bind_some, hspace, Option.bind_some, hrest]⟩

/-! ## What the client runs -/

theorem Holding.cstrAt {f : Frame} {s : List UInt8} (h : Holding f s) (tail : List UInt8) :
    NetmtTransfer.cstrAt f tail cmdstr = some s := by
  have hmem : (0 : UInt8) ∈ f.bytes.drop cmdstr := by
    rw [h.text.split]
    simp
  have hread := h.text.read
  rw [Region.textAt, if_pos hmem] at hread
  rw [NetmtTransfer.cstrAt, if_pos (List.mem_append_left _ hmem),
    CString.ofField_of_mem _ hmem, hread]

/-- No line end is at the end of the field. -/
theorem Holding.not_endsInLine {f : Frame} {s : List UInt8} (h : Holding f s)
    (hfit : s.length + 1 ≤ BUFFER_SIZE) : endsInLine f = false := by
  have hsize : BUFFER_SIZE = 1024 := rfl
  have hcmd : cmdstr = 48 := rfl
  have hlast := h.rest (cmdstr + 1023) (by omega) (by omega)
  simp only [endsInLine, hlast]
  decide

theorem Holding.arrives_iff {f : Frame} {s : List UInt8} (h : Holding f s) :
    Arrives s f ↔ s.length + 1 ≤ BUFFER_SIZE ∧ ¬ asciiBytes "ifconfig cmd" <+: s := by
  constructor
  · intro ha
    refine ⟨ha.fits, fun hpre => ?_⟩
    have hruns := ha.runs []
    rw [clientRun, h.cstrAt] at hruns
    dsimp only at hruns
    have hfits := ha.fits
    rw [if_neg (by omega), h.not_endsInLine ha.fits, if_neg (by decide),
      if_pos (List.isPrefixOf_iff_prefix.mpr hpre)] at hruns
    -- `ifconfig` is shorter than the front that is left out
    cases hruns
    exact absurd hpre.length_le (by decide)
  · rintro ⟨hfits, hpre⟩
    refine ⟨h.text, hfits, fun tail => ?_⟩
    rw [clientRun, h.cstrAt]
    dsimp only
    rw [if_neg (by omega), h.not_endsInLine hfits, if_neg (by decide),
      if_neg fun hp => hpre (List.isPrefixOf_iff_prefix.mp hp)]
    rfl

/-! ## The whole way -/

theorem passOn_ok {target : Target} {words : List CString} {r : Option (Target × Frame)}
    (h : passOn target words = .ok r) :
    ∃ comm, r = some (target, comm) ∧ Holding (setLen comm) (spaced words) := by
  rw [passOn] at h
  cases happ : appendWords words emptyComm with
  | none =>
    rw [happ] at h
    cases h
  | some comm =>
    rw [happ] at h
    cases h
    exact ⟨_, rfl, ((appendWords_some holding_empty happ).put (by simp)).put (by simp)⟩

theorem passOn_fits (target : Target) {words : List CString}
    (h : (spaced words).length + 1 ≤ BUFFER_SIZE) : ∃ r, passOn target words = .ok r := by
  have hsize : BUFFER_SIZE = 1024 := rfl
  have hcmd : cmdstr = 48 := rfl
  have hfit : cmdstr + ([] : List UInt8).length + (spaced words).length < 5168 := by
    rw [List.length_nil]
    omega
  obtain ⟨comm, happ⟩ := appendWords_fits holding_empty hfit
  exact ⟨_, by rw [passOn, happ]⟩

/-- The branch of `group` sends nothing. -/
def SendsText (argv : List CString) : Prop := (argv.head?).map execBranch ≠ some .group

theorem execBranch_cases (client : CString) :
    execBranch client = .all ∨ execBranch client = .group ∨ execBranch client = .single := by
  rw [execBranch]
  split
  · exact Or.inl rfl
  · split
    · exact Or.inr (Or.inl rfl)
    · exact Or.inr (Or.inr rfl)

/-- What the server sends holds the words, each with a space behind it. -/
theorem execShellRemote_sent {client : CString} {rest : List CString} {target : Target}
    {comm : Frame} (h : execShellRemote (client :: rest) = .ok (some (target, comm))) :
    SendsText (client :: rest) ∧
    Holding (setLen comm) (spaced (commandWords (client :: rest))) := by
  simp only [execShellRemote] at h
  rcases execBranch_cases client with hb | hb | hb
  · rw [hb] at h
    obtain ⟨comm', heq, hh⟩ := passOn_ok h
    cases heq
    exact ⟨by simp [SendsText, hb], by rwa [commandWords, if_pos hb]⟩
  · rw [hb] at h
    cases h
  · rw [hb] at h
    cases rest with
    | nil => cases h
    | cons k words =>
      obtain ⟨comm', heq, hh⟩ := passOn_ok h
      cases heq
      exact ⟨by simp [SendsText, hb], by rwa [commandWords, if_neg (by rw [hb]; decide)]⟩

/-- When it sends. -/
theorem execShellRemote_sends {client : CString} {rest : List CString}
    (hs : SendsText (client :: rest)) {r : Option (Target × Frame)}
    (h : execShellRemote (client :: rest) = .ok r) :
    ∃ target comm, r = some (target, comm) := by
  simp only [execShellRemote] at h
  rcases execBranch_cases client with hb | hb | hb
  · rw [hb] at h
    obtain ⟨comm, heq, -⟩ := passOn_ok h
    exact ⟨_, comm, heq⟩
  · exact absurd (by simp [hb]) hs
  · rw [hb] at h
    cases rest with
    | nil => cases h
    | cons k words =>
      obtain ⟨comm, heq, -⟩ := passOn_ok h
      exact ⟨_, comm, heq⟩

/-- The command does not fault before it has read what it needs. -/
theorem execShellRemote_supplied {client : CString} {rest : List CString}
    {r : Option (Target × Frame)} (h : execShellRemote (client :: rest) = .ok r) :
    Supplied (execReads (client :: rest)) (client :: rest) := by
  rw [execReads_supplied]
  by_contra hno
  obtain ⟨hrest, hsingle⟩ := not_or.mp hno
  simp only [execShellRemote, Classical.not_not.mp hrest, Classical.not_not.mp hsingle] at h
  cases h

theorem execShellRemote_fits {client : CString} {rest : List CString}
    (hsupplied : Supplied (execReads (client :: rest)) (client :: rest))
    (hfits : SendsText (client :: rest) →
      (spaced (commandWords (client :: rest))).length + 1 ≤ BUFFER_SIZE) :
    ∃ r, execShellRemote (client :: rest) = .ok r := by
  rw [execReads_supplied] at hsupplied
  simp only [execShellRemote]
  rcases execBranch_cases client with hb | hb | hb
  · have hlen := hfits (by simp [SendsText, hb])
    rw [commandWords, if_pos hb] at hlen
    rw [hb]
    exact passOn_fits .total hlen
  · rw [hb]
    exact ⟨none, rfl⟩
  · have hlen := hfits (by simp [SendsText, hb])
    rw [commandWords, if_neg (by rw [hb]; decide)] at hlen
    rw [hb]
    cases rest with
    | nil => exact absurd hb (hsupplied.resolve_left fun hne => hne rfl)
    | cons k words => exact passOn_fits (.fd k.atoi) hlen

/-- The words with their spaces arrive exactly when they are there, fit the field, and do not
start with what the client runs as `ifconfig`. -/
theorem spaced_arrives_iff (client : CString) (rest : List CString) :
    CommandArrives spaced (client :: rest) ↔
      Supplied (execReads (client :: rest)) (client :: rest) ∧ (SendsText (client :: rest) →
        (spaced (commandWords (client :: rest))).length + 1 ≤ BUFFER_SIZE ∧
          ¬ asciiBytes "ifconfig cmd" <+: spaced (commandWords (client :: rest))) := by
  constructor
  · rintro ⟨r, hr, harrives⟩
    refine ⟨execShellRemote_supplied hr, fun hs => ?_⟩
    obtain ⟨target, comm, rfl⟩ := execShellRemote_sends hs hr
    exact (execShellRemote_sent hr).2.arrives_iff.mp (harrives target comm rfl)
  · rintro ⟨hsupplied, hcond⟩
    obtain ⟨r, hr⟩ := execShellRemote_fits hsupplied fun hs => (hcond hs).1
    refine ⟨r, hr, ?_⟩
    rintro target comm rfl
    obtain ⟨hs, hh⟩ := execShellRemote_sent hr
    exact hh.arrives_iff.mpr (hcond hs)

/-- One space more than words with a space between them have. -/
theorem length_spaced {words : List CString} (h : words ≠ []) :
    (spaced words).length = (joined words).length + 1 := by
  induction words with
  | nil => exact absurd rfl h
  | cons word words ih =>
    rw [spaced_cons]
    cases words with
    | nil => simp [spaced, joined]
    | cons next words =>
      have hnext := ih (List.cons_ne_nil _ _)
      have hjoined : joined (word :: next :: words) = word.bytes ++ [32] ++
          joined (next :: words) := by
        rw [joined, List.map_cons, List.map_cons, List.intercalate_cons_cons]
        rfl
      simp only [hjoined, List.length_append, hnext]
      omega

/-- Words with spaces only between them arrive when there are none. -/
theorem joined_arrives_iff (client : CString) (rest : List CString) :
    CommandArrives joined (client :: rest) ↔
      Supplied (execReads (client :: rest)) (client :: rest) ∧
        (SendsText (client :: rest) → commandWords (client :: rest) = []) := by
  constructor
  · rintro ⟨r, hr, harrives⟩
    refine ⟨execShellRemote_supplied hr, fun hs => ?_⟩
    obtain ⟨target, comm, rfl⟩ := execShellRemote_sends hs hr
    have heq := (harrives target comm rfl).held.unique (execShellRemote_sent hr).2.text
    by_contra hne
    have hlen := length_spaced hne
    rw [← heq] at hlen
    omega
  · rintro ⟨hsupplied, hempty⟩
    have hspaced := (spaced_arrives_iff client rest).mpr ⟨hsupplied, fun hs => by
      rw [hempty hs]
      exact ⟨by decide, by decide⟩⟩
    obtain ⟨r, hr, harrives⟩ := hspaced
    refine ⟨r, hr, ?_⟩
    rintro target comm rfl
    have hnone := hempty (execShellRemote_sent hr).1
    have hlast := harrives target comm rfl
    rw [hnone] at hlast ⊢
    exact hlast

/-- The command of an accepted line, taken as its words with a space behind each, arrives exactly
when its words were supplied and, unless the mode is `group`, they fit `cmdstr` with the NUL and do
not start with `ifconfig cmd`. With spaces only between its words it arrives exactly when
it has none. -/
theorem command_arrives_iff (m : Matchers) (cmdvec : List Element) (line : CString)
    (vline argv : List CString) (h : Accepted m cmdvec line vline execShellRemoteCmd argv) :
    (CommandArrives spaced argv ↔ ExecSupplied vline ∧ (SendsText argv →
      (spaced (commandWords argv)).length + 1 ≤ BUFFER_SIZE ∧
        ¬ asciiBytes "ifconfig cmd" <+: spaced (commandWords argv))) ∧
    (CommandArrives joined argv ↔ ExecSupplied vline ∧
      (SendsText argv → commandWords argv = [])) := by
  have hline := execLine h
  rw [← exec_supplied hline]
  have hpos : 0 < argv.length := by
    have hlen := hline.pos
    rw [hline.args, List.length_drop]
    omega
  obtain ⟨client, rest, rfl⟩ := List.exists_cons_of_length_pos hpos
  exact ⟨spaced_arrives_iff client rest, joined_arrives_iff client rest⟩

def lsWord : CString := ⟨asciiBytes "ls", by decide⟩

def longListWord : CString := ⟨asciiBytes "-l", by decide⟩

def execList : List CString :=
  [execWord, shellWord, remoteWord, Mode.all.typed, lsWord, longListWord]

theorem accepted_execList : Accepted noMatchers viewNode (sentence execList) execList
    execShellRemoteCmd [Mode.all.typed, lsWord, longListWord] := by
  refine accepted_sentence ?_ (by decide) rfl
  intro w hw
  simp only [List.mem_cons, List.not_mem_nil, or_false] at hw
  rcases hw with rfl | rfl | rfl | rfl | rfl | rfl
  · decide
  · decide
  · decide
  · decide
  · decide
  · decide

/-- `exec shell remote all ls -l` arrives as `ls -l ` with a space behind it. -/
theorem list_arrives : CommandArrives spaced [Mode.all.typed, lsWord, longListWord] ∧
    ¬ CommandArrives joined [Mode.all.typed, lsWord, longListWord] := by
  have h := command_arrives_iff noMatchers viewNode _ _ _ accepted_execList
  refine ⟨h.1.mpr ⟨Or.inl (by decide), fun _ => ⟨by decide, by decide⟩⟩, fun harrives => ?_⟩
  have hnone := (h.2.mp harrives).2 fun heq => absurd (Option.some.inj heq) (by decide)
  cases hnone

/-- A word of 1024 letters. -/
def longWord : CString where
  bytes := List.replicate 1024 97
  nul_free := fun h => absurd (List.eq_of_mem_replicate h) (by decide)

def execLong : List CString := [execWord, shellWord, remoteWord, Mode.all.typed, longWord]

theorem longWord_isWord : IsWord longWord where
  nonempty := by
    rw [longWord, Ne, List.replicate_eq_nil_iff]
    decide
  no_space b hb := by
    rw [List.eq_of_mem_replicate hb]
    decide

theorem accepted_execLong : Accepted noMatchers viewNode (sentence execLong) execLong
    execShellRemoteCmd [Mode.all.typed, longWord] := by
  refine accepted_sentence ?_ (by decide) rfl
  intro w hw
  simp only [List.mem_cons, List.not_mem_nil, or_false] at hw
  rcases hw with rfl | rfl | rfl | rfl | rfl
  · decide
  · decide
  · decide
  · decide
  · exact longWord_isWord

/-- `exec shell remote all` with a word of 1024 letters runs over the end of `cmdstr`, and arrives
neither way. -/
theorem long_word_overflows :
    Accepted noMatchers viewNode (sentence execLong) execLong execShellRemoteCmd
      [Mode.all.typed, longWord] ∧
    ¬ CommandArrives spaced [Mode.all.typed, longWord] ∧
    ¬ CommandArrives joined [Mode.all.typed, longWord] := by
  have hwords : commandWords [Mode.all.typed, longWord] = [longWord] := rfl
  have hsends : SendsText [Mode.all.typed, longWord] := by
    intro heq
    exact absurd (Option.some.inj heq) (by decide)
  refine ⟨accepted_execLong, fun h => ?_, fun h => ?_⟩
  · have hlen := (((spaced_arrives_iff _ _).mp h).2 hsends).1
    have hjoined : joined [longWord] = longWord.bytes := List.intercalate_singleton
    rw [hwords, length_spaced (List.cons_ne_nil _ _), hjoined, longWord,
      List.length_replicate] at hlen
    exact absurd hlen (by decide)
  · have hnil := ((joined_arrives_iff _ _).mp h).2 hsends
    rw [hwords] at hnil
    cases hnil

end NetmtExecCommand
