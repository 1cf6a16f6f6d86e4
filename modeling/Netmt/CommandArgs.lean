import Netmt.Cli
import Netmt.ServerCommand

/-!
# The arguments of `send` and `exec shell remote`

The count of mandatory words stops at the first optional one, so `send` is called with
anything from no argument to four of them, and the mode word comes as it was typed. The
handlers look at the count only to see whether it is zero.
-/
namespace NetmtCommandArgs

open NetmtClient (asciiBytes)
open NetmtTcpRecv NetmtTransfer NetmtServer NetmtServerCommand NetmtCli

/-! ## The two commands -/

/-- `send_netmt_cmd`. -/
def sendNetmtCmd : Element where
  string := asciiBytes "send [FILENAME] to remote (all|group|type|single) [CLIENT] [FILENAME]"
  strvec := [[asciiBytes "send"], [asciiBytes "[FILENAME]"], [asciiBytes "to"],
    [asciiBytes "remote"],
    [allWord, groupWord, typeWord, singleWord], [asciiBytes "[CLIENT]"], [asciiBytes "[FILENAME]"]]
  cmdsize := 1

/-- `exec_shell_remote_cmd`. -/
def execShellRemoteCmd : Element where
  string := asciiBytes "exec shell remote (all|group|single) [WORD] [WORD] [WORD] [WORD] [WORD]"
  strvec := [[asciiBytes "exec"], [asciiBytes "shell"], [asciiBytes "remote"],
    [allWord, groupWord, singleWord], [asciiBytes "[WORD]"], [asciiBytes "[WORD]"],
    [asciiBytes "[WORD]"],
    [asciiBytes "[WORD]"], [asciiBytes "[WORD]"]]
  cmdsize := 4

/-- The words that the modes of `send` and `exec` are spelled with. -/
inductive Mode where
  | all | group | type | single
  deriving DecidableEq

def Mode.word : Mode → List UInt8
  | all => allWord
  | group => groupWord
  | type => typeWord
  | single => singleWord

theorem Mode.word_nul_free (k : Mode) : (0 : UInt8) ∉ k.word := by
  cases k <;> decide

/-- The word typed in full. -/
def Mode.typed (k : Mode) : CString := ⟨k.word, k.word_nul_free⟩

/-- `word` is a front of the word for `k`, or all of it. -/
def Denotes (word : CString) (k : Mode) : Prop := word.bytes ≠ [] ∧ word.bytes <+: k.word

/-- The modes begin with different letters. -/
theorem denotes_unique {word : CString} {k k' : Mode} (h : Denotes word k) (h' : Denotes word k') :
    k = k' := by
  obtain ⟨c, cs, hcs⟩ := List.exists_cons_of_ne_nil h.1
  have hhead : ∀ k : Mode, Denotes word k → k.word.head? = some c := by
    rintro k ⟨-, t, ht⟩
    rw [← ht, hcs]
    rfl
  have heq := (hhead k h).trans (hhead k' h').symm
  cases k <;> cases k' <;> first | rfl | exact absurd heq (by decide)

/-- A word typed in full denotes its mode. -/
theorem Denotes.eq_of_full {word : CString} {k k' : Mode} (h : Denotes word k)
    (heq : word.bytes = k'.word) :
    k = k' :=
  denotes_unique h ⟨h.1, heq ▸ List.prefix_refl word.bytes⟩

/-! ## Accepted lines -/

theorem argsOf_send {vline : List CString} (h : vline.length ≤ 7) :
    argsOf sendNetmtCmd.strvec vline = (vline.drop 1).take 1 ++ vline.drop 4 := by
  match vline, h with
  | [], _ | [_], _ | [_, _], _ | [_, _, _], _ | [_, _, _, _], _ | [_, _, _, _, _], _
  | [_, _, _, _, _, _], _ | [_, _, _, _, _, _, _], _ => rfl
  | _ :: _ :: _ :: _ :: _ :: _ :: _ :: _ :: _, h => simp only [List.length_cons] at h; omega

theorem argsOf_exec {vline : List CString} (h : vline.length ≤ 9) :
    argsOf execShellRemoteCmd.strvec vline = vline.drop 3 := by
  match vline, h with
  | [], _ | [_], _ | [_, _], _ | [_, _, _], _ | [_, _, _, _], _ | [_, _, _, _, _], _
  | [_, _, _, _, _, _], _ | [_, _, _, _, _, _, _], _ | [_, _, _, _, _, _, _, _], _
  | [_, _, _, _, _, _, _, _, _], _ => rfl
  | _ :: _ :: _ :: _ :: _ :: _ :: _ :: _ :: _ :: _ :: _, h =>
    simp only [List.length_cons] at h; omega

variable {m : Matchers} {cmdvec : List Element} {line : CString} {vline argv : List CString}

/-- `send` takes one to seven words; those behind `send`, `to` and `remote` are arguments, and
the fifth denotes a mode. -/
structure SendLine (vline argv : List CString) : Prop where
  pos : 1 ≤ vline.length
  max : vline.length ≤ 7
  args : argv = (vline.drop 1).take 1 ++ vline.drop 4
  mode : ∀ word, vline[4]? = some word → ∃ k, Denotes word k

/-- `exec shell remote` takes four to nine words; all behind it are arguments, and the first of
these denotes a mode other than `type`. -/
structure ExecLine (vline argv : List CString) : Prop where
  pos : 4 ≤ vline.length
  max : vline.length ≤ 9
  args : argv = vline.drop 3
  mode : ∀ word, vline[3]? = some word → ∃ k, Denotes word k ∧ k ≠ .type

theorem sendLine (h : Accepted m cmdvec line vline sendNetmtCmd argv) : SendLine vline argv := by
  obtain ⟨hfits, hmax, hargs⟩ := executed_fits (by decide) h.executed
  refine ⟨hfits.enough, hmax, hargs.trans (argsOf_send hmax), fun word hword => ?_⟩
  have hne := (cmdMakeStrvec_isWord h.words word (List.mem_of_getElem? hword)).nonempty
  obtain ⟨str, hstr, hpre⟩ :=
    matchesAt_plain (e := sendNetmtCmd) rfl (by decide) (hfits.matched 4 word hword)
  simp only [List.mem_cons, List.not_mem_nil, or_false] at hstr
  rcases hstr with rfl | rfl | rfl | rfl
  · exact ⟨.all, hne, hpre⟩
  · exact ⟨.group, hne, hpre⟩
  · exact ⟨.type, hne, hpre⟩
  · exact ⟨.single, hne, hpre⟩

theorem execLine (h : Accepted m cmdvec line vline execShellRemoteCmd argv) :
    ExecLine vline argv := by
  obtain ⟨hfits, hmax, hargs⟩ := executed_fits (by decide) h.executed
  refine ⟨hfits.enough, hmax, hargs.trans (argsOf_exec hmax), fun word hword => ?_⟩
  have hne := (cmdMakeStrvec_isWord h.words word (List.mem_of_getElem? hword)).nonempty
  obtain ⟨str, hstr, hpre⟩ :=
    matchesAt_plain (e := execShellRemoteCmd) rfl (by decide) (hfits.matched 3 word hword)
  simp only [List.mem_cons, List.not_mem_nil, or_false] at hstr
  rcases hstr with rfl | rfl | rfl
  · exact ⟨.all, ⟨hne, hpre⟩, by decide⟩
  · exact ⟨.group, ⟨hne, hpre⟩, by decide⟩
  · exact ⟨.single, ⟨hne, hpre⟩, by decide⟩

/-! ## The branches of the handlers -/

/-- The chain of `strncmp(argv[1], ...)` in `send_netmt`, which has no last `else`. -/
def sendBranch (mode : CString) : Option Mode :=
  if isMode allWord mode then some .all
  else if isMode groupWord mode then some .group
  else if isMode typeWord mode then some .type
  else if isMode singleWord mode then some .single
  else none

/-- That of `exec_shell_remote`, which has one. -/
def execBranch (client : CString) : Mode :=
  if isMode allWord client then .all
  else if isMode groupWord client then .group
  else .single

/-- The entries that a branch of `send_netmt` writes to. -/
def Mode.select (arg : CString) : Mode → IoT → Bool
  | all => selectAll
  | group => selectGroup arg
  | type => selectType arg
  | single => selectSingle arg

theorem selectMode_branch (mode arg : CString) :
    selectMode mode arg = (sendBranch mode).map (Mode.select arg) := by
  rw [selectMode, sendBranch]
  split
  · rfl
  · split
    · rfl
    · split
      · rfl
      · split <;> rfl

/-- With its arguments there and the file opened, the branch decides whether there are passes. -/
theorem sendBegin_branch (cwd : CString) (h : Host) {localPath mode remotePath : CString}
    {rest : List CString} {files : FileStore} {id : StreamId}
    (hremote : remoteArg mode (localPath :: mode :: rest) = some remotePath)
    (ho : h.server.files.openRead (absolutePath cwd localPath).bytes = some (files, id)) :
    sendBegin cwd (localPath :: mode :: rest) true h =
      match sendBranch mode with
      | none => .finished (opened h files id) .CMD_SUCCESS
      | some k => .passes (opened h files id)
          ⟨k.select ((rest[0]?).getD localPath), sendRequest cwd localPath remotePath⟩ := by
  simp only [sendBegin, List.head?_cons, Option.bind_some, hremote, Option.map_some, ho, if_true,
    selectMode_branch, opened]
  cases sendBranch mode <;> rfl

/-- On a front of a mode word the comparison is true of the whole word only. -/
theorem isMode_iff {word : CString} {k k' : Mode} (h : Denotes word k') :
    isMode k.word word = true ↔ word.bytes = k.word := by
  rw [isMode, CString.sameFront, decide_eq_true_iff, CString.ofField_nul_free word.nul_free,
    CString.ofField_nul_free k.word_nul_free, List.take_length]
  constructor
  · intro htake
    have hpre : k.word <+: word.bytes := htake ▸ List.take_prefix _ _
    have hne : k.word ≠ [] := by
      cases k <;> decide
    have hfull : Denotes k.typed k := ⟨hne, List.prefix_refl _⟩
    obtain rfl := denotes_unique hfull ⟨hne, hpre.trans h.2⟩
    exact List.IsPrefix.eq_of_length_le h.2 hpre.length_le
  · intro heq
    rw [heq, List.take_length]

theorem sendBranch_some {word : CString} {k : Mode} (h : sendBranch word = some k) :
    isMode k.word word = true := by
  rw [sendBranch] at h
  split at h
  · cases h
    assumption
  · split at h
    · cases h
      assumption
    · split at h
      · cases h
        assumption
      · split at h
        · cases h
          assumption
        · cases h

/-- `send_netmt` runs the mode that is meant exactly when its word is typed in full. -/
theorem sendBranch_iff {word : CString} {k : Mode} (h : Denotes word k) :
    sendBranch word = some k ↔ word.bytes = k.word := by
  constructor
  · intro hbranch
    exact (isMode_iff h).mp (sendBranch_some hbranch)
  · intro heq
    obtain rfl : word = k.typed := eq_of_bytes heq
    cases k <;> decide

/-- `exec_shell_remote` does so for every abbreviation of `single`, too. -/
theorem execBranch_iff {word : CString} {k : Mode} (h : Denotes word k) (hk : k ≠ .type) :
    execBranch word = k ↔ word.bytes = k.word ∨ k = .single := by
  rw [execBranch]
  split
  · next hall =>
    have heq := (isMode_iff (k := .all) h).mp hall
    obtain rfl := h.eq_of_full heq
    exact iff_of_true rfl (Or.inl heq)
  · next hall =>
    split
    · next hgroup =>
      have heq := (isMode_iff (k := .group) h).mp hgroup
      obtain rfl := h.eq_of_full heq
      exact iff_of_true rfl (Or.inl heq)
    · next hgroup =>
      have hno : k ≠ .single → word.bytes ≠ k.word := by
        intro hsingle heq
        cases k with
        | all => exact hall ((isMode_iff (k := .all) h).mpr heq)
        | group => exact hgroup ((isMode_iff (k := .group) h).mpr heq)
        | type => exact hk rfl
        | single => exact hsingle rfl
      constructor
      · exact fun heq => Or.inr heq.symm
      · rintro (heq | rfl)
        · exact (Classical.not_not.mp fun hsingle => hno (Ne.symm hsingle) heq)
        · rfl

/-! ## What the handlers read -/

/-- The arguments read in the passes of `send_netmt`. -/
def passReads (mode : CString) : List Nat :=
  match sendBranch mode with
  | some .all => [1]
  | some .group => [2, 1]
  | some .type => [2, 1]
  | some .single => [2]
  | none => []

/-- The indices of `argv` that `send_netmt` reads, up to the first that was not supplied;
`opened` tells whether the local file opens. -/
def sendReads (argv : List CString) (opened : Bool) : List Nat :=
  match argv with
  | [] => []
  | [_] => [0, 1]
  | _ :: mode :: _ =>
    let remote := if isMode allWord mode then 2 else 3
    [0, 1, remote] ++ if remote < argv.length ∧ opened then passReads mode else []

/-- Those that `exec_shell_remote` reads. -/
def execReads (argv : List CString) : List Nat :=
  match argv with
  | [] => []
  | client :: _ =>
    match execBranch client with
    | .all => 0 :: List.range' 1 (argv.length - 1)
    | .single => 0 :: 1 :: List.range' 2 (argv.length - 2)
    | _ => [0]

/-- Every index that is read is that of an argument. -/
def Supplied (reads : List Nat) (argv : List CString) : Prop := ∀ i ∈ reads, i < argv.length

instance (reads : List Nat) (argv : List CString) : Decidable (Supplied reads argv) :=
  inferInstanceAs (Decidable (∀ i ∈ reads, i < argv.length))

theorem passReads_le (mode : CString) : ∀ i ∈ passReads mode, i ≤ 2 := by
  rw [passReads]
  split <;> decide

theorem sendReads_supplied (localPath mode : CString) (rest : List CString) (opened : Bool) :
    Supplied (sendReads (localPath :: mode :: rest) opened) (localPath :: mode :: rest) ↔
      (if isMode allWord mode then 1 else 2) ≤ rest.length := by
  have hremote : (if isMode allWord mode then 2 else 3) =
      (if isMode allWord mode then 1 else 2) + 1 := by
    split <;> rfl
  have hpos : 1 ≤ if isMode allWord mode then 1 else 2 := by
    split <;> decide
  simp only [sendReads, hremote]
  generalize (if isMode allWord mode then 1 else 2) = n at hpos
  constructor
  · intro h
    have hlast := h (n + 1) (List.mem_append_left _ (by simp))
    simp only [List.length_cons] at hlast
    omega
  · intro h i hi
    rw [List.length_cons, List.length_cons]
    rcases List.mem_append.mp hi with hi | hi
    · simp only [List.mem_cons, List.not_mem_nil, or_false] at hi
      omega
    · by_cases hpass : n + 1 < (localPath :: mode :: rest).length ∧ opened = true
      · rw [if_pos hpass] at hi
        have hle := passReads_le mode i hi
        omega
      · rw [if_neg hpass] at hi
        cases hi

theorem execReads_supplied (client : CString) (rest : List CString) :
    Supplied (execReads (client :: rest)) (client :: rest) ↔ rest ≠ [] ∨
    execBranch client ≠ .single := by
  have hlen : ∀ k, ∀ i ∈ List.range' k ((client :: rest).length - k),
      i < (client :: rest).length := by
    intro k i hi
    have hrange := List.mem_range'_1.mp hi
    omega
  simp only [Supplied, execReads]
  split
  · next hbranch =>
    refine iff_of_true ?_ (Or.inr (by rw [hbranch]; decide))
    intro i hi
    rcases List.mem_cons.mp hi with rfl | hi
    · exact Nat.zero_lt_succ _
    · exact hlen 1 i hi
  · next hbranch =>
    rw [hbranch]
    constructor
    · intro h
      have hfd := h 1 (by simp)
      left
      rintro rfl
      exact absurd hfd (Nat.lt_irrefl 1)
    · intro h i hi
      have hpos := List.length_pos_iff.mpr (h.resolve_right fun hno => hno rfl)
      rcases List.mem_cons.mp hi with rfl | hi
      · exact Nat.zero_lt_succ _
      · rcases List.mem_cons.mp hi with rfl | hi
        · rw [List.length_cons]
          omega
        · exact hlen 2 i hi
  · next hsingle =>
    refine iff_of_true ?_ (Or.inr hsingle)
    intro i hi
    obtain rfl := List.mem_singleton.mp hi
    exact Nat.zero_lt_succ _

/-- `send_netmt` in the model faults in front of its passes exactly when it reads an argument
that is not there. -/
theorem sendBegin_supplied (cwd : CString) (argv : List CString) (fopenOk : Bool) (h : Host) :
    sendBegin cwd argv fopenOk h ≠ .fault .outOfBounds ↔
    Supplied (sendReads argv fopenOk) argv := by
  match argv with
  | [] => exact iff_of_true (fun heq => by cases heq) (fun i hi => by cases hi)
  | [_] =>
    refine iff_of_false (fun hne => hne rfl) (fun hall => ?_)
    exact absurd (hall 1 (by simp [sendReads])) (Nat.lt_irrefl 1)
  | localPath :: mode :: rest =>
    rw [sendReads_supplied]
    have hremote : remoteArg mode (localPath :: mode :: rest) =
        rest[(if isMode allWord mode then 1 else 2) - 1]? := by
      rw [remoteArg]
      split <;> rfl
    have hpos : 1 ≤ if isMode allWord mode then 1 else 2 := by
      split <;> decide
    simp only [sendBegin, List.head?_cons, Option.bind_some, hremote]
    generalize (if isMode allWord mode then 1 else 2) = n at hpos
    by_cases hn : n ≤ rest.length
    · rw [List.getElem?_eq_getElem (by omega), Option.map_some]
      refine iff_of_true (fun heq => ?_) hn
      dsimp only at heq
      split at heq
      · cases heq
      · split at heq <;> cases heq
    · rw [List.getElem?_eq_none (by omega), Option.map_none]
      exact iff_of_false (fun hne => hne rfl) hn

/-! ## Accepted lines and what is read -/

/-- Enough words for what `send_netmt` reads: `send` alone, all seven, or six with `all`. -/
def SendSupplied (vline : List CString) : Prop :=
  vline.length = 1 ∨ vline.length = 7 ∨
    vline.length = 6 ∧ (vline[4]?).map CString.bytes = some allWord

/-- Enough words for what `exec_shell_remote` reads: one behind the mode, or `all` or `group`. -/
def ExecSupplied (vline : List CString) : Prop :=
  5 ≤ vline.length ∨ (vline[3]?).map CString.bytes = some allWord ∨
    (vline[3]?).map CString.bytes = some groupWord

theorem not_supplied_one (localPath : CString) (opened : Bool) :
    ¬ Supplied (sendReads [localPath] opened) [localPath] := by
  intro h
  exact absurd (h 1 (by simp [sendReads])) (Nat.lt_irrefl 1)

theorem send_supplied {vline argv : List CString} (h : SendLine vline argv) (opened : Bool) :
    Supplied (sendReads argv opened) argv ↔ SendSupplied vline := by
  obtain ⟨hpos, hmax, rfl, hmode⟩ := h
  match vline, hpos, hmax with
  | [_], _, _ => exact iff_of_true (fun i hi => by cases hi) (Or.inl rfl)
  | [_, f], _, _ | [_, f, _], _, _ | [_, f, _, _], _, _ =>
    exact iff_of_false (not_supplied_one f opened) (by simp [SendSupplied])
  | [_, f, _, _, mode], _, _ =>
    refine (sendReads_supplied f mode [] opened).trans (iff_of_false ?_ (by simp [SendSupplied]))
    split <;> decide
  | [_, f, _, _, mode, c], _, _ =>
    obtain ⟨k, hk⟩ := hmode mode rfl
    have hall := isMode_iff (k := .all) hk
    refine (sendReads_supplied f mode [c] opened).trans ?_
    simp only [SendSupplied, List.length_cons, List.length_nil]
    by_cases hmode : isMode allWord mode = true
    · rw [if_pos hmode]
      exact iff_of_true (le_refl 1) (Or.inr (Or.inr ⟨trivial, congrArg some (hall.mp hmode)⟩))
    · rw [if_neg hmode]
      refine iff_of_false (by decide) ?_
      rintro (h | h | ⟨-, h⟩)
      · cases h
      · cases h
      · exact hmode (hall.mpr (Option.some.inj h))
  | [_, f, _, _, mode, c, g], _, _ =>
    refine (sendReads_supplied f mode [c, g] opened).trans (iff_of_true ?_ (Or.inr (Or.inl rfl)))
    rw [List.length_cons, List.length_singleton]
    split <;> decide
  | _ :: _ :: _ :: _ :: _ :: _ :: _ :: _ :: _, _, h => simp only [List.length_cons] at h; omega

theorem execBranch_ne_single (client : CString) :
    execBranch client ≠ .single ↔ isMode allWord client = true ∨
    isMode groupWord client = true := by
  rw [execBranch]
  split
  · next hall => exact iff_of_true (by decide) (Or.inl hall)
  · next hall =>
    split
    · next hgroup => exact iff_of_true (by decide) (Or.inr hgroup)
    · next hgroup => exact iff_of_false (fun hne => hne rfl) (fun h => h.elim hall hgroup)

theorem exec_supplied {vline argv : List CString} (h : ExecLine vline argv) :
    Supplied (execReads argv) argv ↔ ExecSupplied vline := by
  obtain ⟨hpos, -, rfl, hmode⟩ := h
  match vline, hpos with
  | _ :: _ :: _ :: client :: rest, _ =>
    obtain ⟨k, hk, hne⟩ := hmode client rfl
    have hmodes := or_congr (isMode_iff (k := .all) hk) (isMode_iff (k := .group) hk)
    refine (execReads_supplied client rest).trans (or_congr ?_ ?_)
    · rw [← List.length_pos_iff]
      simp only [List.length_cons]
      omega
    · refine (execBranch_ne_single client).trans (hmodes.trans (or_congr ?_ ?_))
      · exact ⟨fun heq => congrArg some heq, fun heq => Option.some.inj heq⟩
      · exact ⟨fun heq => congrArg some heq, fun heq => Option.some.inj heq⟩

/-! ## The node of the server's commands -/

def pingNetmtCmd : Element := ⟨asciiBytes "ping IP", [[asciiBytes "ping"], [asciiBytes "IP"]], 2⟩

def showStatusNetmtCmd : Element where
  string := asciiBytes "show netmt client"
  strvec := [[asciiBytes "show"], [asciiBytes "netmt"], [asciiBytes "client"]]
  cmdsize := 3

def showNetmtHelpCmd : Element :=
  ⟨asciiBytes "netmt help", [[asciiBytes "netmt"], [asciiBytes "help"]], 2⟩

def showNetmtVersionCmd : Element where
  string := asciiBytes "show netmt version"
  strvec := [[asciiBytes "show"], [asciiBytes "netmt"], [asciiBytes "version"]]
  cmdsize := 3

def getNetmtCmd : Element where
  string := asciiBytes "get FILENAME from remote CLIENT FILENAME"
  strvec := [[asciiBytes "get"], [asciiBytes "FILENAME"], [asciiBytes "from"],
    [asciiBytes "remote"],
    [asciiBytes "CLIENT"], [asciiBytes "FILENAME"]]
  cmdsize := 6

def registerNetmtCmd : Element := ⟨asciiBytes "register", [[asciiBytes "register"]], 1⟩

def showNetmtClientAddrCmd : Element where
  string := asciiBytes "show client addr"
  strvec := [[asciiBytes "show"], [asciiBytes "client"], [asciiBytes "addr"]]
  cmdsize := 3

/-- The commands that `netmt_servercmd_init` installs at `VIEW_NODE`. -/
def viewNode : List Element :=
  [pingNetmtCmd, execShellRemoteCmd, showStatusNetmtCmd, showNetmtHelpCmd, showNetmtVersionCmd,
    sendNetmtCmd, getNetmtCmd, registerNetmtCmd, showNetmtClientAddrCmd]

/-- Each is what its grammar string is read as. -/
theorem viewNode_installed : ∀ e ∈ viewNode, installElement e.string = some e := by
  decide +kernel

/-- None of them has a number or an address. -/
def noMatchers : Matchers where
  cmd_range_match _ _ := false
  cmd_ipv4_match _ := .no_match
  cmd_ipv4_prefix_match _ := .no_match
  cmd_ipv6_match _ := .no_match
  cmd_ipv6_prefix_match _ := .no_match

def sendWord : CString := ⟨asciiBytes "send", by decide⟩
def toWord : CString := ⟨asciiBytes "to", by decide⟩
def remoteWord : CString := ⟨asciiBytes "remote", by decide⟩
def execWord : CString := ⟨asciiBytes "exec", by decide⟩
def shellWord : CString := ⟨asciiBytes "shell", by decide⟩

/-- A file, a descriptor or a command. -/
def someWord : CString := ⟨asciiBytes "7", by decide⟩

/-- `al`, for `all`. -/
def alWord : CString := ⟨asciiBytes "al", by decide⟩

theorem accepted_sentence {word : CString} {words argv : List CString} {e : Element}
    (hwords : ∀ w ∈ word :: words, IsWord w)
    (hcomment : word.bytes.head? ≠ some 33 ∧ word.bytes.head? ≠ some 35)
    (hrun : cmdExecuteCommand noMatchers viewNode (word :: words) = .ok (e, argv)) :
    Accepted noMatchers viewNode (sentence (word :: words)) (word :: words) e argv :=
  ⟨cmdMakeStrvec_sentence hwords hcomment, hrun⟩

/-- `send 7 to remote <mode> 7 7`. -/
def sendLineWith (mode : CString) : List CString :=
  [sendWord, someWord, toWord, remoteWord, mode, someWord, someWord]

/-- `exec shell remote single 7`. -/
def execSingle : List CString :=
  [execWord, shellWord, remoteWord, Mode.single.typed, someWord]

theorem accepted_sendLine {mode : CString} (h : mode = Mode.single.typed ∨ mode = alWord) :
    Accepted noMatchers viewNode (sentence (sendLineWith mode)) (sendLineWith mode) sendNetmtCmd
      [someWord, mode, someWord, someWord] := by
  rcases h with rfl | rfl
  · exact accepted_sentence (by decide) (by decide) rfl
  · exact accepted_sentence (by decide) (by decide) rfl

theorem accepted_sendFile : Accepted noMatchers viewNode (sentence [sendWord, someWord])
    [sendWord, someWord] sendNetmtCmd [someWord] :=
  accepted_sentence (by decide) (by decide) rfl

theorem accepted_execSingle : Accepted noMatchers viewNode (sentence execSingle) execSingle
    execShellRemoteCmd [Mode.single.typed, someWord] :=
  accepted_sentence (by decide) (by decide) rfl

/-! ## Arguments that were not supplied -/

/-- `send_netmt` reads only arguments of the line exactly when it has one word, all seven, or six
with `all`; `exec_shell_remote` does so exactly when there is a word behind the mode, or the mode
is `all` or `group`. -/
theorem args_supplied_iff (m : Matchers) (cmdvec : List Element) (line : CString)
    (vline argv : List CString) :
    (Accepted m cmdvec line vline sendNetmtCmd argv →
      ∀ opened, Supplied (sendReads argv opened) argv ↔ SendSupplied vline) ∧
    (Accepted m cmdvec line vline execShellRemoteCmd argv →
      (Supplied (execReads argv) argv ↔ ExecSupplied vline)) :=
  ⟨fun h => send_supplied (sendLine h), fun h => exec_supplied (execLine h)⟩

theorem single_args_supplied :
    Supplied (sendReads [someWord, Mode.single.typed, someWord, someWord] true)
      [someWord, Mode.single.typed, someWord, someWord] ∧
    Supplied (execReads [Mode.single.typed, someWord]) [Mode.single.typed, someWord] :=
  ⟨((args_supplied_iff noMatchers viewNode _ _ _).1 (accepted_sendLine (Or.inl rfl)) true).mpr
      (Or.inr (Or.inl rfl)),
    ((args_supplied_iff noMatchers viewNode _ _ _).2 accepted_execSingle).mpr (Or.inl (by decide))⟩

/-- `send 7` is accepted, and the mode that is read was not supplied. -/
theorem send_reads_more : ¬ ∀ (m : Matchers) (cmdvec : List Element) (line : CString)
    (vline argv : List CString),
    (Accepted m cmdvec line vline sendNetmtCmd argv → ∀ opened,
      Supplied (sendReads argv opened) argv) ∧
    (Accepted m cmdvec line vline execShellRemoteCmd argv → Supplied (execReads argv) argv) := by
  intro h
  exact not_supplied_one someWord true ((h noMatchers viewNode _ _ _).1 accepted_sendFile true)

/-! ## Modes that are not run -/

/-- With the local file open, `send_netmt` goes on to the passes of the mode the fifth word
denotes. -/
def SendRuns (cwd : CString) (h : Host) (files : FileStore) (id : StreamId)
    (vline argv : List CString) :
    Prop :=
  ∀ word k, vline[4]? = some word → Denotes word k → ∃ localPath remotePath,
    sendBegin cwd argv true h = .passes (opened h files id)
      ⟨k.select ((argv[2]?).getD localPath), sendRequest cwd localPath remotePath⟩

/-- The local file of the line can be read. -/
def SendOpens (cwd : CString) (h : Host) (files : FileStore) (id : StreamId)
    (argv : List CString) : Prop :=
  ∀ localPath ∈ argv.head?,
    h.server.files.openRead (absolutePath cwd localPath).bytes = some (files, id)

/-- That of `exec_shell_remote` is that of the mode the fourth word denotes. -/
def ExecRuns (vline argv : List CString) : Prop :=
  ∀ word k, vline[3]? = some word → Denotes word k → (argv[0]?).map execBranch = some k

theorem SendLine.word {vline argv : List CString} (h : SendLine vline argv) {word : CString}
    (hword : vline[4]? = some word) : argv[1]? = some word := by
  rw [h.args]
  match vline, hword with
  | _ :: f :: _ :: _ :: mode :: rest, hword => exact hword

theorem ExecLine.word {vline argv : List CString} (h : ExecLine vline argv) :
    argv[0]? = vline[3]? := by
  rw [h.args, List.getElem?_drop]

/-- In full or short for `single`, told by the word alone. -/
theorem exec_words {word : CString} {k : Mode} (h : Denotes word k) (hk : k ≠ .type) :
    word.bytes = k.word ∨ k = .single ↔
      word.bytes = allWord ∨ word.bytes = groupWord ∨ word.bytes <+: singleWord := by
  constructor
  · rintro (heq | rfl)
    · cases k with
      | all => exact Or.inl heq
      | group => exact Or.inr (Or.inl heq)
      | type => exact absurd rfl hk
      | single => exact Or.inr (Or.inr h.2)
    · exact Or.inr (Or.inr h.2)
  · rintro (heq | heq | hpre)
    · have hall : k = .all := h.eq_of_full heq
      exact Or.inl (hall ▸ heq)
    · have hgroup : k = .group := h.eq_of_full heq
      exact Or.inl (hgroup ▸ heq)
    · exact Or.inr (denotes_unique h ⟨h.1, hpre⟩)

/-- What `send_netmt` goes on to tells its mode, and that it found its arguments. -/
theorem sendRuns_words {cwd : CString} {h : Host} {files : FileStore} {id : StreamId}
    {vline argv : List CString} (hline : SendLine vline argv)
    (hruns : SendRuns cwd h files id vline argv) {word : CString} (hword : vline[4]? = some word) :
    (∃ k : Mode, word.bytes = k.word) ∧ SendSupplied vline := by
  obtain ⟨k, hk⟩ := hline.mode word hword
  obtain ⟨localPath, remotePath, hbegin⟩ := hruns word k hword hk
  constructor
  · obtain ⟨_, _, _, _, hwords, -⟩ := sendBegin_passes hbegin
    obtain ⟨mode, rest, hargv, -, hselect⟩ := hwords.words
    have hmode : argv[1]? = some word := hline.word hword
    rw [hargv] at hmode
    cases hmode
    rw [selectMode_branch] at hselect
    obtain ⟨k', hk', -⟩ := Option.map_eq_some_iff.mp hselect
    exact ⟨k', (isMode_iff hk).mp (sendBranch_some hk')⟩
  · refine (send_supplied hline true).mp ((sendBegin_supplied cwd argv true h).mp ?_)
    rw [hbegin]
    exact fun heq => by cases heq

theorem sendRuns_full {cwd : CString} {h : Host} {files : FileStore} {id : StreamId}
    {vline argv : List CString} (hline : SendLine vline argv)
    (hopens : SendOpens cwd h files id argv)
    (hfull : ∀ word, vline[4]? = some word → (∃ k : Mode, word.bytes = k.word) ∧
      SendSupplied vline) :
    SendRuns cwd h files id vline argv := by
  intro word k hword hk
  obtain ⟨⟨k', heq⟩, hsupplied⟩ := hfull word hword
  obtain rfl := hk.eq_of_full heq
  have hmode : argv[1]? = some word := hline.word hword
  have hbegin := (sendBegin_supplied cwd argv true h).mpr ((send_supplied hline true).mpr hsupplied)
  match argv, hmode, hopens, hbegin with
  | localPath :: mode :: rest, hmode, hopens, hbegin =>
    cases hmode
    have hopen := hopens localPath rfl
    cases hremote : remoteArg word (localPath :: word :: rest) with
    | none =>
      refine absurd ?_ hbegin
      rw [sendBegin, List.head?_cons, Option.bind_some, hremote]
      rfl
    | some remotePath =>
      refine ⟨localPath, remotePath, ?_⟩
      rw [sendBegin_branch cwd h hremote hopen, (sendBranch_iff hk).mpr heq]
      rfl

/-- With the local file open, `send_netmt` goes on to the passes of the mode that is meant
exactly when its word is that of a mode in full and no argument is missing; `exec_shell_remote`
takes the branch of the mode exactly when the word is `all`, `group` or an abbreviation of
`single`. -/
theorem modes_run_iff (m : Matchers) (cmdvec : List Element) (line : CString)
    (vline argv : List CString) :
    (Accepted m cmdvec line vline sendNetmtCmd argv →
      ∀ cwd h files id, SendOpens cwd h files id argv →
        (SendRuns cwd h files id vline argv ↔ ∀ word, vline[4]? = some word →
          (∃ k : Mode, word.bytes = k.word) ∧ SendSupplied vline)) ∧
    (Accepted m cmdvec line vline execShellRemoteCmd argv →
      (ExecRuns vline argv ↔ ∀ word, vline[3]? = some word →
        word.bytes = allWord ∨ word.bytes = groupWord ∨ word.bytes <+: singleWord)) := by
  constructor
  · intro h cwd host files id hopens
    have hline := sendLine h
    exact ⟨fun hruns word hword => sendRuns_words hline hruns hword, sendRuns_full hline hopens⟩
  · intro h
    have hline := execLine h
    constructor
    · intro hruns word hword
      obtain ⟨k, hk, hne⟩ := hline.mode word hword
      have hbranch := hruns word k hword hk
      rw [hline.word, hword, Option.map_some] at hbranch
      exact (exec_words hk hne).mp ((execBranch_iff hk hne).mp (Option.some.inj hbranch))
    · intro hfull word k hword hk
      obtain ⟨k', hk', hne⟩ := hline.mode word hword
      obtain rfl := denotes_unique hk hk'
      rw [hline.word, hword, Option.map_some]
      exact congrArg some ((execBranch_iff hk hne).mpr ((exec_words hk hne).mpr (hfull word hword)))

/-- A server with the file that `someWord` names at the root. -/
def rootHost : Host :=
  ⟨NetmtServer.initial (FileStore.empty.setContent (absolutePath slash someWord).bytes [1]), 0⟩

theorem rootHost_opens (mode : CString) (rest : List CString) :
    SendOpens slash rootHost
      ⟨rootHost.server.files.content, [⟨(absolutePath slash someWord).bytes, true, 0⟩]⟩ 0
      (someWord :: mode :: rest) := by
  intro localPath hpath
  cases hpath
  exact FileStore.openRead_eq _ _ [1] rfl

theorem single_modes_run :
    SendRuns slash rootHost
      ⟨rootHost.server.files.content, [⟨(absolutePath slash someWord).bytes, true, 0⟩]⟩ 0
      (sendLineWith Mode.single.typed) [someWord, Mode.single.typed, someWord, someWord] ∧
    ExecRuns execSingle [Mode.single.typed, someWord] := by
  constructor
  · refine ((modes_run_iff noMatchers viewNode _ _ _).1 (accepted_sendLine (Or.inl rfl)) _ _ _ _
      (rootHost_opens _ _)).mpr ?_
    rintro word hword
    cases hword
    exact ⟨⟨.single, rfl⟩, Or.inr (Or.inl rfl)⟩
  · refine ((modes_run_iff noMatchers viewNode _ _ _).2 accepted_execSingle).mpr ?_
    rintro word hword
    cases hword
    exact Or.inr (Or.inr (List.prefix_refl _))

/-- `al` is accepted for `all`, and nothing is sent. -/
theorem al_not_sent : ¬ ∀ (m : Matchers) (cmdvec : List Element) (line : CString)
    (vline argv : List CString),
    (Accepted m cmdvec line vline sendNetmtCmd argv →
      ∀ cwd h files id, SendOpens cwd h files id argv → SendRuns cwd h files id vline argv) ∧
    (Accepted m cmdvec line vline execShellRemoteCmd argv → ExecRuns vline argv) := by
  intro h
  have hline := sendLine (accepted_sendLine (Or.inr rfl))
  have hruns := (h noMatchers viewNode _ _ _).1 (accepted_sendLine (Or.inr rfl)) _ _ _ _
    (rootHost_opens alWord _)
  obtain ⟨⟨k, hk⟩, -⟩ := sendRuns_words hline hruns rfl
  cases k <;> exact absurd hk (by decide)

end NetmtCommandArgs
