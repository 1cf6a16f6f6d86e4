import Netmt.Client
import Netmt.Lib.Outcome

/-!
# The command line

A line is cut into words at white space. Word for word the matcher drops the commands
of the node whose grammar does not fit, and refuses the line unless one command is left
that has all its mandatory words. The words at variable places become `argv`, as they
were typed.
-/
namespace NetmtCli

open NetmtClient (asciiBytes)
open CString (isSpace)

/-! ## Words of a line -/

/-- The front of a string, and what is behind it. -/
def takeWhile (p : UInt8 → Bool) (s : CString) : CString :=
  ⟨s.bytes.takeWhile p, fun h => s.nul_free ((List.takeWhile_sublist p).subset h)⟩

def dropWhile (p : UInt8 → Bool) (s : CString) : CString :=
  ⟨s.bytes.dropWhile p, fun h => s.nul_free ((List.dropWhile_sublist p).subset h)⟩

/-- The pieces from a place where one starts. -/
def pieces : Nat → CString → List CString
  | 0, _ => []
  | n + 1, cp =>
    let token := takeWhile (fun c => !isSpace c) cp
    let rest := dropWhile isSpace (dropWhile (fun c => !isSpace c) cp)
    if rest.bytes = [] then [token] else token :: pieces n rest

/-- `cmd_make_strvec`. -/
def cmdMakeStrvec (string : CString) : Option (List CString) :=
  let cp := dropWhile isSpace string
  if cp.bytes = [] then none
  else if cp.bytes.head? = some 33 || cp.bytes.head? = some 35 then none
  else some (pieces cp.bytes.length cp)

/-! ## Grammar strings -/

/-- `desc->cmd`. -/
abbrev Desc := List UInt8

def CMD_OPTION (s : Desc) : Bool := s.head? = some 91
def CMD_RANGE (s : Desc) : Bool := s.head? = some 60
def CMD_VARARG (s : Desc) : Bool := s.head? = some 46
def CMD_VARIABLE (s : Desc) : Bool := (s.head?.any fun c => 65 ≤ c && c ≤ 90) || CMD_RANGE s
def CMD_IPV4 (s : Desc) : Bool := s = asciiBytes "A.B.C.D"
def CMD_IPV4_PREFIX (s : Desc) : Bool := s = asciiBytes "A.B.C.D/M"
def CMD_IPV6 (s : Desc) : Bool := s = asciiBytes "X:X::X:X"
def CMD_IPV6_PREFIX (s : Desc) : Bool := s = asciiBytes "X:X::X:X/M"

/-- `vector_set`: behind a `(` a descriptor starts a vector, behind the ones after it
it joins the last vector. -/
def addDesc (multiple : Nat) (desc : Desc) (allvec : List (List Desc)) : List (List Desc) :=
  if multiple ≤ 1 then allvec ++ [[desc]]
  else allvec.dropLast ++ [allvec.getLast?.getD [] ++ [desc]]

/-- The loop of `cmd_make_descvec`. A `|` outside of parentheses ends the program. -/
def makeDescvec : Nat → Desc → Nat → List (List Desc) → Option (List (List Desc))
  | 0, _, _, _ => none
  | n + 1, cp, multiple, allvec =>
    let cp := cp.dropWhile isSpace
    let (multiple, cp) := if cp.head? = some 40 then (1, cp.tail) else (multiple, cp)
    let (multiple, cp) := if cp.head? = some 41 then (0, cp.tail) else (multiple, cp)
    if cp.head? = some 124 ∧ multiple = 0 then none
    else
      let cp := if cp.head? = some 124 then cp.tail else cp
      let cp := cp.dropWhile isSpace
      let (multiple, cp) := if cp.head? = some 40 then (1, cp.tail) else (multiple, cp)
      if cp = [] then some allvec
      else
        let token := cp.takeWhile fun c => !(isSpace c || c = 41 || c = 124)
        makeDescvec n (cp.drop token.length) (if multiple = 0 then 0 else multiple + 1)
          (addDesc multiple token allvec)

/-- `cmd_make_descvec`; every other pass at least consumes a byte. -/
def cmdMakeDescvec (string : Desc) : Option (List (List Desc)) :=
  makeDescvec (2 * string.length + 1) string 0 []

/-- `cmd_cmdsize`: the words in front of the first optional one. -/
def cmdCmdsize : List (List Desc) → Nat
  | [] => 0
  | [str] :: strvec => if CMD_OPTION str then 0 else cmdCmdsize strvec + 1
  | _ :: strvec => cmdCmdsize strvec + 1

/-- `struct cmd_element`. -/
structure Element where
  string : Desc
  strvec : List (List Desc)
  cmdsize : Nat
  deriving DecidableEq

/-- `install_element`. -/
def installElement (string : Desc) : Option Element :=
  (cmdMakeDescvec string).map fun strvec => ⟨string, strvec, cmdCmdsize strvec⟩

/-! ## Matching -/

inductive MatchType where
  | no_match | extend_match | ipv4_prefix_match | ipv4_match | ipv6_prefix_match | ipv6_match
  | range_match | vararg_match | partly_match | exact_match
  deriving DecidableEq

/-- The order of the enumeration. -/
def MatchType.rank : MatchType → Nat
  | no_match => 0
  | extend_match => 1
  | ipv4_prefix_match => 2
  | ipv4_match => 3
  | ipv6_prefix_match => 4
  | ipv6_match => 5
  | range_match => 6
  | vararg_match => 7
  | partly_match => 8
  | exact_match => 9

/-- `if (match_type < u) match_type = u`. -/
def MatchType.raise (t u : MatchType) : MatchType := if t.rank < u.rank then u else t

/-- The matchers of numbers and addresses. -/
structure Matchers where
  cmd_range_match : Desc → CString → Bool
  cmd_ipv4_match : CString → MatchType
  cmd_ipv4_prefix_match : CString → MatchType
  cmd_ipv6_match : CString → MatchType
  cmd_ipv6_prefix_match : CString → MatchType

/-- `strncmp(command, str, strlen(command)) == 0`. -/
def abbreviates (command : CString) (str : Desc) : Bool := command.bytes.isPrefixOf str

/-- What one descriptor makes of a word; nothing when it does not match. -/
def descMatch (m : Matchers) (command : CString) (str : Desc) : Option MatchType :=
  if CMD_VARARG str then some .vararg_match
  else if CMD_RANGE str then if m.cmd_range_match str command then some .range_match else none
  else if CMD_IPV6 str then if m.cmd_ipv6_match command ≠ .no_match then some .ipv6_match else none
  else if CMD_IPV6_PREFIX str then
    if m.cmd_ipv6_prefix_match command ≠ .no_match then some .ipv6_prefix_match else none
  else if CMD_IPV4 str then if m.cmd_ipv4_match command ≠ .no_match then some .ipv4_match else none
  else if CMD_IPV4_PREFIX str then
    if m.cmd_ipv4_prefix_match command ≠ .no_match then some .ipv4_prefix_match else none
  else if CMD_OPTION str || CMD_VARIABLE str then some .extend_match
  else if abbreviates command str then
    if command.bytes = str then some .exact_match else some .partly_match
  else none

/-- A descriptor that stands for itself. -/
def isPlain (str : Desc) : Bool :=
  !(CMD_VARARG str || CMD_RANGE str || CMD_IPV6 str || CMD_IPV6_PREFIX str || CMD_IPV4 str ||
    CMD_IPV4_PREFIX str || CMD_OPTION str || CMD_VARIABLE str)

/-- The matches of a word at place `index` of a command. -/
def matchesAt (m : Matchers) (command : CString) (index : Nat) (e : Element) : List MatchType :=
  ((e.strvec[index]?).getD []).filterMap (descMatch m command)

/-- `cmd_filter_by_completion`. -/
def cmdFilterByCompletion (m : Matchers) (command : CString) (v : List Element) (index : Nat) :
    MatchType × List Element :=
  ((v.flatMap (matchesAt m command index)).foldl MatchType.raise .no_match,
    v.filter fun e => matchesAt m command index e ≠ [])

/-- What `is_cmd_ambiguous` returns instead of 0. -/
inductive Refusal where
  | ambiguous | incomplete

/-- The `switch` for one descriptor, on `matched` and whether the command matched. -/
def ambiguousDesc (m : Matchers) (command : CString) (type : MatchType) (s : Option Desc × Bool)
    (str : Desc) : Except Refusal (Option Desc × Bool) :=
  let hit (b : Bool) : Except Refusal (Option Desc × Bool) := .ok (s.1, s.2 || b)
  let only (b : Bool) : Except Refusal (Option Desc × Bool) :=
    if b then
      if s.1.any fun matched => matched ≠ str then .error .ambiguous else .ok (some str, true)
    else .ok s
  let prefixMatch (t : MatchType) : Except Refusal (Option Desc × Bool) :=
    if t = .no_match then .ok s else if t = .partly_match then .error .incomplete
      else .ok (s.1, true)
  match type with
  | .exact_match => hit (!(CMD_OPTION str || CMD_VARIABLE str) && command.bytes = str)
  | .partly_match => only (!(CMD_OPTION str || CMD_VARIABLE str) && abbreviates command str)
  | .range_match => only (m.cmd_range_match str command)
  | .ipv6_match => hit (CMD_IPV6 str)
  | .ipv6_prefix_match => prefixMatch (m.cmd_ipv6_prefix_match command)
  | .ipv4_match => hit (CMD_IPV4 str)
  | .ipv4_prefix_match => prefixMatch (m.cmd_ipv4_prefix_match command)
  | .extend_match => hit (CMD_OPTION str || CMD_VARIABLE str)
  | .no_match => .ok s
  | .vararg_match => .ok s

/-- `is_cmd_ambiguous`, with the commands that it leaves. -/
def isCmdAmbiguous (m : Matchers) (command : CString) (index : Nat) (type : MatchType) :
    List Element → Option Desc → Except Refusal (List Element)
  | [], _ => .ok []
  | e :: v, matched =>
    (((e.strvec[index]?).getD []).foldlM (ambiguousDesc m command type) (matched, false)).bind
      fun s =>
      (isCmdAmbiguous m command index type v s.1).map fun v' => if s.2 then e :: v' else v'

/-! ## Execution -/

inductive CmdError where
  | CMD_ERR_NO_MATCH | CMD_ERR_AMBIGUOUS | CMD_ERR_INCOMPLETE | CMD_ERR_EXEED_ARGC_MAX
  deriving DecidableEq

def CMD_ARGC_MAX : Nat := 25

/-- The loop over the words: the last match, where it ended, and the commands left. -/
def matchWords (m : Matchers) : Nat → MatchType → List CString → List Element →
    Except CmdError (MatchType × Nat × List Element)
  | index, type, [], v => .ok (type, index, v)
  | index, _, command :: vline, v =>
    let r := cmdFilterByCompletion m command v index
    if r.1 = .vararg_match then .ok (r.1, index, r.2)
    else
      match isCmdAmbiguous m command index r.1 r.2 none with
      | .error .ambiguous => .error .CMD_ERR_AMBIGUOUS
      | .error .incomplete => .error .CMD_ERR_NO_MATCH
      | .ok v' => matchWords m (index + 1) r.1 vline v'

/-- `if (vector_max (descvec) == 1)`: a word at this place is an argument. -/
def takesArg : List Desc → Bool
  | [str] => CMD_VARIABLE str || CMD_OPTION str
  | _ => true

def isVararg : List Desc → Bool
  | [str] => CMD_VARARG str
  | _ => false

/-- The argument treatment. -/
def collectArgs : List (List Desc) → Bool → List CString → List CString →
    Except CmdError (List CString)
  | _, _, [], argv => .ok argv
  | strvec, varflag, word :: vline, argv =>
    let descvec := strvec.head?.getD []
    let varflag' := varflag || isVararg descvec
    let argv' := if varflag' || takesArg descvec then argv ++ [word] else argv
    if CMD_ARGC_MAX ≤ argv'.length then .error .CMD_ERR_EXEED_ARGC_MAX
    else collectArgs strvec.tail varflag' vline argv'

/-- `cmd_execute_command`: the command that is run, with its `argv`. -/
def cmdExecuteCommand (m : Matchers) (cmdvec : List Element) (vline : List CString) :
    Except CmdError (Element × List CString) :=
  (matchWords m 0 .no_match vline cmdvec).bind fun r =>
    match r.2.2.filter fun e => r.1 = .vararg_match || e.cmdsize ≤ r.2.1 with
    | [] => .error (if r.2.2 = [] then .CMD_ERR_NO_MATCH else .CMD_ERR_INCOMPLETE)
    | [e] => (collectArgs e.strvec false vline []).map fun argv => (e, argv)
    | _ => .error .CMD_ERR_AMBIGUOUS

/-- The line is accepted for the command `e`, which is called with `argv`. -/
structure Accepted (m : Matchers) (cmdvec : List Element) (line : CString) (vline : List CString)
    (e : Element) (argv : List CString) : Prop where
  words : cmdMakeStrvec line = some vline
  executed : cmdExecuteCommand m cmdvec vline = .ok (e, argv)

/-! ## What an accepted line is made of -/

/-- A word as `cmd_make_strvec` cuts it. -/
structure IsWord (word : CString) : Prop where
  nonempty : word.bytes ≠ []
  no_space : ∀ b ∈ word.bytes, isSpace b = false

instance (word : CString) : Decidable (IsWord word) :=
  decidable_of_iff (word.bytes ≠ [] ∧ word.bytes.all (fun b => !isSpace b) = true)
    ⟨fun h => ⟨h.1, fun b hb => by simpa using List.all_eq_true.mp h.2 b hb⟩,
      fun h => ⟨h.nonempty, List.all_eq_true.mpr fun b hb => by rw [h.no_space b hb]; rfl⟩⟩

theorem takeWhile_isWord {cp : CString} (h : (cp.bytes.head?.any isSpace) = false)
    (hne : cp.bytes ≠ []) :
    IsWord (takeWhile (fun c => !isSpace c) cp) := by
  constructor
  · obtain ⟨c, cs, hcs⟩ := List.exists_cons_of_ne_nil hne
    have hc : isSpace c = false := by simpa [hcs] using h
    simp [takeWhile, hcs, hc]
  · intro b hb
    simpa using List.mem_takeWhile_imp hb

/-- White space is not in front of what is left when it is dropped. -/
theorem head_dropWhile (s : CString) : ((dropWhile isSpace s).bytes.head?.any isSpace) = false := by
  cases hhead : (dropWhile isSpace s).bytes.head? with
  | none => rfl
  | some c =>
    have hc := List.head?_dropWhile_not isSpace s.bytes
    change (s.bytes.dropWhile isSpace).head? = some c at hhead
    rw [hhead] at hc
    simpa using hc

theorem pieces_isWord {n : Nat} {cp : CString} (h : (cp.bytes.head?.any isSpace) = false)
    (hne : cp.bytes ≠ []) : ∀ word ∈ pieces n cp, IsWord word := by
  induction n generalizing cp with
  | zero => exact fun _ hmem => absurd hmem List.not_mem_nil
  | succ n ih =>
    intro word hword
    simp only [pieces] at hword
    split at hword
    · obtain rfl := List.mem_singleton.mp hword
      exact takeWhile_isWord h hne
    · next hrest =>
      rcases List.mem_cons.mp hword with rfl | hword
      · exact takeWhile_isWord h hne
      · exact ih (head_dropWhile _) hrest word hword

theorem cmdMakeStrvec_isWord {line : CString} {vline : List CString}
    (h : cmdMakeStrvec line = some vline) :
    ∀ word ∈ vline, IsWord word := by
  simp only [cmdMakeStrvec] at h
  split at h
  · cases h
  · next hne =>
    split at h
    · cases h
    · cases h
      exact pieces_isWord (head_dropWhile line) hne

/-- The words with a space between them. -/
def sentence (words : List CString) : CString :=
  ⟨[32].intercalate (words.map CString.bytes), by
    intro h
    induction words with
    | nil => simp [List.intercalate] at h
    | cons word words ih =>
      cases words with
      | nil =>
        rw [List.map_singleton, List.intercalate_singleton] at h
        exact word.nul_free h
      | cons next words =>
        rw [List.map_cons, List.map_cons, List.intercalate_cons_cons, List.append_assoc] at h
        rcases List.mem_append.mp h with h | h
        · exact word.nul_free h
        · rcases List.mem_append.mp h with h | h
          · simp at h
          · exact ih h⟩

theorem eq_of_bytes {s t : CString} (h : s.bytes = t.bytes) : s = t := by
  cases s
  cases t
  cases h
  rfl

/-- A word and the white space or the end behind it. -/
theorem takeWhile_word {word s : CString} {rest : List UInt8} (h : IsWord word)
    (hrest : (rest.head?.all isSpace) = true) (hs : s.bytes = word.bytes ++ rest) :
    takeWhile (fun c => !isSpace c) s = word ∧
    (dropWhile (fun c => !isSpace c) s).bytes = rest := by
  have hall : ∀ b ∈ word.bytes, (!isSpace b) = true := fun b hb => by rw [h.no_space b hb]; rfl
  have hstop : rest.takeWhile (fun c => !isSpace c) = [] ∧
      rest.dropWhile (fun c => !isSpace c) = rest := by
    cases rest with
    | nil => exact ⟨rfl, rfl⟩
    | cons c cs =>
      have hc : isSpace c = true := hrest
      exact ⟨List.takeWhile_cons_of_neg (by simp [hc]), List.dropWhile_cons_of_neg (by simp [hc])⟩
  constructor
  · apply eq_of_bytes
    change s.bytes.takeWhile _ = _
    rw [hs, List.takeWhile_append_of_pos hall, hstop.1, List.append_nil]
  · change s.bytes.dropWhile _ = _
    rw [hs, List.dropWhile_append_of_pos hall, hstop.2]

theorem sentence_cons (word next : CString) (words : List CString) :
    (sentence (word :: next :: words)).bytes = word.bytes ++ 32 ::
      (sentence (next :: words)).bytes := by
  change [32].intercalate _ = _
  rw [List.map_cons, List.map_cons, List.intercalate_cons_cons, List.append_assoc]
  rfl

theorem sentence_head (word : CString) (words : List CString) (h : IsWord word) :
    (sentence (word :: words)).bytes.head? = word.bytes.head? := by
  obtain ⟨c, cs, hcs⟩ := List.exists_cons_of_ne_nil h.nonempty
  cases words with
  | nil =>
    change ([32].intercalate [word.bytes]).head? = _
    rw [List.intercalate_singleton]
  | cons next words => rw [sentence_cons, hcs, List.cons_append, List.head?_cons, List.head?_cons]

theorem IsWord.head {word : CString} (h : IsWord word) :
    (word.bytes.head?.any isSpace) = false := by
  obtain ⟨c, cs, hcs⟩ := List.exists_cons_of_ne_nil h.nonempty
  rw [hcs]
  exact h.no_space c (hcs ▸ List.mem_cons_self)

/-- Where no white space is in front, none is dropped. -/
theorem dropWhile_none {s : CString} (h : (s.bytes.head?.any isSpace) = false) :
    dropWhile isSpace s = s := by
  apply eq_of_bytes
  change s.bytes.dropWhile isSpace = s.bytes
  cases hb : s.bytes with
  | nil => rfl
  | cons c cs =>
    rw [hb] at h
    have hc : isSpace c = false := h
    exact List.dropWhile_cons_of_neg (by simp [hc])

theorem sentence_ne_nil {word : CString} (words : List CString) (h : IsWord word) :
    (sentence (word :: words)).bytes ≠ [] := by
  intro hnil
  have hhead := sentence_head word words h
  rw [hnil, List.head?_nil] at hhead
  exact h.nonempty (List.head?_eq_none_iff.mp hhead.symm)

theorem sentence_space {word : CString} (words : List CString) (h : IsWord word) :
    ((sentence (word :: words)).bytes.head?.any isSpace) = false := by
  rw [sentence_head word words h]
  exact h.head

theorem sentence_length (words : List CString) (h : ∀ w ∈ words, IsWord w) :
    words.length ≤ (sentence words).bytes.length := by
  induction words with
  | nil => exact Nat.zero_le _
  | cons word words ih =>
    have hpos := List.length_pos_iff.mpr (sentence_ne_nil words (h word List.mem_cons_self))
    cases words with
    | nil => exact hpos
    | cons next words =>
      have hnext := ih fun w hw => h w (List.mem_cons_of_mem _ hw)
      simp only [sentence_cons, List.length_append, List.length_cons] at hnext ⊢
      omega

theorem pieces_sentence {n : Nat} {word : CString} {words : List CString} (hn : words.length < n)
    (h : ∀ w ∈ word :: words, IsWord w) : pieces n (sentence (word :: words)) = word :: words := by
  induction words generalizing n word with
  | nil =>
    obtain ⟨n, rfl⟩ : ∃ k, n = k + 1 := ⟨n - 1, by simp at hn; omega⟩
    have hs : (sentence [word]).bytes = word.bytes ++ [] := by
      change [32].intercalate [word.bytes] = _
      rw [List.intercalate_singleton, List.append_nil]
    obtain ⟨htake, hdrop⟩ := takeWhile_word (h word List.mem_cons_self) rfl hs
    have hrest : (dropWhile isSpace (dropWhile (fun c => !isSpace c) (sentence [word]))).bytes =
        [] := by
      change (dropWhile (fun c => !isSpace c) (sentence [word])).bytes.dropWhile isSpace = []
      rw [hdrop, List.dropWhile_nil]
    rw [pieces, if_pos hrest, htake]
  | cons next words ih =>
    obtain ⟨n, rfl⟩ : ∃ k, n = k + 1 := ⟨n - 1, by simp at hn; omega⟩
    have hnext := h next (List.mem_cons_of_mem _ List.mem_cons_self)
    obtain ⟨htake, hdrop⟩ :=
      takeWhile_word (h word List.mem_cons_self) rfl (sentence_cons word next words)
    have hrest : dropWhile isSpace
      (dropWhile (fun c => !isSpace c) (sentence (word :: next :: words))) =
        sentence (next :: words) := by
      rw [← dropWhile_none (sentence_space words hnext)]
      apply eq_of_bytes
      change (dropWhile (fun c => !isSpace c)
          (sentence (word :: next :: words))).bytes.dropWhile isSpace =
        (sentence (next :: words)).bytes.dropWhile isSpace
      rw [hdrop, List.dropWhile_cons_of_pos (by decide)]
    have hne := sentence_ne_nil words hnext
    simp only [List.length_cons] at hn
    rw [pieces, hrest, if_neg hne, htake, ih (by omega) fun w hw => h w (List.mem_cons_of_mem _ hw)]

/-- Words with spaces between them are cut into themselves. -/
theorem cmdMakeStrvec_sentence {word : CString} {words : List CString}
    (h : ∀ w ∈ word :: words, IsWord w)
    (hcomment : word.bytes.head? ≠ some 33 ∧ word.bytes.head? ≠ some 35) :
    cmdMakeStrvec (sentence (word :: words)) = some (word :: words) := by
  have hword := h word List.mem_cons_self
  have hskip := dropWhile_none (sentence_space words hword)
  have hlen := sentence_length (word :: words) h
  rw [List.length_cons] at hlen
  simp only [cmdMakeStrvec, hskip, if_neg (sentence_ne_nil words hword),
    sentence_head word words hword]
  rw [if_neg (by simpa using hcomment), pieces_sentence hlen h]

/-- The words of a line that go into `argv`. -/
def argsOf (strvec : List (List Desc)) (vline : List CString) : List CString :=
  (strvec.zip vline).filterMap fun p => if takesArg p.1 then some p.2 else none

/-- No place of the grammar takes the rest of the line. -/
def NoVararg (e : Element) : Prop := ∀ descvec ∈ e.strvec, ∀ str ∈ descvec, CMD_VARARG str = false

instance (e : Element) : Decidable (NoVararg e) :=
  inferInstanceAs (Decidable (∀ descvec ∈ e.strvec, ∀ str ∈ descvec, CMD_VARARG str = false))

/-- Every word has a descriptor that it matches, and no mandatory word is missing. -/
structure Fits (m : Matchers) (e : Element) (vline : List CString) : Prop where
  enough : e.cmdsize ≤ vline.length
  matched : ∀ i word, vline[i]? = some word → matchesAt m word i e ≠ []

theorem foldl_raise (ts : List MatchType) (t : MatchType) :
    ts.foldl MatchType.raise t = t ∨ ts.foldl MatchType.raise t ∈ ts := by
  induction ts generalizing t with
  | nil => exact Or.inl rfl
  | cons u ts ih =>
    rw [List.foldl_cons, MatchType.raise]
    split
    · right
      rcases ih u with h | h
      · rw [h]
        exact List.mem_cons_self
      · exact List.mem_cons_of_mem u h
    · exact (ih t).imp_right (List.mem_cons_of_mem u)

theorem mem_filtered {m : Matchers} {command : CString} {v : List Element}
    {index : Nat} {e : Element} :
    e ∈ (cmdFilterByCompletion m command v index).2 ↔ e ∈ v ∧ matchesAt m command index e ≠ [] := by
  rw [cmdFilterByCompletion, List.mem_filter, decide_eq_true_iff]

/-- The best match is that of a command which is kept. -/
theorem filter_best {m : Matchers} {command : CString} {v : List Element} {index : Nat}
    (h : (cmdFilterByCompletion m command v index).1 ≠ .no_match) :
    ∃ e ∈ (cmdFilterByCompletion m command v index).2,
      (cmdFilterByCompletion m command v index).1 ∈ matchesAt m command index e := by
  have hmem := (foldl_raise (v.flatMap (matchesAt m command index)) .no_match).resolve_left h
  obtain ⟨e, he, htype⟩ := List.mem_flatMap.mp hmem
  exact ⟨e, mem_filtered.mpr ⟨he, List.ne_nil_of_mem htype⟩, htype⟩

theorem descMatch_plain (m : Matchers) (command : CString) {str : Desc} (h : isPlain str = true) :
    descMatch m command str = if abbreviates command str then
      if command.bytes = str then some .exact_match else some .partly_match else none := by
  simp only [isPlain, Bool.not_eq_true', Bool.or_eq_false_iff] at h
  obtain ⟨⟨⟨⟨⟨⟨⟨h₁, h₂⟩, h₃⟩, h₄⟩, h₅⟩, h₆⟩, h₇⟩, h₈⟩ := h
  simp only [descMatch, h₁, h₂, h₃, h₄, h₅, h₆, h₇, h₈, Bool.or_false, Bool.false_eq_true, if_false]

/-- Where all descriptors stand for themselves a word abbreviates one of them. -/
theorem matchesAt_plain {m : Matchers} {word : CString} {i : Nat} {e : Element}
    {descvec : List Desc} (hdesc : e.strvec[i]? = some descvec)
    (hplain : ∀ str ∈ descvec, isPlain str = true) (h : matchesAt m word i e ≠ []) :
    ∃ str ∈ descvec, word.bytes <+: str := by
  obtain ⟨t, ht⟩ := List.exists_mem_of_ne_nil _ h
  rw [matchesAt, hdesc, Option.getD_some] at ht
  obtain ⟨str, hstr, htype⟩ := List.mem_filterMap.mp ht
  rw [descMatch_plain m word (hplain str hstr)] at htype
  split at htype
  · next habbr => exact ⟨str, hstr, List.isPrefixOf_iff_prefix.mp habbr⟩
  · cases htype

theorem descMatch_vararg {m : Matchers} {command : CString} {str : Desc}
    (h : descMatch m command str = some .vararg_match) : CMD_VARARG str = true := by
  by_contra hno
  rw [descMatch, if_neg hno] at h
  split at h
  · split at h <;> cases h
  · split at h
    · split at h <;> cases h
    · split at h
      · split at h <;> cases h
      · split at h
        · split at h <;> cases h
        · split at h
          · split at h <;> cases h
          · split at h
            · cases h
            · split at h
              · split at h <;> cases h
              · cases h

theorem matchesAt_vararg {m : Matchers} {command : CString} {index : Nat} {e : Element}
    (he : NoVararg e) : MatchType.vararg_match ∉ matchesAt m command index e := by
  intro hmem
  obtain ⟨str, hstr, htype⟩ := List.mem_filterMap.mp hmem
  cases hdesc : e.strvec[index]? with
  | none =>
    rw [hdesc] at hstr
    cases hstr
  | some descvec =>
    rw [hdesc] at hstr
    have hvararg := descMatch_vararg htype
    rw [he descvec (List.mem_of_getElem? hdesc) str hstr] at hvararg
    cases hvararg

theorem isCmdAmbiguous_sublist {m : Matchers} {command : CString} {index : Nat} {type : MatchType}
    {v v' : List Element} {matched : Option Desc}
    (h : isCmdAmbiguous m command index type v matched = .ok v') : v'.Sublist v := by
  induction v generalizing matched v' with
  | nil =>
    cases h
    exact List.Sublist.refl []
  | cons e v ih =>
    rw [isCmdAmbiguous] at h
    obtain ⟨s, -, h⟩ := Outcome.bind_eq_ok.mp h
    obtain ⟨rest, hrest, rfl⟩ := Outcome.map_eq_ok.mp h
    split
    · exact (ih hrest).cons_cons e
    · exact (ih hrest).cons e

/-- What the loop leaves: commands that match every word, or one that takes the rest. -/
theorem matchWords_spec {m : Matchers} {index n : Nat} {type₀ type : MatchType}
    {vline : List CString} {v v' : List Element} (htype : type₀ ≠ .vararg_match)
    (h : matchWords m index type₀ vline v = .ok (type, n, v')) :
    (type ≠ .vararg_match ∧ n = index + vline.length ∧ ∀ e ∈ v', e ∈ v ∧
      ∀ i word, vline[i]? = some word → matchesAt m word (index + i) e ≠ []) ∨
    type = .vararg_match ∧ ∃ e ∈ v', ¬ NoVararg e := by
  induction vline generalizing index type₀ v with
  | nil =>
    cases h
    exact Or.inl ⟨htype, rfl, fun e he => ⟨he, fun i word hword => by simp at hword⟩⟩
  | cons command vline ih =>
    simp only [matchWords] at h
    by_cases hbest : (cmdFilterByCompletion m command v index).1 = .vararg_match
    · have hsome : (cmdFilterByCompletion m command v index).1 ≠ .no_match := by
        rw [hbest]
        decide
      obtain ⟨e, he, hmem⟩ := filter_best hsome
      rw [hbest] at hmem
      rw [if_pos hbest] at h
      cases h
      exact Or.inr ⟨hbest, e, he, fun hno => matchesAt_vararg hno hmem⟩
    · rw [if_neg hbest] at h
      split at h
      · cases h
      · cases h
      · next v'' hleft =>
        refine (ih hbest h).imp_left ?_
        rintro ⟨hlast, rfl, hall⟩
        refine ⟨hlast, by rw [List.length_cons]; omega, fun e he => ?_⟩
        obtain ⟨hmem, hwords⟩ := hall e he
        obtain ⟨hv, hfirst⟩ := mem_filtered.mp ((isCmdAmbiguous_sublist hleft).subset hmem)
        refine ⟨hv, fun i word hword => ?_⟩
        cases i with
        | zero =>
          cases hword
          exact hfirst
        | succ i =>
          rw [Nat.add_succ, ← Nat.succ_add]
          exact hwords i word hword

theorem collectArgs_spec {strvec : List (List Desc)}
    (hv : ∀ descvec ∈ strvec, isVararg descvec = false) {vline argv r : List CString}
    (hlen : vline.length ≤ strvec.length) (h : collectArgs strvec false vline argv = .ok r) :
    r = argv ++ argsOf strvec vline := by
  induction vline generalizing strvec argv with
  | nil =>
    cases h
    simp [argsOf]
  | cons word vline ih =>
    cases strvec with
    | nil => simp at hlen
    | cons descvec strvec =>
      have hd := hv descvec List.mem_cons_self
      have hrest : ∀ argv', collectArgs strvec false vline argv' = .ok r →
          r = argv' ++ argsOf strvec vline :=
        fun argv' h => ih (fun d hmem => hv d (List.mem_cons_of_mem _ hmem)) (by simpa using hlen) h
      simp only [collectArgs, List.head?_cons, Option.getD_some, List.tail_cons, hd, Bool.or_false,
        Bool.false_or] at h
      rw [argsOf, List.zip_cons_cons, List.filterMap_cons]
      by_cases hmax : CMD_ARGC_MAX ≤ (if takesArg descvec = true then argv ++ [word]
        else argv).length
      · rw [if_pos hmax] at h
        cases h
      · rw [if_neg hmax] at h
        rw [hrest _ h, argsOf]
        by_cases hd : takesArg descvec = true
        · simp only [if_pos hd, List.append_assoc, List.singleton_append]
        · simp only [if_neg hd]

theorem NoVararg.places {e : Element} (he : NoVararg e) :
    ∀ descvec ∈ e.strvec, isVararg descvec = false := by
  intro descvec hmem
  match descvec, hmem with
  | [], _ => rfl
  | [str], hmem => exact he [str] hmem str (List.mem_singleton_self str)
  | _ :: _ :: _, _ => rfl

/-- A command that is run fits the line, and `argv` is what the line has at its variable places. -/
theorem executed_fits {m : Matchers} {cmdvec : List Element} {vline argv : List CString}
    {e : Element} (he : NoVararg e) (h : cmdExecuteCommand m cmdvec vline = .ok (e, argv)) :
    Fits m e vline ∧ vline.length ≤ e.strvec.length ∧ argv = argsOf e.strvec vline := by
  rw [cmdExecuteCommand] at h
  obtain ⟨⟨type, n, v⟩, hloop, h⟩ := Outcome.bind_eq_ok.mp h
  dsimp only at h
  split at h
  · cases h
  · next e' hone =>
    obtain ⟨argv', hargs, hrun⟩ := Outcome.map_eq_ok.mp h
    cases hrun
    have honly : ∀ x ∈ v, type = .vararg_match → x = e := by
      intro x hx hvar
      have hmem : x ∈ v.filter fun x => decide (type = .vararg_match) || decide (x.cmdsize ≤ n) :=
        List.mem_filter.mpr ⟨hx, by simp [hvar]⟩
      rw [hone] at hmem
      exact List.mem_singleton.mp hmem
    have hmem : e ∈ v.filter fun x => decide (type = .vararg_match) || decide (x.cmdsize ≤ n) := by
      rw [hone]
      exact List.mem_singleton_self e
    obtain ⟨hev, hsize⟩ := List.mem_filter.mp hmem
    rcases matchWords_spec (by decide) hloop with ⟨hlast, hn, hall⟩ | ⟨hlast, x, hx, hvar⟩
    · have hfits : Fits m e vline := by
        refine ⟨?_, fun i word hword => ?_⟩
        · rw [Nat.zero_add] at hn
          simpa [hlast, hn] using hsize
        · have hword' := (hall e hev).2 i word hword
          rwa [Nat.zero_add] at hword'
      have hlen : vline.length ≤ e.strvec.length := by
        by_contra hlong
        have hword := List.getElem?_eq_getElem (l := vline) (i := e.strvec.length) (by omega)
        apply hfits.matched _ _ hword
        rw [matchesAt, List.getElem?_eq_none (Nat.le_refl _)]
        rfl
      exact ⟨hfits, hlen, by simpa using collectArgs_spec he.places hlen hargs⟩
    · exact absurd (honly x hx hlast ▸ he) hvar
  · cases h

end NetmtCli
