import Netmt.Completion
import Netmt.Lib.LineEdit

/-!
# The terminal

`vty.c`: a line that is edited in a buffer, what is written to the terminal for it, the
history, and the bytes of a read one by one. A terminal comes from `vty_create`, so its
type is `VTY_TERM`.
-/
namespace NetmtVty

open NetmtClient (asciiBytes)
open NetmtCli NetmtCompletion
open CString (isSpace)

inductive NodeType where
  | AUTH_NODE | VIEW_NODE | AUTH_ENABLE_NODE | ENABLE_NODE | CONFIG_NODE | DEBUG_NODE | AAA_NODE
      | KEYCHAIN_NODE
  | KEYCHAIN_KEY_NODE | INTERFACE_NODE | ZEBRA_NODE | TABLE_NODE | RIP_NODE | RIPNG_NODE | BGP_NODE
      | BGP_VPNV4_NODE
  | BGP_IPV4_NODE | BGP_IPV4M_NODE | BGP_IPV6_NODE | OSPF_NODE | OSPF6_NODE | MASC_NODE | IRDP_NODE
      | IP_NODE
  | ACCESS_NODE | PREFIX_NODE | ACCESS_IPV6_NODE | PREFIX_IPV6_NODE | AS_LIST_NODE
      | COMMUNITY_LIST_NODE | RMAP_NODE
  | SMUX_NODE | DUMP_NODE | FORWARDING_NODE | VTY_NODE
  deriving DecidableEq

inductive Status where
  | VTY_NORMAL | VTY_CLOSE | VTY_MORE | VTY_MORELINE | VTY_START | VTY_CONTINUE
  deriving DecidableEq

inductive Escape where
  | VTY_NORMAL | VTY_PRE_ESCAPE | VTY_ESCAPE
  deriving DecidableEq

/-- What goes into the output buffer: a byte of the line, a text, or the prompt of a node. -/
inductive Out where
  | echo (b : UInt8)
  | text (t : List UInt8)
  | prompt (node : NodeType)
  deriving DecidableEq

/-- An access outside of memory, or a loop that does not end. -/
inductive Halt where
  | fault | endless
  deriving DecidableEq

def VTY_BUFSIZ : Nat := 512
def VTY_MAXHIST : Nat := 20

/-- `struct vty`; `max` is the length of `buf`. The last `pending` items of `out` are still in
`obuf`, and `vty_config` is the lock that all terminals share. -/
structure Vty where
  node : NodeType
  fail : Nat
  out : List Out
  pending : Nat
  buf : List UInt8
  cp : Nat
  length : Nat
  hist : Nat → Option (List UInt8)
  hp : Nat
  hindex : Nat
  escape : Escape
  status : Status
  iac : Bool
  iac_sb_in_progress : Bool
  sb_buffer : List UInt8
  width : Int
  height : Int
  lines : Int
  config : Bool
  vty_config : Bool

/-- What a command makes of the terminal; `text` has what it prints and the message for what
it returns. -/
structure Effect where
  node : NodeType
  closes : Bool
  config : Bool
  vty_config : Bool
  text : List UInt8

/-- What a byte meets outside of the terminal: the memory that a `realloc` adds, the commands
and what they do, the descriptions, and the passwords. `func` and `describe` are those of
commands that return; what a command does when it faults or hangs is not looked at here. -/
structure Env where
  grown : Nat → UInt8
  matchers : Matchers
  cmdvec : NodeType → List Element
  func : Element → List CString → NodeType → Effect
  describe : List CString → Option CString → NodeType → List UInt8
  password_encrypt : Option (List UInt8)
  password : Option (List UInt8)
  enable_encrypt : Option (List UInt8)
  enable : Option (List UInt8)
  advanced : Bool

/-- A byte outside of memory is a fault. -/
def access {α : Type} : Option α → Except Halt α
  | some a => .ok a
  | none => .error .fault

/-- The string that `vty->buf` holds. -/
def bufString (vty : Vty) : Except Halt CString :=
  if (0 : UInt8) ∈ vty.buf then .ok ⟨CString.ofField vty.buf, fun h => by
    have hne := List.mem_takeWhile_imp h
    simp at hne⟩
  else .error .fault

/-! ## Output -/

def Vty.emit (o : List Out) (vty : Vty) : Vty :=
  { vty with out := vty.out ++ o, pending := vty.pending + o.length }

def inAuth (node : NodeType) : Bool := node = .AUTH_NODE || node = .AUTH_ENABLE_NODE

/-- `vty_write` -/
def vtyWrite (w : List UInt8) (vty : Vty) : Vty :=
  if inAuth vty.node then vty else vty.emit (w.map .echo)

def vtyOut (t : List UInt8) (vty : Vty) : Vty := vty.emit [.text t]

def VTY_NEWLINE : List UInt8 := [13, 10]

def vtyPrompt (vty : Vty) : Vty := vty.emit [.prompt vty.node]

def telnet_backward_char : UInt8 := 8
def telnet_space_char : UInt8 := 32

/-! ## Editing -/

/-- `vty_ensure` -/
def vtyEnsure (grown : Nat → UInt8) (length : Nat) (vty : Vty) : Vty :=
  if vty.buf.length ≤ length then
    { vty with buf := vty.buf ++ (List.range vty.buf.length).map grown } else vty

/-- `vty_self_insert` -/
def vtySelfInsert (grown : Nat → UInt8) (c : UInt8) (vty : Vty) : Except Halt Vty :=
  let vty := vtyEnsure grown (vty.length + 1) vty
  let length := vty.length - vty.cp
  (access ((Cells.memmove (vty.cp + 1) vty.cp length vty.buf).bind (Cells.writeAt vty.cp c))).bind
    fun buf =>
  (access (Cells.readAt vty.cp (length + 1) buf)).map fun w =>
    let vty := vtyWrite w { vty with buf := buf }
    let vty := vtyWrite (List.replicate length telnet_backward_char) vty
    { vty with cp := vty.cp + 1, length := vty.length + 1 }

/-- `vty_self_insert_overwrite` -/
def vtySelfInsertOverwrite (grown : Nat → UInt8) (c : UInt8) (vty : Vty) : Except Halt Vty :=
  let vty := vtyEnsure grown (vty.length + 1) vty
  (access (Cells.writeAt vty.cp c vty.buf)).map fun buf =>
    let cp := vty.cp + 1
    vtyWrite [c] { vty with buf := buf, cp := cp, length := if cp > vty.length then vty.length + 1
      else vty.length }

/-- `vty_insert_word_overwrite` -/
def vtyInsertWordOverwrite (str : List UInt8) (vty : Vty) : Except Halt Vty :=
  let vty := vtyWrite str vty
  (access (Cells.strcpy vty.cp str vty.buf)).map fun buf =>
    { vty with buf := buf, cp := vty.cp + str.length, length := vty.cp + str.length }

/-- `vty_forward_char` -/
def vtyForwardChar (vty : Vty) : Except Halt Vty :=
  if vty.cp < vty.length then
    (access vty.buf[vty.cp]?).map fun c => { vtyWrite [c] vty with cp := vty.cp + 1 }
  else .ok vty

/-- `vty_backward_char` -/
def vtyBackwardChar (vty : Vty) : Vty :=
  if 0 < vty.cp then vtyWrite [telnet_backward_char] { vty with cp := vty.cp - 1 } else vty

/-- `while (cond) body` -/
def whileDo (cond : Vty → Except Halt Bool) (body : Vty → Except Halt Vty) :
    Nat → Vty → Except Halt Vty
  | 0, _ => .error .endless
  | fuel + 1, vty => (cond vty).bind fun b =>
    if b then (body vty).bind (whileDo cond body fuel) else .ok vty

/-- `vty_beginning_of_line` -/
def vtyBeginningOfLine (vty : Vty) : Except Halt Vty :=
  whileDo (fun vty => .ok (vty.cp ≠ 0)) (fun vty => .ok (vtyBackwardChar vty)) (vty.cp + 1) vty

/-- `vty_end_of_line` -/
def vtyEndOfLine (vty : Vty) : Except Halt Vty :=
  whileDo (fun vty => .ok (vty.cp < vty.length)) vtyForwardChar (vty.length + 1) vty

/-- `vty->cp != vty->length && vty->buf[vty->cp] == ' '`, or `!= ' '`. -/
def atChar (space : Bool) (vty : Vty) : Except Halt Bool :=
  if vty.cp = vty.length then .ok false else (access vty.buf[vty.cp]?).map fun c => (c = 32) = space

/-- `vty->cp > 0 && vty->buf[vty->cp - 1] == ' '`, or `!= ' '`. -/
def behindChar (space : Bool) (vty : Vty) : Except Halt Bool :=
  if vty.cp = 0 then .ok false else (access vty.buf[vty.cp - 1]?).map fun c => (c = 32) = space

/-- `vty_forward_word` -/
def vtyForwardWord (vty : Vty) : Except Halt Vty :=
  (whileDo (atChar false) vtyForwardChar (vty.length + 1) vty).bind fun vty =>
    whileDo (atChar true) vtyForwardChar (vty.length + 1) vty

/-- `vty_backward_pure_word` -/
def vtyBackwardPureWord (vty : Vty) : Except Halt Vty :=
  whileDo (behindChar false) (fun vty => .ok (vtyBackwardChar vty)) (vty.cp + 1) vty

/-- `vty_backward_word` -/
def vtyBackwardWord (vty : Vty) : Except Halt Vty :=
  (whileDo (behindChar true) (fun vty => .ok (vtyBackwardChar vty)) (vty.cp + 1) vty).bind
    vtyBackwardPureWord

/-- `vty_config_unlock` -/
def vtyConfigUnlock (vty : Vty) : Vty :=
  if vty.vty_config && vty.config then { vty with config := false, vty_config := false } else vty

/-- `config_exit` -/
def configExit (vty : Vty) : Vty :=
  match vty.node with
  | .VIEW_NODE | .ENABLE_NODE => { vty with status := .VTY_CLOSE }
  | .CONFIG_NODE => vtyConfigUnlock { vty with node := .ENABLE_NODE }
  | .INTERFACE_NODE | .ZEBRA_NODE | .BGP_NODE | .RIP_NODE | .RIPNG_NODE | .OSPF_NODE | .OSPF6_NODE
      | .KEYCHAIN_NODE
  | .MASC_NODE | .RMAP_NODE | .VTY_NODE => { vty with node := .CONFIG_NODE }
  | .BGP_VPNV4_NODE | .BGP_IPV4_NODE | .BGP_IPV4M_NODE | .BGP_IPV6_NODE =>
    { vty with node := .BGP_NODE }
  | .KEYCHAIN_KEY_NODE => { vty with node := .KEYCHAIN_NODE }
  | _ => vty

/-- `vty_down_level` -/
def vtyDownLevel (vty : Vty) : Vty :=
  { vtyPrompt (configExit (vtyOut VTY_NEWLINE vty)) with cp := 0 }

/-- `vty_end_config` -/
def vtyEndConfig (vty : Vty) : Vty :=
  let vty := vtyOut VTY_NEWLINE vty
  let vty := match vty.node with
    | .CONFIG_NODE | .INTERFACE_NODE | .ZEBRA_NODE | .RIP_NODE | .RIPNG_NODE | .BGP_NODE
        | .BGP_VPNV4_NODE
    | .BGP_IPV4_NODE | .BGP_IPV4M_NODE | .BGP_IPV6_NODE | .RMAP_NODE | .OSPF_NODE | .OSPF6_NODE
        | .KEYCHAIN_NODE
    | .KEYCHAIN_KEY_NODE | .MASC_NODE | .VTY_NODE =>
      { vtyConfigUnlock vty with node := .ENABLE_NODE }
    | _ => vty
  { vtyPrompt vty with cp := 0 }

/-- `vty_delete_char` -/
def vtyDeleteChar (vty : Vty) : Except Halt Vty :=
  if inAuth vty.node then .ok vty
  else if vty.length = 0 then .ok (vtyDownLevel vty)
  else if vty.cp = vty.length then .ok vty
  else
    let size := vty.length - vty.cp
    let length := vty.length - 1
    (access ((Cells.memmove vty.cp (vty.cp + 1) (size - 1) vty.buf).bind
      (Cells.writeAt length 0))).bind fun buf =>
    (access (Cells.readAt vty.cp (size - 1) buf)).map fun w =>
      let vty := vtyWrite w { vty with buf := buf, length := length }
      let vty := vtyWrite [telnet_space_char] vty
      vtyWrite (List.replicate size telnet_backward_char) vty

/-- `vty_delete_backward_char` -/
def vtyDeleteBackwardChar (vty : Vty) : Except Halt Vty :=
  if vty.cp = 0 then .ok vty else vtyDeleteChar (vtyBackwardChar vty)

/-- `vty_kill_line` -/
def vtyKillLine (vty : Vty) : Except Halt Vty :=
  let size := vty.length - vty.cp
  if size = 0 then .ok vty
  else
    let vty := vtyWrite (List.replicate size telnet_space_char) vty
    let vty := vtyWrite (List.replicate size telnet_backward_char) vty
    (access (Cells.memset vty.cp size vty.buf)).map fun buf =>
      { vty with buf := buf, length := vty.cp }

/-- `vty_kill_line_from_beginning` -/
def vtyKillLineFromBeginning (vty : Vty) : Except Halt Vty :=
  (vtyBeginningOfLine vty).bind vtyKillLine

/-- `vty_forward_kill_word`; `fuel` bounds its loops. -/
def vtyForwardKillWord (fuel : Nat) (vty : Vty) : Except Halt Vty :=
  (whileDo (atChar true) vtyDeleteChar fuel vty).bind (whileDo (atChar false) vtyDeleteChar fuel)

/-- `vty_backward_kill_word` -/
def vtyBackwardKillWord (vty : Vty) : Except Halt Vty :=
  (whileDo (behindChar true) vtyDeleteBackwardChar (vty.cp + 1) vty).bind fun vty =>
    whileDo (behindChar false) vtyDeleteBackwardChar (vty.cp + 1) vty

/-- `vty_transpose_chars` -/
def vtyTransposeChars (grown : Nat → UInt8) (vty : Vty) : Except Halt Vty :=
  if vty.length < 2 ∨ vty.cp < 1 then .ok vty
  else if vty.cp = vty.length then
    (access vty.buf[vty.cp - 1]?).bind fun c1 =>
    (access vty.buf[vty.cp - 2]?).bind fun c2 =>
      (vtySelfInsertOverwrite grown c1 (vtyBackwardChar (vtyBackwardChar vty))).bind
        (vtySelfInsertOverwrite grown c2)
  else
    (access vty.buf[vty.cp]?).bind fun c1 =>
    (access vty.buf[vty.cp - 1]?).bind fun c2 =>
      (vtySelfInsertOverwrite grown c1 (vtyBackwardChar vty)).bind (vtySelfInsertOverwrite grown c2)

/-- `vty_redraw_line` -/
def vtyRedrawLine (vty : Vty) : Except Halt Vty :=
  (access (Cells.readAt 0 vty.length vty.buf)).map fun w => { vtyWrite w vty with cp := vty.length }

/-! ## History -/

/-- `vty_history_print` -/
def vtyHistoryPrint (vty : Vty) : Except Halt Vty :=
  (vtyKillLineFromBeginning vty).bind fun vty =>
  (access (vty.hist vty.hp)).bind fun line =>
  (access (Cells.copyTo line vty.buf)).bind fun buf =>
    vtyRedrawLine { vty with buf := buf, cp := line.length, length := line.length }

/-- `vty_next_line` -/
def vtyNextLine (vty : Vty) : Except Halt Vty :=
  if vty.hp = vty.hindex then .ok vty
  else
    let try_index := if vty.hp = VTY_MAXHIST - 1 then 0 else vty.hp + 1
    if vty.hist try_index = none then .ok vty else vtyHistoryPrint { vty with hp := try_index }

/-- `vty_previous_line` -/
def vtyPreviousLine (vty : Vty) : Except Halt Vty :=
  let try_index := if vty.hp = 0 then VTY_MAXHIST - 1 else vty.hp - 1
  if vty.hist try_index = none then .ok vty else vtyHistoryPrint { vty with hp := try_index }

/-- `vty_hist_add` -/
def vtyHistAdd (vty : Vty) : Except Halt Vty :=
  if vty.length = 0 then .ok vty
  else
    let index := if vty.hindex = 0 then VTY_MAXHIST - 1 else vty.hindex - 1
    (bufString vty).map fun line =>
      if vty.hist index = some line.bytes then { vty with hp := vty.hindex }
      else
        let hindex := if vty.hindex + 1 = VTY_MAXHIST then 0 else vty.hindex + 1
        { vty with
      hist := Function.update vty.hist vty.hindex (some line.bytes)
      hindex := hindex
      hp := hindex }

/-! ## Completion and description -/

/-- The words of the line, and the empty slot that is set behind a blank. -/
def lastWord (vline : List CString) (blank : Bool) : List CString × Option CString :=
  if blank then (vline, none) else (vline.dropLast, vline.getLast?)

/-- `isspace ((int) vty->buf[vty->length - 1])` -/
def endsBlank (vty : Vty) : Except Halt Bool :=
  if vty.length = 0 then .error .fault else (access vty.buf[vty.length - 1]?).map isSpace

/-- The text of a list of matches, six in a row; `%-10s ` pads each. -/
def matchedText : Nat → List Desc → List UInt8
  | _, [] => VTY_NEWLINE
  | i, s :: matched =>
    (if i ≠ 0 ∧ i % 6 = 0 then VTY_NEWLINE else []) ++ s ++ List.replicate
      (10 - s.length) 32 ++ [32] ++
      matchedText (i + 1) matched

/-- `vty_complete_command` -/
def vtyCompleteCommand (env : Env) (vty : Vty) : Except Halt Vty :=
  if inAuth vty.node then .ok vty
  else
    (bufString vty).bind fun line =>
    match cmdMakeStrvec line with
    | none => .ok vty
    | some vline =>
      (endsBlank vty).bind fun blank =>
      let words := lastWord vline blank
      let ret := cmdCompleteCommand env.matchers (env.cmdvec vty.node) words.1 words.2
      let vty := vtyOut VTY_NEWLINE vty
      match ret with
      | .CMD_ERR_AMBIGUOUS =>
        vtyRedrawLine (vtyPrompt (vtyOut (asciiBytes "% Ambiguous command." ++ VTY_NEWLINE) vty))
      | .CMD_ERR_NO_MATCH => vtyRedrawLine (vtyPrompt vty)
      | .CMD_COMPLETE_FULL_MATCH matched =>
        (vtyRedrawLine (vtyPrompt vty)).bind fun vty =>
        (vtyBackwardPureWord vty).bind fun vty =>
        (vtyInsertWordOverwrite matched vty).bind (vtySelfInsert env.grown 32)
      | .CMD_COMPLETE_MATCH matched =>
        (vtyRedrawLine (vtyPrompt vty)).bind fun vty =>
        (vtyBackwardPureWord vty).bind (vtyInsertWordOverwrite matched)
      | .CMD_COMPLETE_LIST_MATCH matched =>
        vtyRedrawLine (vtyPrompt (vtyOut (matchedText 0 matched) vty))
      | .CMD_ERR_NOTHING_TODO => vtyRedrawLine (vtyPrompt vty)

/-- `vty_describe_command` -/
def vtyDescribeCommand (env : Env) (vty : Vty) : Except Halt Vty :=
  (bufString vty).bind fun line =>
  (match cmdMakeStrvec line with
    | none => Except.ok ([], none)
    | some vline => (endsBlank vty).map (lastWord vline)).bind fun words =>
  vtyRedrawLine
    (vtyPrompt (vtyOut (env.describe words.1 words.2 vty.node) (vtyOut VTY_NEWLINE vty)))

/-! ## A line that is entered -/

/-- `vty_clear_buf` -/
def vtyClearBuf (vty : Vty) : Vty := { vty with buf := List.replicate vty.buf.length 0 }

/-- `vty_stop_input` -/
def vtyStopInput (vty : Vty) : Vty :=
  let vty := vtyOut VTY_NEWLINE (vtyClearBuf { vty with cp := 0, length := 0 })
  let vty := match vty.node with
    | .CONFIG_NODE | .INTERFACE_NODE | .ZEBRA_NODE | .RIP_NODE | .RIPNG_NODE | .BGP_NODE
        | .RMAP_NODE | .OSPF_NODE
    | .OSPF6_NODE | .KEYCHAIN_NODE | .KEYCHAIN_KEY_NODE | .MASC_NODE | .VTY_NODE =>
      { vtyConfigUnlock vty with node := .ENABLE_NODE }
    | _ => vty
  let vty := vtyPrompt vty
  { vty with hp := vty.hindex }

/-- `vty_auth` -/
def vtyAuth (env : Env) (buf : CString) (vty : Vty) : Vty :=
  let auth := vty.node = .AUTH_NODE
  let passwd := if auth then env.password_encrypt.orElse fun _ => env.password
    else env.enable_encrypt.orElse fun _ => env.enable
  let next_node := if auth then
      if env.advanced then if env.enable ≠ none then .VIEW_NODE else .ENABLE_NODE else .VIEW_NODE
    else .ENABLE_NODE
  if passwd = some buf.bytes then { vty with fail := 0, node := next_node }
  else
    let vty := { vty with fail := vty.fail + 1 }
    if 3 ≤ vty.fail then
      if auth then
        { vtyOut (asciiBytes "% Bad passwords, too many failures!" ++ VTY_NEWLINE)
          vty with status := .VTY_CLOSE }
      else
        let vty := vtyOut (asciiBytes "% Bad enable passwords, too many failures!" ++ VTY_NEWLINE)
          { vty with fail := 0 }
        { vty with node := .VIEW_NODE }
    else vty

/-- The message for what the command returned, as a `VTY_TERM` shows it. -/
def errorText : CmdError → Option (List UInt8)
  | .CMD_ERR_AMBIGUOUS => some (asciiBytes "% Ambiguous command.")
  | .CMD_ERR_NO_MATCH => some (asciiBytes "% Unknown command.")
  | .CMD_ERR_INCOMPLETE => some (asciiBytes "% Command incomplete.")
  | .CMD_ERR_EXEED_ARGC_MAX => none

/-- `vty_command` -/
def vtyCommand (env : Env) (buf : CString) (vty : Vty) : Vty :=
  match cmdMakeStrvec buf with
  | none => vty
  | some vline =>
    match cmdExecuteCommand env.matchers (env.cmdvec vty.node) vline with
    | .error e =>
      match errorText e with
      | some t => vtyOut (t ++ VTY_NEWLINE) vty
      | none => vty
    | .ok (element, argv) =>
      let effect := env.func element argv vty.node
      vtyOut effect.text { vty with
        node := effect.node, status := if effect.closes then .VTY_CLOSE else vty.status, config :=
          effect.config
        vty_config := effect.vty_config }

/-- `vty_execute` -/
def vtyExecute (env : Env) (vty : Vty) : Except Halt Vty :=
  (bufString vty).bind fun buf =>
  (if inAuth vty.node then .ok (vtyAuth env buf vty) else vtyHistAdd (vtyCommand env buf vty)).map
    fun vty =>
    let vty := vtyClearBuf { vty with cp := 0, length := 0 }
    if vty.status ≠ .VTY_CLOSE ∧ vty.status ≠ .VTY_START ∧ vty.status ≠ .VTY_CONTINUE then
      vtyPrompt vty else vty

/-! ## The bytes of a read -/

def IAC : UInt8 := 255
def SB : UInt8 := 250
def SE : UInt8 := 240
def TELOPT_NAWS : UInt8 := 31

/-- A `char` as an `int`. -/
def signedChar (c : UInt8) : Int := if c < 128 then c.toNat else (c.toNat : Int) - 256

/-- `vty_telnet_option` for the byte behind `IAC`: how many bytes it skips. -/
def vtyTelnetOption (c : UInt8) (vty : Vty) : Except Halt (Nat × Vty) :=
  if c = SB then .ok (0, { vty with sb_buffer := [], iac_sb_in_progress := true })
  else if c = SE then
    if !vty.iac_sb_in_progress then .ok (0, vty)
    else
      -- an empty buffer has no first block to point to
      (access vty.sb_buffer.head?).map fun first =>
        let vty := if first = TELOPT_NAWS ∧ 5 ≤ vty.sb_buffer.length then
            { vty with
              width := signedChar (vty.sb_buffer.getD 2 0)
              height := if 0 ≤ vty.lines then vty.lines else signedChar (vty.sb_buffer.getD 4 0) }
          else vty
        (0, { vty with iac_sb_in_progress := false })
  else .ok (1, vty)

/-- `vty_escape_map` -/
def vtyEscapeMap (c : UInt8) (vty : Vty) : Except Halt Vty :=
  (if c = 65 then vtyPreviousLine vty
    else if c = 66 then vtyNextLine vty
    else if c = 67 then vtyForwardChar vty
    else if c = 68 then .ok (vtyBackwardChar vty)
    else .ok vty).map fun vty => { vty with escape := .VTY_NORMAL }

/-- `vty_buffer_reset` -/
def vtyBufferReset (vty : Vty) : Except Halt Vty :=
  vtyRedrawLine
    (vtyPrompt { vty with out := vty.out.take (vty.out.length - vty.pending), pending := 0 })

/-- A byte while there is more to show; no command here has an `output_func`. -/
def moreByte (c : UInt8) (vty : Vty) : Except Halt Vty :=
  if c = 3 ∨ c = 113 ∨ c = 81 then vtyBufferReset vty
  else if c = 10 ∨ c = 13 then .ok { vty with status := .VTY_MORELINE }
  else .ok vty

/-- A byte behind an escape character. -/
def preEscapeByte (c : UInt8) (vty : Vty) : Except Halt Vty :=
  if c = 91 then .ok { vty with escape := .VTY_ESCAPE }
  else
    (if c = 98 then vtyBackwardWord vty
      else if c = 102 then vtyForwardWord vty
      else if c = 100 then vtyForwardKillWord (vty.length + 1) vty
      else if c = 8 ∨ c = 127 then vtyBackwardKillWord vty
      else .ok vty).map fun vty => { vty with escape := .VTY_NORMAL }

/-- `CONTROL(X)` -/
def control (x : UInt8) : UInt8 := x - 64

/-- The `switch` over the byte, but for the escape character. -/
def keyByte (env : Env) (c : UInt8) (vty : Vty) : Except Halt Vty :=
  if c = control 65 then vtyBeginningOfLine vty
  else if c = control 66 then .ok (vtyBackwardChar vty)
  else if c = control 67 then .ok (vtyStopInput vty)
  else if c = control 68 then vtyDeleteChar vty
  else if c = control 69 then vtyEndOfLine vty
  else if c = control 70 then vtyForwardChar vty
  else if c = control 72 ∨ c = 127 then vtyDeleteBackwardChar vty
  else if c = control 75 then vtyKillLine vty
  else if c = control 78 then vtyNextLine vty
  else if c = control 80 then vtyPreviousLine vty
  else if c = control 84 then vtyTransposeChars env.grown vty
  else if c = control 85 then vtyKillLineFromBeginning vty
  else if c = control 87 then vtyBackwardKillWord vty
  else if c = control 90 then .ok (vtyEndConfig vty)
  else if c = 10 ∨ c = 13 then vtyExecute env (vtyOut VTY_NEWLINE vty)
  else if c = 9 then vtyCompleteCommand env vty
  else if c = 63 then if inAuth vty.node then vtySelfInsert env.grown c vty
    else vtyDescribeCommand env vty
  else if 31 < c ∧ c < 127 then vtySelfInsert env.grown c vty
  else .ok vty

/-- The body of the loop in `vty_read`, with the byte behind in the same read; how many bytes
it skips. -/
def readByte (env : Env) (c : UInt8) (next : Option UInt8) (vty : Vty) : Except Halt (Nat × Vty) :=
  if c = IAC ∧ vty.iac = false then .ok (0, { vty with iac := true })
  else
    let vty := if c = IAC then { vty with iac := false } else vty
    if vty.iac_sb_in_progress ∧ vty.iac = false then
      .ok (0, { vty with sb_buffer := vty.sb_buffer ++ [c] })
    else if vty.iac then (vtyTelnetOption c vty).map fun r => (r.1, { r.2 with iac := false })
    else if vty.status = .VTY_MORE then (moreByte c vty).map fun vty => (0, vty)
    else if vty.escape = .VTY_ESCAPE then (vtyEscapeMap c vty).map fun vty => (0, vty)
    else if vty.escape = .VTY_PRE_ESCAPE then (preEscapeByte c vty).map fun vty => (0, vty)
    else if c = 27 then
      if next = some 91 then .ok (1, { vty with escape := .VTY_ESCAPE })
        else .ok (0, { vty with escape := .VTY_PRE_ESCAPE })
    else (keyByte env c vty).map fun vty => (0, vty)

/-- The loop, from where `skip` more bytes are skipped. -/
def readLoop : Nat → List (UInt8 × Env) → Vty → Except Halt (Nat × Vty)
  | skip, [], vty => .ok (skip, vty)
  | skip + 1, _ :: bytes, vty => readLoop skip bytes vty
  | 0, byte :: bytes, vty =>
    (readByte byte.2 byte.1 (bytes.head?.map Prod.fst) vty).bind fun r => readLoop r.1 bytes r.2

/-- `vty_read`; a status of `VTY_CLOSE` closes the terminal behind it. -/
def vtyRead (bytes : List (UInt8 × Env)) (vty : Vty) : Except Halt Vty :=
  (readLoop 0 bytes (if bytes = [] then { vty with status := .VTY_CLOSE } else vty)).map Prod.snd

/-- `vty_flush`, when all but `left` items have gone out. -/
def vtyFlush (left : Nat) (vty : Vty) : Vty :=
  { vty with pending := min left vty.pending, status := if min left vty.pending = 0 then
    .VTY_NORMAL else .VTY_MORE }

/-! ## Runs -/

/-- `vty_create`; `hello` is all that goes out in front of the first prompt. -/
def vtyCreate (env : Env) (no_password_check : Bool) (lines : Int) (hello : List UInt8)
    (vty_config : Bool) : Option Vty :=
  if !no_password_check ∧ env.password = none ∧ env.password_encrypt = none then none
  else some (vtyPrompt (vtyOut hello
    { node := if no_password_check then if env.advanced then .ENABLE_NODE
      else .VIEW_NODE else .AUTH_NODE
      fail := 0, out := [], pending := 0, buf := List.replicate VTY_BUFSIZ 0, cp := 0, length :=
        0, hist := fun _ => none
      hp := 0, hindex := 0, escape := .VTY_NORMAL, status := .VTY_NORMAL, iac :=
        false, iac_sb_in_progress := false
      sb_buffer := [], width := 0, height := 0, lines := if 0 ≤ lines then lines else -1, config :=
        false
      vty_config := vty_config }))

/-- What the thread of a terminal is called for. -/
inductive Event where
  | read (bytes : List (UInt8 × Env))
  | flush (left : Nat)

def handle : Event → Vty → Except Halt Vty
  | .read bytes, vty => vtyRead bytes vty
  | .flush left, vty => .ok (vtyFlush left vty)

/-- A terminal that closes is gone. -/
def run : List Event → Vty → Except Halt Vty
  | [], vty => .ok vty
  | event :: events, vty => if vty.status = .VTY_CLOSE then .ok vty
      else (handle event vty).bind (run events)

end NetmtVty
