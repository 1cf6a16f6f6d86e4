import Netmt.ExecOutput

/-!
# The client program

The `switch` of the client's `tcp_recv`, and the heartbeat it sends. What the
handlers ask of the outside world (whether a file opens, how much of a write
succeeds, the configured identity, what a command prints) is supplied by an
environment, one record for each frame.
-/
namespace NetmtClient

open NetmtCommand NetmtTcpRecv NetmtTransfer

/-- The globals of the client and what is local to one call. -/
structure Client where
  files : FileStore
  fp : Option StreamId
  filebytes : Int
  mutex : Bool
  /-- `sendbuf` is allocated and not yet freed -/
  sendbuf : Bool
  closed : Bool
  out : List Frame
  /-- number of frames handled, which picks the environment's answers -/
  tick : Nat

/-- Answers of the outside world for one frame. -/
structure Env where
  fopenOk : Bool
  /-- how much of a write succeeds; all of it for `none` -/
  fwriteLimit : Option Nat
  /-- the record that the configuration file yields -/
  identity : Region 200
  /-- the lines `fgets` delivers from the command, or `popen` failed -/
  output : Option (List (List UInt8))

/-- Every `fopen` and every `fwrite` succeeds, and no command starts. -/
def goodEnv : Nat → Env := fun _ => ⟨true, none, default, none⟩

def initial (files : FileStore) : Client :=
  ⟨files, none, 0, false, false, false, [], 0⟩

/-- `HV_ALLOC_SIZEOF(sendbuf)` at the start of a call. -/
def enter (c : Client) : Client := { c with sendbuf := true }

theorem enter_enter (c : Client) : enter (enter c) = enter c := rfl

theorem enter_eq {c : Client} (h : c.sendbuf = true) : enter c = c := by
  rw [enter, ← h]

/-- `hio_write(io, f, sizeof(*f))`; a closed connection takes nothing. -/
def hioWrite (c : Client) (f : Frame) : Client :=
  if c.closed then c else { c with out := c.out ++ [f] }

/-- `send_heartbeat` on a socket with descriptor `sock` at time `now`. -/
def sendHeartbeat (sock : Int) (now : Nat) : Frame :=
  let comm := ((default : Frame).putU32 commonid NETMT_HEARTBEAT).putU32 subcommonid NETMT_SUCCESS
  ((setLen comm).putI32 fd sock).putU64 lastSendPingTime now

def onHeartbeat (f : Frame) (c : Client) : Step Client :=
  if f.u32 subcommonid = NETMT_SUCCESS then
    if c.sendbuf = false then .fault .nullSendbuf
    else if f.u64 lastRecvPongTime < f.u64 lastSendPingTime then
      .next { c with closed := true, sendbuf := false }
    else .next c
  else .next c

def onRegister (e : Env) (f : Frame) (c : Client) : Step Client :=
  if c.sendbuf = false then .fault .nullSendbuf
  else .next (hioWrite c (f.put netmtclient e.identity.bytes))

/-- The frames that answer a request for a file with content `content`, after
`FILE_OPEN`, and the byte count. -/
def getFrames (f : Frame) (content : List UInt8) : List Frame × Int :=
  let opened := setLen (f.putU32 subcommonid NETMT_FILE_OPEN)
  let r := readLoop (Framing.chunks BUFFER_SIZE content) (opened.putU32 subcommonid NETMT_DATA) 0
  (opened :: (r.1 ++ [endFrame r.2.1 NETMT_GET_END r.2.2]), r.2.2)

def onGet (e : Env) (f : Frame) (tail : List UInt8) (c : Client) : Step Client :=
  if f.u32 subcommonid = NETMT_CLIENT then
    match cstrAt f tail remotefile with
    | none => .fault .outOfBounds
    | some path =>
      match (if e.fopenOk then c.files.openRead path else none) with
      | none => .leave { c with fp := none }
      | some (files, h) =>
        if c.sendbuf = false then .fault .nullSendbuf
        else if c.mutex then .fault .deadlock
        else
          let r := getFrames f (files.unread h)
          match files.close h with
          | none => .fault .closedFile
          | some files' =>
            .next { r.1.foldl hioWrite { c with files := files', fp := some h, filebytes := r.2 }
              with sendbuf := false }
  else .next c

def onSend (e : Env) (f : Frame) (tail : List UInt8) (c : Client) : Step Client :=
  if f.u32 subcommonid = NETMT_FILE_OPEN then
    match cstrAt f tail remotefile with
    | none => .fault .outOfBounds
    | some path =>
      if e.fopenOk then
        .next { c with files := (c.files.openWrite path).1, fp := some (c.files.openWrite path).2,
                       filebytes := 0 }
      else .leave { c with fp := none }
  else if f.u32 subcommonid = NETMT_DATA then
    if c.mutex then .fault .deadlock
    else
      match fwriteData c.files c.fp f tail e.fwriteLimit with
      | .error x => .fault x
      | .ok (files, n) =>
        let c' := { c with files := files, filebytes := Region.wrap32 (c.filebytes + n) }
        if n < f.i32 dataSize then .leave { c' with mutex := true } else .next c'
  else if f.u32 subcommonid = NETMT_SEND_END then
    match fcloseStream c.files c.fp with
    | .error x => .fault x
    | .ok files =>
      let c' := { c with files := files }
      if f.i32 byteSize = c.filebytes then
        if c.sendbuf = false then .fault .nullSendbuf
        else .next (hioWrite c' (f.putU32 subcommonid NETMT_SEND_SUCCESS))
      else .next c'
  else .next c

/-! ## Commands -/

def asciiBytes (s : String) : List UInt8 := s.toList.map fun ch => UInt8.ofNat ch.toNat

/-- `exec_command_with_return`: nothing is sent when `popen` failed. -/
def execCommandWithReturn (e : Env) (c : Client) : Step Client :=
  match e.output with
  | none => .next c
  | some lines =>
    match NetmtExecOutput.execCommandWithReturn lines with
    | .error x => .fault x
    | .ok r => .next (hioWrite c r.2)

/-- `exec_command("ifconfig")`: the output is only printed. -/
def execCommand (e : Env) (c : Client) : Step Client :=
  match e.output with
  | none => .next c
  | some _ =>
    .next (hioWrite c
      (setLen ((((default : Frame).put cmdstr (asciiBytes "shell exec success." ++ [0])).putU32
      commonid NETMT_EXEC).putU32 subcommonid NETMT_EXEC_SHELL_SUCCESS)))

/-- `str[len-1]` is a line end, so the text is rewritten in place and not run. -/
def endsInLine (f : Frame) : Bool :=
  let eol := f.bytes[cmdstr + 1023]?
  eol = some 10 || eol = some 13

/-- The line end is no CR LF, which is then written over it and the byte behind. -/
def completesLine (f : Frame) : Bool :=
  endsInLine f && !(f.bytes[cmdstr + 1022]? = some 13 && f.bytes[cmdstr + 1023]? = some 10)

def onExec (e : Env) (f : Frame) (tail : List UInt8) (c : Client) : Step Client :=
  match cstrAt f tail cmdstr with
  | none => .fault .outOfBounds
  | some origin =>
    -- `origin` has 1024 bytes
    if BUFFER_SIZE ≤ origin.length then .fault .localBuffer
    else if endsInLine f then .next c
    else if (asciiBytes "ifconfig cmd").isPrefixOf origin then execCommand e c
    else execCommandWithReturn e c

/-- The `switch` on a whole frame. -/
def switch (e : Env) (f : Frame) (tail : List UInt8) (c : Client) : Step Client :=
  if f.u32 commonid = NETMT_HEARTBEAT then onHeartbeat f c
  else if f.u32 commonid = NETMT_REGISTER then onRegister e f c
  else if f.u32 commonid = NETMT_GET then onGet e f tail c
  else if f.u32 commonid = NETMT_SEND then onSend e f tail c
  else if f.u32 commonid = NETMT_EXEC then onExec e f tail c
  else .next c

section Cases

variable {e : Env} {f : Frame} {tail : List UInt8} {c : Client}

theorem switch_heartbeat (hid : f.u32 commonid = NETMT_HEARTBEAT) :
    switch e f tail c = onHeartbeat f c := by
  rw [switch, if_pos hid]

theorem switch_register (hid : f.u32 commonid = NETMT_REGISTER) :
    switch e f tail c = onRegister e f c := by
  rw [switch, hid, if_neg (by decide), if_pos rfl]

theorem switch_get (hid : f.u32 commonid = NETMT_GET) : switch e f tail c = onGet e f tail c := by
  rw [switch, hid, if_neg (by decide), if_neg (by decide), if_pos rfl]

theorem switch_send (hid : f.u32 commonid = NETMT_SEND) :
    switch e f tail c = onSend e f tail c := by
  rw [switch, hid, if_neg (by decide), if_neg (by decide), if_neg (by decide), if_pos rfl]

theorem switch_exec (hid : f.u32 commonid = NETMT_EXEC) :
    switch e f tail c = onExec e f tail c := by
  rw [switch, hid, if_neg (by decide), if_neg (by decide), if_neg (by decide),
    if_neg (by decide), if_pos rfl]

/-- The commands that have a case. -/
def commands : List Nat := [NETMT_HEARTBEAT, NETMT_REGISTER, NETMT_GET, NETMT_SEND, NETMT_EXEC]

theorem switch_other (hid : f.u32 commonid ∉ commands) : switch e f tail c = .next c := by
  simp only [commands, List.mem_cons, List.not_mem_nil, or_false, not_or] at hid
  obtain ⟨hbeat, hreg, hget, hsend, hexec⟩ := hid
  rw [switch, if_neg hbeat, if_neg hreg, if_neg hget, if_neg hsend, if_neg hexec]

theorem command_cases (id : Nat) : id = NETMT_HEARTBEAT ∨ id = NETMT_REGISTER ∨ id = NETMT_GET ∨
    id = NETMT_SEND ∨ id = NETMT_EXEC ∨ id ∉ commands := by
  by_cases hid : id ∈ commands
  · simp only [commands, List.mem_cons, List.not_mem_nil, or_false] at hid
    tauto
  · exact Or.inr (Or.inr (Or.inr (Or.inr (Or.inr hid))))

end Cases

/-! ## How far the handlers look -/

/-- `memcpy(sendbuf, comm, sizeof(*sendbuf))`, if there is a `sendbuf`. -/
def copyReach (first : Nat) (c : Client) : Option Nat := some (if c.sendbuf then 5168 else first)

def heartbeatReach (f : Frame) (c : Client) : Option Nat :=
  if f.u32 subcommonid = NETMT_SUCCESS then copyReach 16 c else some 16

/-- The name of the file, and the whole frame once the file is open. -/
def getReach (e : Env) (f : Frame) (tail : List UInt8) (c : Client) : Option Nat :=
  if f.u32 subcommonid = NETMT_CLIENT then
    match (cstrAt f tail remotefile).bind fun path =>
      if e.fopenOk then c.files.openRead path else none with
    | none => cstrReach f tail remotefile
    | some _ => (cstrReach f tail remotefile).map fun n => if c.sendbuf then max n 5168 else n
  else some 16

def sendReach (f : Frame) (tail : List UInt8) (c : Client) : Option Nat :=
  if f.u32 subcommonid = NETMT_FILE_OPEN then cstrReach f tail remotefile
  else if f.u32 subcommonid = NETMT_DATA then
    if c.mutex then some 16 else fwriteReach c.fp f
  else if f.u32 subcommonid = NETMT_SEND_END then
    match fcloseStream c.files c.fp with
    | .error _ => some 16
    | .ok _ => if f.i32 byteSize = c.filebytes then copyReach 2612 c else some 2612
  else some 16

/-- The command, and unless it fills `origin` the last byte of `cmdstr`, and the byte behind it
when a line end is completed. -/
def execReach (f : Frame) (tail : List UInt8) : Option Nat :=
  (cstrReach f tail cmdstr).map fun n =>
    if cmdstr + BUFFER_SIZE < n then n
    else max n (if completesLine f then 1073 else 1072)

/-- The bytes of `*comm` that the `switch` looks at. -/
def reach (e : Env) (f : Frame) (tail : List UInt8) (c : Client) : Option Nat :=
  if f.u32 commonid = NETMT_HEARTBEAT then heartbeatReach f c
  else if f.u32 commonid = NETMT_REGISTER then copyReach 12 c
  else if f.u32 commonid = NETMT_GET then getReach e f tail c
  else if f.u32 commonid = NETMT_SEND then sendReach f tail c
  else if f.u32 commonid = NETMT_EXEC then execReach f tail
  else some 12

section Reaches

variable {e : Env} {f : Frame} {tail : List UInt8} {c : Client}

theorem reach_heartbeat (hid : f.u32 commonid = NETMT_HEARTBEAT) :
    reach e f tail c = heartbeatReach f c := by
  rw [reach, if_pos hid]

theorem reach_register (hid : f.u32 commonid = NETMT_REGISTER) :
    reach e f tail c = copyReach 12 c := by
  rw [reach, hid, if_neg (by decide), if_pos rfl]

theorem reach_get (hid : f.u32 commonid = NETMT_GET) : reach e f tail c = getReach e f tail c := by
  rw [reach, hid, if_neg (by decide), if_neg (by decide), if_pos rfl]

theorem reach_send (hid : f.u32 commonid = NETMT_SEND) : reach e f tail c = sendReach f tail c := by
  rw [reach, hid, if_neg (by decide), if_neg (by decide), if_neg (by decide), if_pos rfl]

theorem reach_exec (hid : f.u32 commonid = NETMT_EXEC) : reach e f tail c = execReach f tail := by
  rw [reach, hid, if_neg (by decide), if_neg (by decide), if_neg (by decide),
    if_neg (by decide), if_pos rfl]

theorem reach_other (hid : f.u32 commonid ∉ commands) : reach e f tail c = some 12 := by
  simp only [commands, List.mem_cons, List.not_mem_nil, or_false, not_or] at hid
  obtain ⟨hbeat, hreg, hget, hsend, hexec⟩ := hid
  rw [reach, if_neg hbeat, if_neg hreg, if_neg hget, if_neg hsend, if_neg hexec]

end Reaches

/-- `NETMT_EXEC` rewrites a line end at the end of `cmdstr` in place. -/
def edit (db : Databuf) (off : Int) (f : Frame) : Databuf :=
  if f.u32 commonid = NETMT_EXEC ∧ completesLine f = true then
    db.put (off.toNat + cmdstr + 1023) [13, 10]
  else db

/-- The `switch` of the client's `tcp_recv`. -/
def handle (env : Nat → Env) : Handler Client := fun db off c =>
  let c' := { c with tick := c.tick + 1 }
  onComm db off (fun f tail => reach (env c.tick) f tail c') fun f tail =>
    (switch (env c.tick) f tail c').lift (edit db off f)

/-- The client's `tcp_recv`. -/
def tcpRecv (env : Nat → Env) : List UInt8 → Rx → Client → Result Client :=
  NetmtTcpRecv.tcpRecv (handle env) enter

/-! ## The branches -/

/-- What `onHeartbeat` comes to, one constructor for each branch. -/
inductive HeartbeatStep (f : Frame) (c : Client) : Step Client → Prop where
  | nullSendbuf : f.u32 subcommonid = NETMT_SUCCESS → c.sendbuf = false →
      HeartbeatStep f c (.fault .nullSendbuf)
  | stale : f.u32 subcommonid = NETMT_SUCCESS → c.sendbuf = true →
      f.u64 lastRecvPongTime < f.u64 lastSendPingTime →
      HeartbeatStep f c (.next { c with closed := true, sendbuf := false })
  | answered : f.u32 subcommonid = NETMT_SUCCESS → c.sendbuf = true →
      ¬ f.u64 lastRecvPongTime < f.u64 lastSendPingTime → HeartbeatStep f c (.next c)
  | other : f.u32 subcommonid ≠ NETMT_SUCCESS → HeartbeatStep f c (.next c)

/-- What `onGet` comes to. -/
inductive GetStep (e : Env) (f : Frame) (tail : List UInt8) (c : Client) : Step Client → Prop where
  | unterminated : f.u32 subcommonid = NETMT_CLIENT → cstrAt f tail remotefile = none →
      GetStep e f tail c (.fault .outOfBounds)
  | notOpened {path : List UInt8} : f.u32 subcommonid = NETMT_CLIENT →
      cstrAt f tail remotefile = some path →
      (if e.fopenOk then c.files.openRead path else none) = none →
      GetStep e f tail c (.leave { c with fp := none })
  | nullSendbuf {path : List UInt8} {files : FileStore} {h : StreamId} :
      f.u32 subcommonid = NETMT_CLIENT →
      cstrAt f tail remotefile = some path →
      (if e.fopenOk then c.files.openRead path else none) = some (files, h) → c.sendbuf = false →
      GetStep e f tail c (.fault .nullSendbuf)
  | locked {path : List UInt8} {files : FileStore} {h : StreamId} :
      f.u32 subcommonid = NETMT_CLIENT →
      cstrAt f tail remotefile = some path →
      (if e.fopenOk then c.files.openRead path else none) = some (files, h) → c.sendbuf = true →
      c.mutex = true → GetStep e f tail c (.fault .deadlock)
  | unclosed {path : List UInt8} {files : FileStore} {h : StreamId} :
      f.u32 subcommonid = NETMT_CLIENT →
      cstrAt f tail remotefile = some path →
      (if e.fopenOk then c.files.openRead path else none) = some (files, h) → c.sendbuf = true →
      c.mutex = false → files.close h = none → GetStep e f tail c (.fault .closedFile)
  | sent {path : List UInt8} {files files' : FileStore} {h : StreamId} :
      f.u32 subcommonid = NETMT_CLIENT →
      cstrAt f tail remotefile = some path →
      (if e.fopenOk then c.files.openRead path else none) = some (files, h) → c.sendbuf = true →
      c.mutex = false → files.close h = some files' →
      GetStep e f tail c (.next { (getFrames f (files.unread h)).1.foldl hioWrite
        { c with files := files', fp := some h, filebytes := (getFrames f (files.unread h)).2 }
          with sendbuf := false })
  | other : f.u32 subcommonid ≠ NETMT_CLIENT → GetStep e f tail c (.next c)

/-- What `onSend` comes to. -/
inductive SendStep (e : Env) (f : Frame) (tail : List UInt8) (c : Client) : Step Client → Prop where
  | unterminated : f.u32 subcommonid = NETMT_FILE_OPEN → cstrAt f tail remotefile = none →
      SendStep e f tail c (.fault .outOfBounds)
  | opened {path : List UInt8} : f.u32 subcommonid = NETMT_FILE_OPEN →
      cstrAt f tail remotefile = some path → e.fopenOk = true →
      SendStep e f tail c (.next { c with files := (c.files.openWrite path).1,
                                          fp := some (c.files.openWrite path).2, filebytes := 0 })
  | notOpened {path : List UInt8} : f.u32 subcommonid = NETMT_FILE_OPEN →
      cstrAt f tail remotefile = some path → e.fopenOk = false →
      SendStep e f tail c (.leave { c with fp := none })
  | locked : f.u32 subcommonid = NETMT_DATA → c.mutex = true →
      SendStep e f tail c (.fault .deadlock)
  | unwritten {x : Fault} : f.u32 subcommonid = NETMT_DATA → c.mutex = false →
      fwriteData c.files c.fp f tail e.fwriteLimit = .error x → SendStep e f tail c (.fault x)
  | written {files : FileStore} {n : Int} : f.u32 subcommonid = NETMT_DATA → c.mutex = false →
      fwriteData c.files c.fp f tail e.fwriteLimit = .ok (files, n) → ¬ n < f.i32 dataSize →
      SendStep e f tail c
        (.next { c with files := files, filebytes := Region.wrap32 (c.filebytes + n) })
  | short {files : FileStore} {n : Int} : f.u32 subcommonid = NETMT_DATA → c.mutex = false →
      fwriteData c.files c.fp f tail e.fwriteLimit = .ok (files, n) → n < f.i32 dataSize →
      SendStep e f tail c
        (.leave { c with files := files, filebytes := Region.wrap32 (c.filebytes + n),
                                           mutex := true })
  | unclosed {x : Fault} : f.u32 subcommonid = NETMT_SEND_END →
      fcloseStream c.files c.fp = .error x → SendStep e f tail c (.fault x)
  | nullSendbuf {files : FileStore} : f.u32 subcommonid = NETMT_SEND_END →
      fcloseStream c.files c.fp = .ok files → f.i32 byteSize = c.filebytes → c.sendbuf = false →
      SendStep e f tail c (.fault .nullSendbuf)
  | complete {files : FileStore} : f.u32 subcommonid = NETMT_SEND_END →
      fcloseStream c.files c.fp = .ok files → f.i32 byteSize = c.filebytes → c.sendbuf = true →
      SendStep e f tail c
        (.next (hioWrite { c with files := files } (f.putU32 subcommonid NETMT_SEND_SUCCESS)))
  | incomplete {files : FileStore} : f.u32 subcommonid = NETMT_SEND_END →
      fcloseStream c.files c.fp = .ok files → f.i32 byteSize ≠ c.filebytes →
      SendStep e f tail c (.next { c with files := files })
  | other : f.u32 subcommonid ≠ NETMT_FILE_OPEN → f.u32 subcommonid ≠ NETMT_DATA →
      f.u32 subcommonid ≠ NETMT_SEND_END → SendStep e f tail c (.next c)

/-- What `onExec` comes to. -/
inductive ExecStep (e : Env) (f : Frame) (tail : List UInt8) (c : Client) : Step Client → Prop where
  | unterminated : cstrAt f tail cmdstr = none → ExecStep e f tail c (.fault .outOfBounds)
  | tooLong {origin : List UInt8} : cstrAt f tail cmdstr = some origin →
      BUFFER_SIZE ≤ origin.length →
      ExecStep e f tail c (.fault .localBuffer)
  | line {origin : List UInt8} : cstrAt f tail cmdstr = some origin →
      ¬ BUFFER_SIZE ≤ origin.length →
      endsInLine f = true → ExecStep e f tail c (.next c)
  | notRun {origin : List UInt8} : cstrAt f tail cmdstr = some origin →
      ¬ BUFFER_SIZE ≤ origin.length →
      endsInLine f = false → e.output = none → ExecStep e f tail c (.next c)
  | printed {origin : List UInt8} {lines : List (List UInt8)} : cstrAt f tail cmdstr = some origin →
      ¬ BUFFER_SIZE ≤ origin.length → endsInLine f = false →
      (asciiBytes "ifconfig cmd").isPrefixOf origin = true → e.output = some lines →
      ExecStep e f tail c (.next (hioWrite c (setLen ((((default : Frame).put cmdstr
        (asciiBytes "shell exec success." ++ [0])).putU32 commonid NETMT_EXEC).putU32 subcommonid
          NETMT_EXEC_SHELL_SUCCESS))))
  | overflow {origin : List UInt8} {lines : List (List UInt8)} {x : Fault} :
      cstrAt f tail cmdstr = some origin →
      ¬ BUFFER_SIZE ≤ origin.length → endsInLine f = false →
      (asciiBytes "ifconfig cmd").isPrefixOf origin = false → e.output = some lines →
      NetmtExecOutput.execCommandWithReturn lines = .error x → ExecStep e f tail c (.fault x)
  | returned {origin : List UInt8} {lines : List (List UInt8)}
      {r : NetmtExecOutput.Collected × Frame} :
      cstrAt f tail cmdstr = some origin → ¬ BUFFER_SIZE ≤ origin.length → endsInLine f = false →
      (asciiBytes "ifconfig cmd").isPrefixOf origin = false → e.output = some lines →
      NetmtExecOutput.execCommandWithReturn lines = .ok r →
      ExecStep e f tail c (.next (hioWrite c r.2))

section Branches

variable {e : Env} {f : Frame} {tail : List UInt8} {c : Client} {st : Step Client}

theorem HeartbeatStep.run (h : HeartbeatStep f c st) : onHeartbeat f c = st := by
  cases h with
  | nullSendbuf hsub hbuf => rw [onHeartbeat, if_pos hsub, if_pos hbuf]
  | stale hsub hbuf hstale => rw [onHeartbeat, if_pos hsub, if_neg (by simp [hbuf]), if_pos hstale]
  | answered hsub hbuf hfresh =>
    rw [onHeartbeat, if_pos hsub, if_neg (by simp [hbuf]), if_neg hfresh]
  | other hsub => rw [onHeartbeat, if_neg hsub]

theorem onHeartbeat_cases (f : Frame) (c : Client) : HeartbeatStep f c (onHeartbeat f c) := by
  rw [onHeartbeat]
  split
  · next hsub =>
    split
    · next hbuf => exact .nullSendbuf hsub hbuf
    · next hbuf =>
      have halloc := Bool.eq_true_of_not_eq_false hbuf
      split
      · next hstale => exact .stale hsub halloc hstale
      · next hfresh => exact .answered hsub halloc hfresh
  · next hsub => exact .other hsub

theorem onHeartbeat_iff : onHeartbeat f c = st ↔ HeartbeatStep f c st :=
  ⟨fun h => h ▸ onHeartbeat_cases f c, HeartbeatStep.run⟩

theorem GetStep.run (h : GetStep e f tail c st) : onGet e f tail c = st := by
  cases h with
  | unterminated hsub hpath => simp only [onGet, if_pos hsub, hpath]
  | notOpened hsub hpath hopen => simp only [onGet, if_pos hsub, hpath, hopen]
  | nullSendbuf hsub hpath hopen hbuf => simp only [onGet, if_pos hsub, hpath, hopen, if_pos hbuf]
  | locked hsub hpath hopen hbuf hm =>
    simp only [onGet, if_pos hsub, hpath, hopen, hbuf, Bool.true_eq_false, if_false, if_pos hm]
  | unclosed hsub hpath hopen hbuf hm hclose =>
    simp only [onGet, if_pos hsub, hpath, hopen, hbuf, hm, Bool.true_eq_false, Bool.false_eq_true,
      if_false, hclose]
  | sent hsub hpath hopen hbuf hm hclose =>
    simp only [onGet, if_pos hsub, hpath, hopen, hbuf, hm, Bool.true_eq_false, Bool.false_eq_true,
      if_false, hclose]
  | other hsub => rw [onGet, if_neg hsub]

theorem onGet_cases (e : Env) (f : Frame) (tail : List UInt8) (c : Client) :
    GetStep e f tail c (onGet e f tail c) := by
  simp only [onGet]
  split
  · next hsub =>
    split
    · next hpath => exact .unterminated hsub hpath
    · next path hpath =>
      split
      · next hopen => exact .notOpened hsub hpath hopen
      · next files h hopen =>
        split
        · next hbuf => exact .nullSendbuf hsub hpath hopen hbuf
        · next hbuf =>
          have halloc := Bool.eq_true_of_not_eq_false hbuf
          split
          · next hm => exact .locked hsub hpath hopen halloc hm
          · next hm =>
            have hunlocked := Bool.eq_false_iff.mpr hm
            split
            · next hclose => exact .unclosed hsub hpath hopen halloc hunlocked hclose
            · next files' hclose => exact .sent hsub hpath hopen halloc hunlocked hclose
  · next hsub => exact .other hsub

theorem onGet_iff : onGet e f tail c = st ↔ GetStep e f tail c st :=
  ⟨fun h => h ▸ onGet_cases e f tail c, GetStep.run⟩

theorem SendStep.run (h : SendStep e f tail c st) : onSend e f tail c = st := by
  cases h with
  | unterminated hsub hpath => simp only [onSend, if_pos hsub, hpath]
  | opened hsub hpath hopen => simp only [onSend, if_pos hsub, hpath, hopen, if_true]
  | notOpened hsub hpath hopen =>
    simp only [onSend, if_pos hsub, hpath, hopen, Bool.false_eq_true, if_false]
  | locked hsub hm => rw [onSend, hsub, if_neg (by decide), if_pos rfl, if_pos hm]
  | unwritten hsub hm hwrite =>
    rw [onSend, hsub, if_neg (by decide), if_pos rfl, if_neg (by simp [hm]), hwrite]
  | written hsub hm hwrite hfull =>
    rw [onSend, hsub, if_neg (by decide), if_pos rfl, if_neg (by simp [hm]), hwrite]
    exact if_neg hfull
  | short hsub hm hwrite hshort =>
    rw [onSend, hsub, if_neg (by decide), if_pos rfl, if_neg (by simp [hm]), hwrite]
    exact if_pos hshort
  | unclosed hsub hclose =>
    rw [onSend, hsub, if_neg (by decide), if_neg (by decide), if_pos rfl, hclose]
  | nullSendbuf hsub hclose hsize hbuf =>
    rw [onSend, hsub, if_neg (by decide), if_neg (by decide), if_pos rfl, hclose]
    exact (if_pos hsize).trans (if_pos hbuf)
  | complete hsub hclose hsize hbuf =>
    rw [onSend, hsub, if_neg (by decide), if_neg (by decide), if_pos rfl, hclose]
    exact (if_pos hsize).trans (if_neg (by simp [hbuf]))
  | incomplete hsub hclose hsize =>
    rw [onSend, hsub, if_neg (by decide), if_neg (by decide), if_pos rfl, hclose]
    exact if_neg hsize
  | other hopen hdata hend => rw [onSend, if_neg hopen, if_neg hdata, if_neg hend]

theorem onSend_cases (e : Env) (f : Frame) (tail : List UInt8) (c : Client) :
    SendStep e f tail c (onSend e f tail c) := by
  simp only [onSend]
  split
  · next hsub =>
    split
    · next hpath => exact .unterminated hsub hpath
    · next path hpath =>
      split
      · next hopen => exact .opened hsub hpath hopen
      · next hopen => exact .notOpened hsub hpath (Bool.eq_false_iff.mpr hopen)
  · next hopened =>
    split
    · next hsub =>
      split
      · next hm => exact .locked hsub hm
      · next hm =>
        have hunlocked := Bool.eq_false_iff.mpr hm
        split
        · next x hwrite => exact .unwritten hsub hunlocked hwrite
        · next files n hwrite =>
          split
          · next hshort => exact .short hsub hunlocked hwrite hshort
          · next hfull => exact .written hsub hunlocked hwrite hfull
    · next hdata =>
      split
      · next hsub =>
        split
        · next x hclose => exact .unclosed hsub hclose
        · next files hclose =>
          split
          · next hsize =>
            split
            · next hbuf => exact .nullSendbuf hsub hclose hsize hbuf
            · next hbuf => exact .complete hsub hclose hsize (Bool.eq_true_of_not_eq_false hbuf)
          · next hsize => exact .incomplete hsub hclose hsize
      · next hend => exact .other hopened hdata hend

theorem onSend_iff : onSend e f tail c = st ↔ SendStep e f tail c st :=
  ⟨fun h => h ▸ onSend_cases e f tail c, SendStep.run⟩

theorem ExecStep.run (h : ExecStep e f tail c st) : onExec e f tail c = st := by
  cases h with
  | unterminated htext => rw [onExec, htext]
  | tooLong htext hlong => simp only [onExec, htext, if_pos hlong]
  | line htext hroom hline => simp only [onExec, htext, if_neg hroom, hline, if_true]
  | notRun htext hroom hline hrun =>
    simp only [onExec, htext, if_neg hroom, hline, Bool.false_eq_true, execCommand,
      execCommandWithReturn, hrun, ite_self]
  | printed htext hroom hline hcmd hrun =>
    simp only [onExec, htext, if_neg hroom, hline, Bool.false_eq_true, if_false, hcmd, if_true,
      execCommand, hrun]
  | overflow htext hroom hline hcmd hrun hout =>
    simp only [onExec, htext, if_neg hroom, hline, hcmd, Bool.false_eq_true, if_false,
      execCommandWithReturn, hrun, hout]
  | returned htext hroom hline hcmd hrun hout =>
    simp only [onExec, htext, if_neg hroom, hline, hcmd, Bool.false_eq_true, if_false,
      execCommandWithReturn, hrun, hout]

theorem onExec_cases (e : Env) (f : Frame) (tail : List UInt8) (c : Client) :
    ExecStep e f tail c (onExec e f tail c) := by
  simp only [onExec]
  split
  · next htext => exact .unterminated htext
  · next origin htext =>
    split
    · next hlong => exact .tooLong htext hlong
    · next hroom =>
      split
      · next hline => exact .line htext hroom hline
      · next hline =>
        have hcommand := Bool.eq_false_iff.mpr hline
        split
        · next hcmd =>
          rw [execCommand]
          split
          · next hrun => exact .notRun htext hroom hcommand hrun
          · next lines hrun => exact .printed htext hroom hcommand hcmd hrun
        · next hcmd =>
          have hshell := Bool.eq_false_iff.mpr hcmd
          rw [execCommandWithReturn]
          split
          · next hrun => exact .notRun htext hroom hcommand hrun
          · next lines hrun =>
            split
            · next x hout => exact .overflow htext hroom hcommand hshell hrun hout
            · next r hout => exact .returned htext hroom hcommand hshell hrun hout

theorem onExec_iff : onExec e f tail c = st ↔ ExecStep e f tail c st :=
  ⟨fun h => h ▸ onExec_cases e f tail c, ExecStep.run⟩

/-! ## Inside the buffer -/

theorem copyReach_inside (first : Nat) (hfirst : first ≤ 5168) (c : Client) (tail : List UInt8) :
    ∃ n ∈ copyReach first c, n ≤ 5168 + tail.length :=
  ⟨_, rfl, by split <;> omega⟩

/-- What is looked at besides a string lies in the frame. -/
theorem cstrReach_map {off : Nat} (hoff : off ≤ 5168) {g : Nat → Nat}
    (hg : ∀ n, g n = n ∨ ∃ k, k ≤ 5168 ∧ g n = max n k) :
    (∃ n ∈ (cstrReach f tail off).map g, n ≤ 5168 + tail.length) ↔ cstrAt f tail off ≠ none := by
  rw [← cstrReach_iff hoff]
  have hle : ∀ n, g n ≤ 5168 + tail.length ↔ n ≤ 5168 + tail.length := by
    intro n
    rcases hg n with h | ⟨k, hk, h⟩ <;> rw [h]
    omega
  constructor
  · rintro ⟨m, hm, hfit⟩
    obtain ⟨n, hn, rfl⟩ := Option.map_eq_some_iff.mp hm
    exact ⟨n, hn, (hle n).mp hfit⟩
  · rintro ⟨n, hn, hfit⟩
    exact ⟨g n, Option.map_eq_some_iff.mpr ⟨n, hn, rfl⟩, (hle n).mpr hfit⟩

theorem onGet_inside : (∃ n ∈ getReach e f tail c, n ≤ 5168 + tail.length) ↔
    onGet e f tail c ≠ .fault .outOfBounds := by
  -- once the name has its end, and the file is open, there is the whole frame
  have hopened : ∀ {path : List UInt8} {files : FileStore} {h : StreamId},
    f.u32 subcommonid = NETMT_CLIENT →
      cstrAt f tail remotefile = some path →
      (if e.fopenOk then c.files.openRead path else none) = some (files, h) →
      ∃ n ∈ getReach e f tail c, n ≤ 5168 + tail.length := by
    intro path files h hsub hpath hopen
    rw [getReach, if_pos hsub, hpath, Option.bind_some, hopen]
    refine (cstrReach_map (by decide) fun n => ?_).mpr (by rw [hpath]; exact Option.some_ne_none _)
    split
    · exact .inr ⟨5168, le_refl _, rfl⟩
    · exact .inl rfl
  have hstep := onGet_cases e f tail c
  generalize onGet e f tail c = st at hstep
  cases hstep with
  | unterminated hsub hpath =>
    rw [getReach, if_pos hsub, hpath, Option.bind_none, cstrReach_iff (by decide), hpath]
    exact iff_of_false (fun h => h rfl) (fun h => h rfl)
  | notOpened hsub hpath hopen =>
    rw [getReach, if_pos hsub, hpath, Option.bind_some, hopen, cstrReach_iff (by decide), hpath]
    exact iff_of_true (Option.some_ne_none _) (fun h => by cases h)
  | nullSendbuf hsub hpath hopen =>
    exact iff_of_true (hopened hsub hpath hopen) (fun h => by cases h)
  | locked hsub hpath hopen => exact iff_of_true (hopened hsub hpath hopen) (fun h => by cases h)
  | unclosed hsub hpath hopen => exact iff_of_true (hopened hsub hpath hopen) (fun h => by cases h)
  | sent hsub hpath hopen => exact iff_of_true (hopened hsub hpath hopen) (fun h => by cases h)
  | other hsub =>
    rw [getReach, if_neg hsub]
    exact iff_of_true ⟨16, rfl, by omega⟩ (fun h => by cases h)

theorem onSend_inside : (∃ n ∈ sendReach f tail c, n ≤ 5168 + tail.length) ↔
    onSend e f tail c ≠ .fault .outOfBounds := by
  have hstep := onSend_cases e f tail c
  generalize onSend e f tail c = st at hstep
  cases hstep with
  | unterminated hsub hpath =>
    rw [sendReach, if_pos hsub, cstrReach_iff (by decide), hpath]
    exact iff_of_false (fun h => h rfl) (fun h => h rfl)
  | opened hsub hpath hopen =>
    rw [sendReach, if_pos hsub, cstrReach_iff (by decide), hpath]
    exact iff_of_true (Option.some_ne_none _) (fun h => by cases h)
  | notOpened hsub hpath hopen =>
    rw [sendReach, if_pos hsub, cstrReach_iff (by decide), hpath]
    exact iff_of_true (Option.some_ne_none _) (fun h => by cases h)
  | locked hsub hm =>
    rw [sendReach, hsub, if_neg (by decide), if_pos rfl, if_pos hm]
    exact iff_of_true ⟨16, rfl, by omega⟩ (fun h => by cases h)
  | unwritten hsub hm hwrite =>
    rw [sendReach, hsub, if_neg (by decide), if_pos rfl, if_neg (by simp [hm]),
      fwriteReach_iff, hwrite]
    exact not_congr ⟨fun h => by cases h; rfl, fun h => by cases h; rfl⟩
  | written hsub hm hwrite hfull =>
    rw [sendReach, hsub, if_neg (by decide), if_pos rfl, if_neg (by simp [hm]),
      fwriteReach_iff, hwrite]
    exact iff_of_true (fun h => by cases h) (fun h => by cases h)
  | short hsub hm hwrite hshort =>
    rw [sendReach, hsub, if_neg (by decide), if_pos rfl, if_neg (by simp [hm]),
      fwriteReach_iff, hwrite]
    exact iff_of_true (fun h => by cases h) (fun h => by cases h)
  | unclosed hsub hclose =>
    rw [sendReach, hsub, if_neg (by decide), if_neg (by decide), if_pos rfl, hclose]
    refine iff_of_true ⟨16, rfl, by omega⟩ fun h => ?_
    rcases fcloseStream_error hclose with rfl | rfl <;> cases h
  | nullSendbuf hsub hclose hsize hbuf =>
    rw [sendReach, hsub, if_neg (by decide), if_neg (by decide), if_pos rfl, hclose]
    simp only [if_pos hsize]
    exact iff_of_true (copyReach_inside _ (by decide) c tail) (fun h => by cases h)
  | complete hsub hclose hsize hbuf =>
    rw [sendReach, hsub, if_neg (by decide), if_neg (by decide), if_pos rfl, hclose]
    simp only [if_pos hsize]
    exact iff_of_true (copyReach_inside _ (by decide) c tail) (fun h => by cases h)
  | incomplete hsub hclose hsize =>
    rw [sendReach, hsub, if_neg (by decide), if_neg (by decide), if_pos rfl, hclose]
    simp only [if_neg hsize]
    exact iff_of_true ⟨2612, rfl, by omega⟩ (fun h => by cases h)
  | other hopen hdata hend =>
    rw [sendReach, if_neg hopen, if_neg hdata, if_neg hend]
    exact iff_of_true ⟨16, rfl, by omega⟩ (fun h => by cases h)

theorem onExec_inside : (∃ n ∈ execReach f tail, n ≤ 5168 + tail.length) ↔
    onExec e f tail c ≠ .fault .outOfBounds := by
  have hreach : (∃ n ∈ execReach f tail, n ≤ 5168 + tail.length) ↔ cstrAt f tail cmdstr ≠ none := by
    refine cstrReach_map (by decide) fun n => ?_
    split
    · exact .inl rfl
    · exact .inr ⟨_, by split <;> omega, rfl⟩
  rw [hreach]
  have hstep := onExec_cases e f tail c
  generalize onExec e f tail c = st at hstep
  have hfound : ∀ {origin : List UInt8}, cstrAt f tail cmdstr = some origin →
      cstrAt f tail cmdstr ≠ none :=
    fun h => h ▸ Option.some_ne_none _
  cases hstep with
  | unterminated htext => exact iff_of_false (fun h => h htext) (fun h => h rfl)
  | tooLong htext => exact iff_of_true (hfound htext) (fun h => by cases h)
  | line htext => exact iff_of_true (hfound htext) (fun h => by cases h)
  | notRun htext => exact iff_of_true (hfound htext) (fun h => by cases h)
  | printed htext => exact iff_of_true (hfound htext) (fun h => by cases h)
  | overflow htext hroom hline hcmd hrun hout =>
    obtain rfl := NetmtExecOutput.execCommandWithReturn_error hout
    exact iff_of_true (hfound htext) (fun h => by cases h)
  | returned htext => exact iff_of_true (hfound htext) (fun h => by cases h)

/-- The `switch` goes beyond what there is exactly when its reach does. -/
theorem switch_inside : (∃ n ∈ reach e f tail c, n ≤ 5168 + tail.length) ↔
    switch e f tail c ≠ .fault .outOfBounds := by
  rcases command_cases (f.u32 commonid) with hid | hid | hid | hid | hid | hid
  · rw [reach_heartbeat hid, switch_heartbeat hid, heartbeatReach]
    refine iff_of_true ?_ fun h => by cases onHeartbeat_iff.mp h
    split
    · exact copyReach_inside _ (by decide) c tail
    · exact ⟨16, rfl, by omega⟩
  · rw [reach_register hid, switch_register hid, onRegister]
    exact iff_of_true (copyReach_inside _ (by decide) c tail)
      (by split <;> exact fun h => by cases h)
  · rw [reach_get hid, switch_get hid]
    exact onGet_inside
  · rw [reach_send hid, switch_send hid]
    exact onSend_inside
  · rw [reach_exec hid, switch_exec hid]
    exact onExec_inside
  · rw [reach_other hid, switch_other hid]
    exact iff_of_true ⟨12, rfl, by omega⟩ fun h => by cases h

end Branches

/-! ## Only the bytes within reach matter -/

section Front

variable {e : Env} {f f' : Frame} {tail tail' : List UInt8} {c : Client} {n first : Nat}

theorem le_copyReach (hreach : copyReach first c = some n) (hfirst : first ≤ 5168) :
    first ≤ n := by
  rw [← Option.some.inj hreach]
  split <;> omega

theorem frame_of_copyReach (hreach : copyReach first c = some n)
    (h : SameFront n f f' tail tail') (hbuf : c.sendbuf = true) : f' = f := by
  rw [copyReach, if_pos hbuf] at hreach
  exact h.frame (Option.some.inj hreach).le

theorem onHeartbeat_front (hreach : heartbeatReach f c = some n)
    (h : SameFront n f f' tail tail') :
    12 ≤ n ∧ heartbeatReach f' c = some n ∧ onHeartbeat f' c = onHeartbeat f c := by
  rw [heartbeatReach] at hreach
  have hle : 16 ≤ n := by
    split at hreach
    · exact le_copyReach hreach (by omega)
    · exact (Option.some.inj hreach).le
  have hsub : f'.u32 subcommonid = f.u32 subcommonid := h.u32 (by simpa using hle) (by simp)
  refine ⟨by omega, ?_⟩
  rw [heartbeatReach, onHeartbeat, onHeartbeat, hsub]
  split at hreach
  · next hsucc =>
    rw [if_pos hsucc, if_pos hsucc, if_pos hsucc]
    refine ⟨hreach, ?_⟩
    cases hbuf : c.sendbuf with
    | false => rw [if_pos rfl, if_pos rfl]
    | true => rw [frame_of_copyReach hreach h hbuf]
  · next hother =>
    rw [if_neg hother, if_neg hother, if_neg hother]
    exact ⟨hreach, rfl⟩

theorem onRegister_front (hreach : copyReach 12 c = some n) (h : SameFront n f f' tail tail') :
    onRegister e f' c = onRegister e f c := by
  rw [onRegister, onRegister]
  cases hbuf : c.sendbuf with
  | false => rw [if_pos rfl, if_pos rfl]
  | true => rw [frame_of_copyReach hreach h hbuf]

theorem onGet_front (hreach : getReach e f tail c = some n) (h : SameFront n f f' tail tail') :
    12 ≤ n ∧ getReach e f' tail' c = some n ∧ onGet e f' tail' c = onGet e f tail c := by
  by_cases hsub : f.u32 subcommonid = NETMT_CLIENT
  · rw [getReach, if_pos hsub] at hreach
    obtain ⟨m, hm, hmn⟩ : ∃ m, cstrReach f tail remotefile = some m ∧ m ≤ n := by
      split at hreach
      · exact ⟨n, hreach, le_refl _⟩
      · obtain ⟨m, hm, rfl⟩ := Option.map_eq_some_iff.mp hreach
        exact ⟨m, hm, by split <;> omega⟩
    have hlt : 1328 < m := lt_cstrReach hm
    have hsub' : f'.u32 subcommonid = NETMT_CLIENT :=
      (h.u32 (by simp; omega) (by simp)).trans hsub
    have hpath := h.cstr (by simp) hm hmn
    refine ⟨by omega, ?_, ?_⟩
    · rw [getReach, if_pos hsub', cstrReach, hpath]
      exact hreach
    · have hstep := onGet_cases e f tail c
      generalize onGet e f tail c = st at hstep
      cases hstep with
      | unterminated _ hnone => exact GetStep.run (.unterminated hsub' (hpath.trans hnone))
      | notOpened _ hname hopen => exact GetStep.run (.notOpened hsub' (hpath.trans hname) hopen)
      | nullSendbuf _ hname hopen hbuf =>
        exact GetStep.run (.nullSendbuf hsub' (hpath.trans hname) hopen hbuf)
      | locked _ hname hopen hbuf hmutex =>
        exact GetStep.run (.locked hsub' (hpath.trans hname) hopen hbuf hmutex)
      | unclosed _ hname hopen hbuf hmutex hclose =>
        exact GetStep.run (.unclosed hsub' (hpath.trans hname) hopen hbuf hmutex hclose)
      | sent _ hname hopen hbuf hmutex hclose =>
        have hwhole : f' = f := by
          rw [hname, Option.bind_some, hopen] at hreach
          obtain ⟨m, -, hmax⟩ := Option.map_eq_some_iff.mp hreach
          rw [if_pos hbuf] at hmax
          exact h.frame (by omega)
        rw [hwhole] at hpath ⊢
        exact GetStep.run (.sent hsub (hpath.trans hname) hopen hbuf hmutex hclose)
      | other hother => exact absurd hsub hother
  · rw [getReach, if_neg hsub] at hreach
    have hle : 16 ≤ n := (Option.some.inj hreach).le
    have hsub' : f'.u32 subcommonid ≠ NETMT_CLIENT := by
      rwa [show f'.u32 subcommonid = f.u32 subcommonid from h.u32 (by simpa using hle) (by simp)]
    rw [getReach, if_neg hsub', onGet, if_neg hsub', onGet, if_neg hsub]
    exact ⟨by omega, hreach, rfl⟩

theorem onSend_front (hreach : sendReach f tail c = some n) (h : SameFront n f f' tail tail') :
    12 ≤ n ∧ sendReach f' tail' c = some n ∧ onSend e f' tail' c = onSend e f tail c := by
  by_cases hopen : f.u32 subcommonid = NETMT_FILE_OPEN
  · rw [sendReach, if_pos hopen] at hreach
    have hlt : 1328 < n := lt_cstrReach hreach
    have hsub : f'.u32 subcommonid = f.u32 subcommonid := h.u32 (by simp; omega) (by simp)
    have hpath := h.cstr (by simp) hreach (le_refl _)
    rw [sendReach, onSend, onSend, hsub, if_pos hopen, if_pos hopen, if_pos hopen, cstrReach, hpath]
    exact ⟨by omega, hreach, rfl⟩
  · rw [sendReach, if_neg hopen] at hreach
    have hle : 16 ≤ n := by
      split at hreach
      · split at hreach
        · exact (Option.some.inj hreach).le
        · exact le_trans (by omega) (le_fwriteReach hreach)
      · split at hreach
        · split at hreach
          · exact (Option.some.inj hreach).le
          · split at hreach
            · exact le_trans (by omega) (le_copyReach hreach (by omega))
            · exact le_trans (by omega) (Option.some.inj hreach).le
        · exact (Option.some.inj hreach).le
    have hsub : f'.u32 subcommonid = f.u32 subcommonid := h.u32 (by simpa using hle) (by simp)
    refine ⟨by omega, ?_⟩
    rw [sendReach, onSend, onSend, hsub, if_neg hopen, if_neg hopen, if_neg hopen]
    split at hreach
    · next hdata =>
      rw [if_pos hdata, if_pos hdata, if_pos hdata]
      split at hreach
      · next hm =>
        rw [if_pos hm, if_pos hm, if_pos hm]
        exact ⟨hreach, rfl⟩
      · next hm =>
        obtain ⟨hsize, hwrite⟩ := h.fwrite hreach (le_refl _) c.files e.fwriteLimit
        rw [if_neg hm, if_neg hm, if_neg hm, hwrite, hsize, fwriteReach, hsize]
        exact ⟨hreach, rfl⟩
    · next hdata =>
      rw [if_neg hdata, if_neg hdata, if_neg hdata]
      split at hreach
      · next hend =>
        rw [if_pos hend, if_pos hend, if_pos hend]
        split at hreach
        · exact ⟨hreach, rfl⟩
        · have hsize : f'.i32 byteSize = f.i32 byteSize := by
            refine h.i32 ?_ (by simp)
            split at hreach
            · exact le_copyReach hreach (by simp)
            · exact (Option.some.inj hreach).le
          simp only [hsize]
          split at hreach
          · next hcount =>
            rw [if_pos hcount, if_pos hcount, if_pos hcount]
            refine ⟨hreach, ?_⟩
            cases hbuf : c.sendbuf with
            | false => rw [if_pos rfl, if_pos rfl]
            | true => rw [frame_of_copyReach hreach h hbuf]
          · next hcount =>
            rw [if_neg hcount, if_neg hcount, if_neg hcount]
            exact ⟨hreach, rfl⟩
      · next hend =>
        rw [if_neg hend, if_neg hend, if_neg hend]
        exact ⟨hreach, rfl⟩

/-- A command that fits `origin` is judged by the last two bytes of `cmdstr`. -/
theorem line_front (h : SameFront n f f' tail tail') (hn : 1072 ≤ n) :
    endsInLine f' = endsInLine f ∧ completesLine f' = completesLine f := by
  have hlast : f'.bytes[cmdstr + 1023]? = f.bytes[cmdstr + 1023]? :=
    h.byte (by simp; omega) (by simp)
  have hbefore : f'.bytes[cmdstr + 1022]? = f.bytes[cmdstr + 1022]? :=
    h.byte (by simp; omega) (by simp)
  have hline : endsInLine f' = endsInLine f := by rw [endsInLine, hlast, endsInLine]
  refine ⟨hline, ?_⟩
  rw [completesLine, hline, hlast, hbefore, completesLine]

/-- Unless the command fills `origin`, these are looked at. -/
theorem le_execReach {origin : List UInt8} (hreach : execReach f tail = some n)
    (htext : cstrAt f tail cmdstr = some origin) (hroom : ¬ BUFFER_SIZE ≤ origin.length) :
    1072 ≤ n := by
  rw [execReach, cstrReach, htext] at hreach
  have hfit : ¬ cmdstr + BUFFER_SIZE < cmdstr + origin.length + 1 := by omega
  rw [Option.map_some, Option.map_some, if_neg hfit] at hreach
  rw [← Option.some.inj hreach]
  split <;> omega

theorem onExec_front (hreach : execReach f tail = some n) (h : SameFront n f f' tail tail') :
    12 ≤ n ∧ execReach f' tail' = some n ∧ onExec e f' tail' c = onExec e f tail c := by
  obtain ⟨m, hm, hmax⟩ := Option.map_eq_some_iff.mp hreach
  obtain ⟨origin, htext, hlen⟩ := Option.map_eq_some_iff.mp hm
  have hmn : m ≤ n := by
    rw [← hmax]
    split <;> omega
  have hlt : 48 < m := lt_cstrReach hm
  have hsame := h.cstr (by simp) hm hmn
  refine ⟨by omega, ?_⟩
  have hm' : cstrReach f' tail' cmdstr = some m := by rw [cstrReach, hsame, ← hm, cstrReach]
  rw [execReach, hm', Option.map_some, onExec, onExec, hsame, htext]
  by_cases hroom : BUFFER_SIZE ≤ origin.length
  · simp only [if_pos hroom, and_true]
    rw [if_pos (by omega)] at hmax ⊢
    exact congrArg some hmax
  · obtain ⟨hline, hcompletes⟩ := line_front h (le_execReach hreach htext hroom)
    simp only [if_neg hroom, hline, hcompletes, and_true]
    exact congrArg some hmax

/-- The `switch` is settled by the bytes within its reach: the zeros behind the end of `databuf`
and whatever lies beyond are never looked at. -/
theorem switch_front (hreach : reach e f tail c = some n) (h : SameFront n f f' tail tail') :
    f'.u32 commonid = f.u32 commonid ∧ reach e f' tail' c = some n ∧
      switch e f' tail' c = switch e f tail c := by
  have hid : 12 ≤ n → f'.u32 commonid = f.u32 commonid :=
    fun hle => h.u32 (by simpa using hle) (by simp)
  rcases command_cases (f.u32 commonid) with hcase | hcase | hcase | hcase | hcase | hcase
  · rw [reach_heartbeat hcase] at hreach
    obtain ⟨hle, hreach', hstep⟩ := onHeartbeat_front hreach h
    have hcase' := (hid hle).trans hcase
    rw [reach_heartbeat hcase', switch_heartbeat hcase', switch_heartbeat hcase]
    exact ⟨hid hle, hreach', hstep⟩
  · rw [reach_register hcase] at hreach
    have hle := le_copyReach hreach (by omega)
    have hcase' := (hid hle).trans hcase
    rw [reach_register hcase', switch_register hcase', switch_register hcase]
    exact ⟨hid hle, hreach, onRegister_front hreach h⟩
  · rw [reach_get hcase] at hreach
    obtain ⟨hle, hreach', hstep⟩ := onGet_front hreach h
    have hcase' := (hid hle).trans hcase
    rw [reach_get hcase', switch_get hcase', switch_get hcase]
    exact ⟨hid hle, hreach', hstep⟩
  · rw [reach_send hcase] at hreach
    obtain ⟨hle, hreach', hstep⟩ := onSend_front (e := e) hreach h
    have hcase' := (hid hle).trans hcase
    rw [reach_send hcase', switch_send hcase', switch_send hcase]
    exact ⟨hid hle, hreach', hstep⟩
  · rw [reach_exec hcase] at hreach
    obtain ⟨hle, hreach', hstep⟩ := onExec_front (e := e) (c := c) hreach h
    have hcase' := (hid hle).trans hcase
    rw [reach_exec hcase', switch_exec hcase', switch_exec hcase]
    exact ⟨hid hle, hreach', hstep⟩
  · rw [reach_other hcase] at hreach
    have hid' := hid (Option.some.inj hreach).le
    have hcase' : f'.u32 commonid ∉ commands := hid' ▸ hcase
    rw [reach_other hcase', switch_other hcase', switch_other hcase]
    exact ⟨hid', hreach, rfl⟩

/-- So is the line end that it completes, unless it faults. -/
theorem edit_front (hreach : reach e f tail c = some n) (h : SameFront n f f' tail tail')
    (hstep : ∀ x, switch e f tail c ≠ .fault x) (db : Databuf) (off : Int) :
    edit db off f' = edit db off f := by
  rw [edit, (switch_front hreach h).1, edit]
  by_cases hid : f.u32 commonid = NETMT_EXEC
  · rw [reach_exec hid] at hreach
    rw [switch_exec hid] at hstep
    cases htext : cstrAt f tail cmdstr with
    | none => exact absurd (ExecStep.run (.unterminated htext)) (hstep _)
    | some origin =>
      have hroom : ¬ BUFFER_SIZE ≤ origin.length :=
        fun hlong => hstep _ (ExecStep.run (.tooLong htext hlong))
      rw [(line_front h (le_execReach hreach htext hroom)).2]
  · rw [if_neg fun hedit => hid hedit.1, if_neg fun hedit => hid hedit.1]

theorem reach_tick (e : Env) (f : Frame) (tail : List UInt8) (c : Client) (t : Nat) :
    reach e f tail { c with tick := t } = reach e f tail c := rfl

/-- Whatever lies behind the end of `databuf` is the same to the handler: `f` and `tail` are any
memory that begins with what is in `databuf`. -/
theorem handle_front {env : Nat → Env} {db : Databuf} {off : Int}
    (hmem : db.bytes.drop off.toNat <+: f.bytes ++ tail) : handle env db off c =
      if Within off (reach (env c.tick) f tail c) then
        (switch (env c.tick) f tail { c with tick := c.tick + 1 }).lift (edit db off f)
      else .fault .outOfBounds := by
  rw [handle, ← reach_tick _ _ _ c (c.tick + 1)]
  refine onComm_front (fun {_ g g' tl tl'} hreach h => ?_) hmem
  obtain ⟨-, hreach', hswitch⟩ := switch_front hreach h
  refine ⟨hreach', ?_⟩
  rw [hswitch]
  cases hstep : switch (env c.tick) g tl { c with tick := c.tick + 1 } with
  | next c' => rw [edit_front hreach h (fun x hx => by cases hstep.symm.trans hx)]
  | leave c' => rw [edit_front hreach h (fun x hx => by cases hstep.symm.trans hx)]
  | fault x => rfl

end Front

/-- On a whole frame the handler is the `switch`, which finds out itself whether it goes too
far. -/
theorem handle_frame (env : Nat → Env) (db : Databuf) (o : Nat) (f : Frame) (c : Client)
    (h : HasAt db o f.bytes) : handle env db o c =
      (switch (env c.tick) f (behind db o) { c with tick := c.tick + 1 }).lift (edit db o f) := by
  rw [handle_front (prefix_of_hasAt h)]
  split
  · rfl
  · next hout =>
    rw [← reach_tick _ _ _ c (c.tick + 1), within_frame h] at hout
    exact (lift_fault.mpr (not_not.mp fun hin => hout (switch_inside.mpr hin))).symm

/-- The handler stays in `databuf` exactly when all that it looks at lies there. -/
theorem handle_inside (env : Nat → Env) (db : Databuf) (off : Int) (c : Client) :
    handle env db off c ≠ .fault .outOfBounds ↔
      Within off (reach (env c.tick) (frameAt db off) (behind db off) c) := by
  rw [handle, ← reach_tick _ _ _ c (c.tick + 1)]
  exact onComm_inside fun _ _ => switch_inside.mp

/-- A line end is completed within what the handler looks at. -/
theorem edit_agree {env : Nat → Env} {db : Databuf} {o : Nat} {c : Client}
    (hin : Within o (reach (env c.tick) (frameAt db o) (behind db o) c)) :
    AgreeOutside o db (edit db o (frameAt db o)) := by
  intro i hi
  unfold edit
  split
  · next hedit =>
    obtain ⟨hid, hline⟩ := hedit
    have hfit : o + 1073 ≤ 20480 := by
      obtain ⟨-, n, hn, hle⟩ := hin
      rw [reach_exec hid, execReach, hline] at hn
      obtain ⟨m, -, rfl⟩ := Option.map_eq_some_iff.mp hn
      simp only [cmdstr, BUFFER_SIZE, if_true] at hle
      split at hle <;> omega
    change (Region.patch _ _ _)[i]? = _
    rw [Region.getElem?_patch _ _ _ (by simp; omega)]
    have hpos : (o : Int).toNat + cmdstr + 1023 = o + 1071 := by simp [Nat.add_assoc]
    rw [hpos]
    by_cases hlt : i < o + 1071
    · rw [if_pos hlt]
    · rw [if_neg hlt, if_neg (by simp; omega)]
  · rfl

theorem handle_local (env : Nat → Env) : Local (handle env) := by
  intro db db' off s s' h
  rw [handle] at h
  obtain ⟨hin, h⟩ := onComm_next h
  obtain ⟨-, rfl⟩ := lift_next h
  exact edit_agree hin

/-! ## One frame -/

/-- A frame that is handled to its end without a look behind it, is handled so
wherever it lies. -/
theorem switch_tail {e : Env} {f : Frame} {c c' : Client} (h : switch e f [] c = .next c')
    (tail : List UInt8) : switch e f tail c = .next c' := by
  obtain ⟨n, hreach, hle⟩ := switch_inside.mpr fun hout => by cases h.symm.trans hout
  rw [(switch_front hreach (sameFront_tail hle tail)).2.2, h]

/-- One frame, for a state of the client. -/
def next (env : Nat → Env) (c : Client) (f : Frame) : Option Client :=
  match switch (env c.tick) f [] { c with tick := c.tick + 1 } with
  | .next c' => some c'
  | _ => none

theorem handle_next (env : Nat → Env) {c c' : Client} {f : Frame} (h : next env c f = some c')
    (db : Databuf) (o : Nat) (hat : HasAt db o f.bytes) :
    handle env db o c = .next (edit db o f) c' := by
  rw [next] at h
  split at h
  · next t ht =>
    cases h
    rw [handle_frame env db o f c hat, switch_tail ht]
    rfl
  · cases h

@[simp] theorem hioWrite_sendbuf (c : Client) (f : Frame) : (hioWrite c f).sendbuf = c.sendbuf := by
  rw [hioWrite]
  split <;> rfl

@[simp] theorem hioWrite_closed (c : Client) (f : Frame) : (hioWrite c f).closed = c.closed := by
  rw [hioWrite]
  split <;> rfl

@[simp] theorem hioWrite_mutex (c : Client) (f : Frame) : (hioWrite c f).mutex = c.mutex := by
  rw [hioWrite]
  split <;> rfl

theorem foldl_hioWrite_mutex (fs : List Frame) (c : Client) :
    (fs.foldl hioWrite c).mutex = c.mutex := by
  induction fs generalizing c with
  | nil => rfl
  | cons f fs ih => rw [List.foldl_cons, ih, hioWrite_mutex]

/-- Only `NETMT_GET` and a stale heartbeat free `sendbuf`; the mutex stays as it was. -/
theorem onSend_keeps {e : Env} {f : Frame} {tail : List UInt8} {c c' : Client}
    (h : onSend e f tail c = .next c') : c'.sendbuf = c.sendbuf ∧ c'.mutex = c.mutex := by
  cases onSend_iff.mp h with
  | opened => exact ⟨rfl, rfl⟩
  | written => exact ⟨rfl, rfl⟩
  | complete => exact ⟨hioWrite_sendbuf _ _, hioWrite_mutex _ _⟩
  | incomplete => exact ⟨rfl, rfl⟩
  | other => exact ⟨rfl, rfl⟩

theorem onGet_mutex {e : Env} {f : Frame} {tail : List UInt8} {c c' : Client}
    (h : onGet e f tail c = .next c') : c'.mutex = c.mutex := by
  cases onGet_iff.mp h with
  | sent => exact foldl_hioWrite_mutex _ _
  | other => rfl

theorem onExec_mutex {e : Env} {f : Frame} {tail : List UInt8} {c c' : Client}
    (h : onExec e f tail c = .next c') : c'.mutex = c.mutex := by
  cases onExec_iff.mp h with
  | line => rfl
  | notRun => rfl
  | printed => exact hioWrite_mutex _ _
  | returned => exact hioWrite_mutex _ _

/-- The mutex stays locked only when a write comes up short, which leaves the callback. -/
theorem switch_mutex {e : Env} {f : Frame} {tail : List UInt8} {c c' : Client}
    (h : switch e f tail c = .next c') : c'.mutex = c.mutex := by
  rcases command_cases (f.u32 commonid) with hid | hid | hid | hid | hid | hid
  · rw [switch_heartbeat hid] at h
    cases onHeartbeat_iff.mp h <;> rfl
  · rw [switch_register hid, onRegister] at h
    split at h <;> cases h
    exact hioWrite_mutex _ _
  · rw [switch_get hid] at h
    exact onGet_mutex h
  · rw [switch_send hid] at h
    exact (onSend_keeps h).2
  · rw [switch_exec hid] at h
    exact onExec_mutex h
  · rw [switch_other hid] at h
    cases h
    rfl

/-- An open connection takes every frame. -/
theorem foldl_hioWrite (fs : List Frame) (c : Client) (h : c.closed = false) :
    fs.foldl hioWrite c = { c with out := c.out ++ fs } := by
  induction fs generalizing c with
  | nil => simp
  | cons f fs ih =>
    have hw : hioWrite c f = { c with out := c.out ++ [f] } := by
      rw [hioWrite, if_neg (by simp [h])]
    rw [List.foldl_cons, ih _ (by rw [hioWrite_closed, h]), hw]
    simp

end NetmtClient
