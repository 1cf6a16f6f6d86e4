import Netmt.Transfer

/-!
# The server program

The client list, the `switch` of the server's `tcp_recv`, and the accept and
close callbacks. An `hio_t` is a descriptor together with the identity of the
connection behind it: descriptors are reused, connections are not.
-/
namespace NetmtServer

open NetmtCommand NetmtTcpRecv NetmtTransfer

structure Hio where
  conn : Nat
  fd : Int
  deriving DecidableEq, Repr

/-- `io_t`: one accepted client. -/
structure IoT where
  io : Hio
  netmtclient : Region 200
  buffer : List UInt8
  bufferMaxSize : Int
  bufferCurrentSize : Int
  flag : Int
  deriving DecidableEq

/-- The globals of the server. -/
structure Server where
  /-- `t_server.clients`, in the order of a walk -/
  clients : List IoT
  /-- `t_server.commonid` -/
  commonid : Int
  /-- priority of `t_server.listenio` -/
  priority : Int
  files : FileStore
  fp : Option StreamId
  fsize : Int
  mutex : Bool
  /-- what `hio_write` was given, in order -/
  out : List (Hio × Frame)
  /-- number of frames handled, which picks the environment's answers -/
  tick : Nat

/-- Answers of the outside world for one frame. -/
structure Env where
  curTime : Nat
  fopenOk : Bool
  /-- how much of a write succeeds; all of it for `none` -/
  fwriteLimit : Option Nat
  /-- address of the allocated `sendbuf`, as an `int` -/
  sendbufAddr : Int

/-- Every `fopen` and every `fwrite` succeeds. -/
def goodEnv : Nat → Env := fun _ => ⟨0, true, none, 0⟩

def initial (files : FileStore) : Server :=
  ⟨[], 0, 0, files, none, 0, false, [], 0⟩

def hioWrite (s : Server) (io : Hio) (f : Frame) : Server := { s with out := s.out ++ [(io, f)] }

def onPing (e : Env) (f : Frame) (s : Server) : Step Server :=
  if f.u32 subcommonid = NETMT_SUCCESS then .next { s with priority := e.sendbufAddr } else .next s

/-- `int time = (cur_time - comm->last_send_ping_time) / 1000`. -/
def heartbeatAge (curTime : Nat) (f : Frame) : Int :=
  Region.wrap32
    (((curTime + (18446744073709551616 - f.u64 lastSendPingTime)) %
      18446744073709551616 / 1000 : Nat))

/-- `list_for_each` of the heartbeat: `sendbuf` is cleared after a write, so the
walk goes on looking for descriptor 0. -/
def pongWalk : List IoT → Frame → List (Hio × Frame)
  | [], _ => []
  | conn :: rest, sendbuf =>
    if conn.io.fd = sendbuf.i32 fd then (conn.io, setLen sendbuf) :: pongWalk rest
      (Region.zero 5168)
    else pongWalk rest sendbuf

def onHeartbeat (e : Env) (f : Frame) (s : Server) : Step Server :=
  if f.u32 subcommonid = NETMT_SUCCESS then
    let time := heartbeatAge e.curTime f
    if time > 0 ∧ time < 15000 then
      .next { s with out := s.out ++ pongWalk s.clients (f.putU64 lastRecvPongTime e.curTime) }
    else .next s
  else .next s

/-- `memcpy(&conn->netmtclient, &comm->netmtclient, sizeof(netmtclient_s))`. -/
def clientRecord (f : Frame) : Region 200 :=
  ⟨Region.slice netmtclient 200 f.bytes, by simp⟩

def onRegister (f : Frame) (s : Server) : Step Server :=
  .next { s with
    clients := s.clients.map fun conn =>
      if conn.io.fd = f.i32 fd then { conn with netmtclient := clientRecord f } else conn
    commonid := Region.wrap32 (f.u32 commonid) }

def onGet (e : Env) (f : Frame) (tail : List UInt8) (s : Server) : Step Server :=
  if f.u32 subcommonid = NETMT_FILE_OPEN then
    match cstrAt f tail localfile with
    | none => .fault .outOfBounds
    | some path =>
      if e.fopenOk then
        .next { s with files := (s.files.openWrite path).1, fp := some (s.files.openWrite path).2,
                       fsize := 0 }
      else .leave { s with fp := none }
  else if f.u32 subcommonid = NETMT_DATA then
    if s.mutex then .fault .deadlock
    else
      match fwriteData s.files s.fp f tail e.fwriteLimit with
      | .error x => .fault x
      | .ok (files, n) =>
        let s' := { s with files := files, fsize := Region.wrap32 (s.fsize + n) }
        if n < f.i32 dataSize then .leave { s' with mutex := true } else .next s'
  else if f.u32 subcommonid = NETMT_GET_END then
    match fcloseStream s.files s.fp with
    | .error x => .fault x
    | .ok files =>
      let s' := { s with files := files }
      if f.i32 byteSize = s.fsize then
        let sendbuf := setLen (f.putU32 subcommonid NETMT_GET_SUCCESS)
        .next { s' with out := s.out ++
          ((s.clients.filter fun conn => conn.io.fd = f.i32 fd).map fun conn =>
            (conn.io, sendbuf)) }
      else .next s'
  else .next s

/-- `save_result_info_to_buffer` and `handle_endflag` on the entry that is the
connection's userdata. -/
def saveResult (text : List UInt8) (conn : IoT) : IoT :=
  { conn with
    buffer := if conn.bufferCurrentSize < conn.bufferMaxSize - 4 then text else conn.buffer
    flag := 1 }

def onExec (io : Hio) (f : Frame) (tail : List UInt8) (s : Server) : Step Server :=
  if f.u32 subcommonid = NETMT_EXEC_SHELL_RESULT then
    if s.mutex then .fault .deadlock
    else if s.clients.all fun conn => conn.io ≠ io then .fault .nullUserdata
    else
      match cstrAt f tail totalResult with
      | none => .fault .outOfBounds
      | some text =>
        .next { s with clients := s.clients.map fun conn =>
          if conn.io = io then saveResult text conn else conn }
  else .next s

/-- The `switch` on a whole frame; `NETMT_SEND` has nothing to do. -/
def switch (e : Env) (io : Hio) (f : Frame) (tail : List UInt8) (s : Server) : Step Server :=
  if f.u32 NetmtCommand.commonid = NETMT_PING then onPing e f s
  else if f.u32 NetmtCommand.commonid = NETMT_HEARTBEAT then onHeartbeat e f s
  else if f.u32 NetmtCommand.commonid = NETMT_REGISTER then onRegister f s
  else if f.u32 NetmtCommand.commonid = NETMT_GET then onGet e f tail s
  else if f.u32 NetmtCommand.commonid = NETMT_EXEC then onExec io f tail s
  else .next s

section Cases

variable {e : Env} {io : Hio} {f : Frame} {tail : List UInt8} {s : Server}

theorem switch_ping (hid : f.u32 NetmtCommand.commonid = NETMT_PING) :
    switch e io f tail s = onPing e f s := by
  rw [switch, if_pos hid]

theorem switch_heartbeat (hid : f.u32 NetmtCommand.commonid = NETMT_HEARTBEAT) :
    switch e io f tail s = onHeartbeat e f s := by
  rw [switch, hid, if_neg (by decide), if_pos rfl]

theorem switch_register (hid : f.u32 NetmtCommand.commonid = NETMT_REGISTER) :
    switch e io f tail s = onRegister f s := by
  rw [switch, hid, if_neg (by decide), if_neg (by decide), if_pos rfl]

theorem switch_get (hid : f.u32 NetmtCommand.commonid = NETMT_GET) :
    switch e io f tail s = onGet e f tail s := by
  rw [switch, hid, if_neg (by decide), if_neg (by decide), if_neg (by decide), if_pos rfl]

theorem switch_exec (hid : f.u32 NetmtCommand.commonid = NETMT_EXEC) :
    switch e io f tail s = onExec io f tail s := by
  rw [switch, hid, if_neg (by decide), if_neg (by decide), if_neg (by decide),
    if_neg (by decide), if_pos rfl]

/-- The commands that have a case. -/
def commands : List Nat := [NETMT_PING, NETMT_HEARTBEAT, NETMT_REGISTER, NETMT_GET, NETMT_EXEC]

theorem switch_other (hid : f.u32 NetmtCommand.commonid ∉ commands) :
    switch e io f tail s = .next s := by
  simp only [commands, List.mem_cons, List.not_mem_nil, or_false, not_or] at hid
  obtain ⟨hping, hbeat, hreg, hget, hexec⟩ := hid
  rw [switch, if_neg hping, if_neg hbeat, if_neg hreg, if_neg hget, if_neg hexec]

theorem command_cases (id : Nat) : id = NETMT_PING ∨ id = NETMT_HEARTBEAT ∨ id = NETMT_REGISTER ∨
    id = NETMT_GET ∨ id = NETMT_EXEC ∨ id ∉ commands := by
  by_cases hid : id ∈ commands
  · simp only [commands, List.mem_cons, List.not_mem_nil, or_false] at hid
    tauto
  · exact Or.inr (Or.inr (Or.inr (Or.inr (Or.inr hid))))

end Cases

/-! ## How far the handlers look -/

/-- `memcpy(sendbuf, comm, sizeof(*comm))`. -/
def pingReach (f : Frame) : Option Nat :=
  some (if f.u32 subcommonid = NETMT_SUCCESS then 5168 else 16)

/-- The time that was sent, and the whole frame when it is answered. -/
def heartbeatReach (e : Env) (f : Frame) : Option Nat :=
  if f.u32 subcommonid = NETMT_SUCCESS then
    some (if heartbeatAge e.curTime f > 0 ∧ heartbeatAge e.curTime f < 15000 then 5168 else 40)
  else some 16

/-- The descriptor is compared with every entry's; one that is equal takes the record. -/
def registerReach (f : Frame) (s : Server) : Option Nat :=
  some (if s.clients.isEmpty then 12
    else if s.clients.any fun conn => conn.io.fd = f.i32 fd then 1272
    else 24)

def getReach (f : Frame) (tail : List UInt8) (s : Server) : Option Nat :=
  if f.u32 subcommonid = NETMT_FILE_OPEN then cstrReach f tail localfile
  else if f.u32 subcommonid = NETMT_DATA then
    if s.mutex then some 16 else fwriteReach s.fp f
  else if f.u32 subcommonid = NETMT_GET_END then
    match fcloseStream s.files s.fp with
    | .error _ => some 16
    | .ok _ => some (if f.i32 byteSize = s.fsize then 5168 else 2612)
  else some 16

def execReach (io : Hio) (f : Frame) (tail : List UInt8) (s : Server) : Option Nat :=
  if f.u32 subcommonid = NETMT_EXEC_SHELL_RESULT then
    if s.mutex then some 16
    else if s.clients.all fun conn => conn.io ≠ io then some 16
    else cstrReach f tail totalResult
  else some 16

/-- The bytes of `*comm` that the `switch` looks at. -/
def reach (e : Env) (io : Hio) (f : Frame) (tail : List UInt8) (s : Server) : Option Nat :=
  if f.u32 NetmtCommand.commonid = NETMT_PING then pingReach f
  else if f.u32 NetmtCommand.commonid = NETMT_HEARTBEAT then heartbeatReach e f
  else if f.u32 NetmtCommand.commonid = NETMT_REGISTER then registerReach f s
  else if f.u32 NetmtCommand.commonid = NETMT_GET then getReach f tail s
  else if f.u32 NetmtCommand.commonid = NETMT_EXEC then execReach io f tail s
  else if f.u32 NetmtCommand.commonid = NETMT_SEND then some 16
  else some 12

section Reaches

variable {e : Env} {io : Hio} {f : Frame} {tail : List UInt8} {s : Server}

theorem reach_ping (hid : f.u32 NetmtCommand.commonid = NETMT_PING) :
    reach e io f tail s = pingReach f := by
  rw [reach, if_pos hid]

theorem reach_heartbeat (hid : f.u32 NetmtCommand.commonid = NETMT_HEARTBEAT) :
    reach e io f tail s = heartbeatReach e f := by
  rw [reach, hid, if_neg (by decide), if_pos rfl]

theorem reach_register (hid : f.u32 NetmtCommand.commonid = NETMT_REGISTER) :
    reach e io f tail s = registerReach f s := by
  rw [reach, hid, if_neg (by decide), if_neg (by decide), if_pos rfl]

theorem reach_get (hid : f.u32 NetmtCommand.commonid = NETMT_GET) :
    reach e io f tail s = getReach f tail s := by
  rw [reach, hid, if_neg (by decide), if_neg (by decide), if_neg (by decide), if_pos rfl]

theorem reach_exec (hid : f.u32 NetmtCommand.commonid = NETMT_EXEC) :
    reach e io f tail s = execReach io f tail s := by
  rw [reach, hid, if_neg (by decide), if_neg (by decide), if_neg (by decide),
    if_neg (by decide), if_pos rfl]

theorem reach_other (hid : f.u32 NetmtCommand.commonid ∉ commands) :
    reach e io f tail s = some (if f.u32 NetmtCommand.commonid = NETMT_SEND then 16 else 12) := by
  simp only [commands, List.mem_cons, List.not_mem_nil, or_false, not_or] at hid
  obtain ⟨hping, hbeat, hreg, hget, hexec⟩ := hid
  rw [reach, if_neg hping, if_neg hbeat, if_neg hreg, if_neg hget, if_neg hexec, apply_ite some]

end Reaches

/-- The `switch` of the server's `tcp_recv`, called for connection `io`. -/
def handle (env : Nat → Env) (io : Hio) : Handler Server := fun db off s =>
  let s' := { s with tick := s.tick + 1 }
  onComm db off (fun f tail => reach (env s.tick) io f tail s') fun f tail =>
    (switch (env s.tick) io f tail s').lift db

theorem handle_local (env : Nat → Env) (io : Hio) : Local (handle env io) := by
  intro db db' off s s' h
  rw [handle] at h
  obtain ⟨-, rfl⟩ := lift_next (onComm_next h).2
  exact AgreeOutside.refl off db

theorem handle_ends {env : Nat → Env} {io : Hio} {db : Databuf} {off : Int} {s s' : Server}
    (h : (handle env io db off s).Ends s') :
    (switch (env s.tick) io (frameAt db off) (behind db off) { s with tick := s.tick + 1 }).Ends
      s' := by
  rw [handle] at h
  exact onComm_ends h

/-! ## The branches of a transfer and of a result -/

/-- What `onGet` comes to, one constructor for each branch. -/
inductive GetStep (e : Env) (f : Frame) (tail : List UInt8) (s : Server) : Step Server → Prop where
  | unterminated : f.u32 subcommonid = NETMT_FILE_OPEN → cstrAt f tail localfile = none →
      GetStep e f tail s (.fault .outOfBounds)
  | opened {path : List UInt8} : f.u32 subcommonid = NETMT_FILE_OPEN →
      cstrAt f tail localfile = some path → e.fopenOk = true →
      GetStep e f tail s (.next { s with files := (s.files.openWrite path).1,
                                         fp := some (s.files.openWrite path).2, fsize := 0 })
  | notOpened {path : List UInt8} : f.u32 subcommonid = NETMT_FILE_OPEN →
      cstrAt f tail localfile = some path → e.fopenOk = false →
      GetStep e f tail s (.leave { s with fp := none })
  | locked : f.u32 subcommonid = NETMT_DATA → s.mutex = true → GetStep e f tail s (.fault .deadlock)
  | unwritten {x : Fault} : f.u32 subcommonid = NETMT_DATA → s.mutex = false →
      fwriteData s.files s.fp f tail e.fwriteLimit = .error x → GetStep e f tail s (.fault x)
  | written {files : FileStore} {n : Int} : f.u32 subcommonid = NETMT_DATA → s.mutex = false →
      fwriteData s.files s.fp f tail e.fwriteLimit = .ok (files, n) → ¬ n < f.i32 dataSize →
      GetStep e f tail s (.next { s with files := files, fsize := Region.wrap32 (s.fsize + n) })
  | short {files : FileStore} {n : Int} : f.u32 subcommonid = NETMT_DATA → s.mutex = false →
      fwriteData s.files s.fp f tail e.fwriteLimit = .ok (files, n) → n < f.i32 dataSize →
      GetStep e f tail s (.leave { s with files := files, fsize := Region.wrap32 (s.fsize + n),
                                          mutex := true })
  | unclosed {x : Fault} : f.u32 subcommonid = NETMT_GET_END →
      fcloseStream s.files s.fp = .error x → GetStep e f tail s (.fault x)
  | complete {files : FileStore} : f.u32 subcommonid = NETMT_GET_END →
      fcloseStream s.files s.fp = .ok files → f.i32 byteSize = s.fsize →
      GetStep e f tail s (.next { s with files := files, out := s.out ++
        ((s.clients.filter fun conn => conn.io.fd = f.i32 fd).map fun conn =>
          (conn.io, setLen (f.putU32 subcommonid NETMT_GET_SUCCESS))) })
  | incomplete {files : FileStore} : f.u32 subcommonid = NETMT_GET_END →
      fcloseStream s.files s.fp = .ok files → f.i32 byteSize ≠ s.fsize →
      GetStep e f tail s (.next { s with files := files })
  | other : f.u32 subcommonid ≠ NETMT_FILE_OPEN → f.u32 subcommonid ≠ NETMT_DATA →
      f.u32 subcommonid ≠ NETMT_GET_END → GetStep e f tail s (.next s)

/-- What `onExec` comes to. -/
inductive ExecStep (io : Hio) (f : Frame) (tail : List UInt8) (s : Server) :
    Step Server → Prop where
  | locked : f.u32 subcommonid = NETMT_EXEC_SHELL_RESULT → s.mutex = true →
      ExecStep io f tail s (.fault .deadlock)
  | unlisted : f.u32 subcommonid = NETMT_EXEC_SHELL_RESULT → s.mutex = false →
      (s.clients.all fun conn => conn.io ≠ io) = true → ExecStep io f tail s (.fault .nullUserdata)
  | unterminated : f.u32 subcommonid = NETMT_EXEC_SHELL_RESULT → s.mutex = false →
      (s.clients.all fun conn => conn.io ≠ io) = false → cstrAt f tail totalResult = none →
      ExecStep io f tail s (.fault .outOfBounds)
  | saved {text : List UInt8} : f.u32 subcommonid = NETMT_EXEC_SHELL_RESULT → s.mutex = false →
      (s.clients.all fun conn => conn.io ≠ io) = false → cstrAt f tail totalResult = some text →
      ExecStep io f tail s (.next { s with
        clients := s.clients.map fun conn => if conn.io = io then saveResult text conn else conn })
  | other : f.u32 subcommonid ≠ NETMT_EXEC_SHELL_RESULT → ExecStep io f tail s (.next s)

section Branches

variable {e : Env} {io : Hio} {f : Frame} {tail : List UInt8} {s : Server} {st : Step Server}

theorem GetStep.run (h : GetStep e f tail s st) : onGet e f tail s = st := by
  cases h with
  | unterminated hsub hpath => simp only [onGet, if_pos hsub, hpath]
  | opened hsub hpath hopen => simp only [onGet, if_pos hsub, hpath, hopen, if_true]
  | notOpened hsub hpath hopen =>
    simp only [onGet, if_pos hsub, hpath, hopen, Bool.false_eq_true, if_false]
  | locked hsub hm => rw [onGet, hsub, if_neg (by decide), if_pos rfl, if_pos hm]
  | unwritten hsub hm hwrite =>
    rw [onGet, hsub, if_neg (by decide), if_pos rfl, if_neg (by simp [hm]), hwrite]
  | written hsub hm hwrite hfull =>
    rw [onGet, hsub, if_neg (by decide), if_pos rfl, if_neg (by simp [hm]), hwrite]
    exact if_neg hfull
  | short hsub hm hwrite hshort =>
    rw [onGet, hsub, if_neg (by decide), if_pos rfl, if_neg (by simp [hm]), hwrite]
    exact if_pos hshort
  | unclosed hsub hclose =>
    rw [onGet, hsub, if_neg (by decide), if_neg (by decide), if_pos rfl, hclose]
  | complete hsub hclose hsize =>
    rw [onGet, hsub, if_neg (by decide), if_neg (by decide), if_pos rfl, hclose]
    exact if_pos hsize
  | incomplete hsub hclose hsize =>
    rw [onGet, hsub, if_neg (by decide), if_neg (by decide), if_pos rfl, hclose]
    exact if_neg hsize
  | other hopen hdata hend => rw [onGet, if_neg hopen, if_neg hdata, if_neg hend]

theorem onGet_cases (e : Env) (f : Frame) (tail : List UInt8) (s : Server) :
    GetStep e f tail s (onGet e f tail s) := by
  simp only [onGet]
  split
  · next hsub =>
    split
    · next hpath => exact .unterminated hsub hpath
    · next path hpath =>
      split
      · next hopen => exact .opened hsub hpath hopen
      · next hopen => exact .notOpened hsub hpath (Bool.eq_false_iff.mpr hopen)
  · next hopened =>
    split
    · next hsub =>
      split
      · next hm => exact .locked hsub hm
      · next hm =>
        have hunlocked := Bool.eq_false_iff.mpr hm
        split
        · next x hwrite => exact .unwritten hsub hunlocked hwrite
        · next files n hwrite =>
          split
          · next hshort => exact .short hsub hunlocked hwrite hshort
          · next hfull => exact .written hsub hunlocked hwrite hfull
    · next hdata =>
      split
      · next hsub =>
        split
        · next x hclose => exact .unclosed hsub hclose
        · next files hclose =>
          split
          · next hsize => exact .complete hsub hclose hsize
          · next hsize => exact .incomplete hsub hclose hsize
      · next hend => exact .other hopened hdata hend

theorem onGet_iff : onGet e f tail s = st ↔ GetStep e f tail s st :=
  ⟨fun h => h ▸ onGet_cases e f tail s, GetStep.run⟩

theorem ExecStep.run (h : ExecStep io f tail s st) : onExec io f tail s = st := by
  cases h with
  | locked hsub hm => rw [onExec, if_pos hsub, if_pos hm]
  | unlisted hsub hm hall => rw [onExec, if_pos hsub, if_neg (by simp [hm]), if_pos hall]
  | unterminated hsub hm hall htext =>
    rw [onExec, if_pos hsub, if_neg (by simp [hm]), if_neg (Bool.eq_false_iff.mp hall), htext]
  | saved hsub hm hall htext =>
    rw [onExec, if_pos hsub, if_neg (by simp [hm]), if_neg (Bool.eq_false_iff.mp hall), htext]
  | other hsub => rw [onExec, if_neg hsub]

theorem onExec_cases (io : Hio) (f : Frame) (tail : List UInt8) (s : Server) :
    ExecStep io f tail s (onExec io f tail s) := by
  simp only [onExec]
  split
  · next hsub =>
    split
    · next hm => exact .locked hsub hm
    · next hm =>
      have hunlocked := Bool.eq_false_iff.mpr hm
      split
      · next hall => exact .unlisted hsub hunlocked hall
      · next hall =>
        have hlisted := Bool.eq_false_iff.mpr hall
        split
        · next htext => exact .unterminated hsub hunlocked hlisted htext
        · next text htext => exact .saved hsub hunlocked hlisted htext
  · next hsub => exact .other hsub

theorem onExec_iff : onExec io f tail s = st ↔ ExecStep io f tail s st :=
  ⟨fun h => h ▸ onExec_cases io f tail s, ExecStep.run⟩

/-! ## Inside the buffer -/

theorem onGet_inside : (∃ n ∈ getReach f tail s, n ≤ 5168 + tail.length) ↔
    onGet e f tail s ≠ .fault .outOfBounds := by
  have hstep := onGet_cases e f tail s
  generalize onGet e f tail s = st at hstep
  cases hstep with
  | unterminated hsub hpath =>
    rw [getReach, if_pos hsub, cstrReach_iff (by decide), hpath]
    exact iff_of_false (fun h => h rfl) (fun h => h rfl)
  | opened hsub hpath hopen =>
    rw [getReach, if_pos hsub, cstrReach_iff (by decide), hpath]
    exact iff_of_true (Option.some_ne_none _) (fun h => by cases h)
  | notOpened hsub hpath hopen =>
    rw [getReach, if_pos hsub, cstrReach_iff (by decide), hpath]
    exact iff_of_true (Option.some_ne_none _) (fun h => by cases h)
  | locked hsub hm =>
    rw [getReach, hsub, if_neg (by decide), if_pos rfl, if_pos hm]
    exact iff_of_true ⟨16, rfl, by omega⟩ (fun h => by cases h)
  | unwritten hsub hm hwrite =>
    rw [getReach, hsub, if_neg (by decide), if_pos rfl, if_neg (by simp [hm]),
      fwriteReach_iff, hwrite]
    exact not_congr ⟨fun h => by cases h; rfl, fun h => by cases h; rfl⟩
  | written hsub hm hwrite hfull =>
    rw [getReach, hsub, if_neg (by decide), if_pos rfl, if_neg (by simp [hm]),
      fwriteReach_iff, hwrite]
    exact iff_of_true (fun h => by cases h) (fun h => by cases h)
  | short hsub hm hwrite hshort =>
    rw [getReach, hsub, if_neg (by decide), if_pos rfl, if_neg (by simp [hm]),
      fwriteReach_iff, hwrite]
    exact iff_of_true (fun h => by cases h) (fun h => by cases h)
  | unclosed hsub hclose =>
    rw [getReach, hsub, if_neg (by decide), if_neg (by decide), if_pos rfl, hclose]
    refine iff_of_true ⟨16, rfl, by omega⟩ fun h => ?_
    rcases fcloseStream_error hclose with rfl | rfl <;> cases h
  | complete hsub hclose hsize =>
    rw [getReach, hsub, if_neg (by decide), if_neg (by decide), if_pos rfl, hclose]
    exact iff_of_true ⟨_, rfl, by split <;> omega⟩ (fun h => by cases h)
  | incomplete hsub hclose hsize =>
    rw [getReach, hsub, if_neg (by decide), if_neg (by decide), if_pos rfl, hclose]
    exact iff_of_true ⟨_, rfl, by split <;> omega⟩ (fun h => by cases h)
  | other hopen hdata hend =>
    rw [getReach, if_neg hopen, if_neg hdata, if_neg hend]
    exact iff_of_true ⟨16, rfl, by omega⟩ (fun h => by cases h)

theorem onExec_inside : (∃ n ∈ execReach io f tail s, n ≤ 5168 + tail.length) ↔
    onExec io f tail s ≠ .fault .outOfBounds := by
  have hstep := onExec_cases io f tail s
  generalize onExec io f tail s = st at hstep
  cases hstep with
  | locked hsub hm =>
    rw [execReach, if_pos hsub, if_pos hm]
    exact iff_of_true ⟨16, rfl, by omega⟩ (fun h => by cases h)
  | unlisted hsub hm hall =>
    rw [execReach, if_pos hsub, if_neg (by simp [hm]), if_pos hall]
    exact iff_of_true ⟨16, rfl, by omega⟩ (fun h => by cases h)
  | unterminated hsub hm hlisted htext =>
    rw [execReach, if_pos hsub, if_neg (by simp [hm]), if_neg (Bool.eq_false_iff.mp hlisted),
      cstrReach_iff (by decide), htext]
    exact iff_of_false (fun h => h rfl) (fun h => h rfl)
  | saved hsub hm hlisted htext =>
    rw [execReach, if_pos hsub, if_neg (by simp [hm]), if_neg (Bool.eq_false_iff.mp hlisted),
      cstrReach_iff (by decide), htext]
    exact iff_of_true (Option.some_ne_none _) (fun h => by cases h)
  | other hsub =>
    rw [execReach, if_neg hsub]
    exact iff_of_true ⟨16, rfl, by omega⟩ (fun h => by cases h)

/-- The `switch` goes beyond what there is exactly when its reach does. -/
theorem switch_inside : (∃ n ∈ reach e io f tail s, n ≤ 5168 + tail.length) ↔
    switch e io f tail s ≠ .fault .outOfBounds := by
  rcases command_cases (f.u32 NetmtCommand.commonid) with hid | hid | hid | hid | hid | hid
  · rw [reach_ping hid, switch_ping hid, onPing]
    exact iff_of_true ⟨_, rfl, by split <;> omega⟩ (by split <;> exact fun h => by cases h)
  · rw [reach_heartbeat hid, switch_heartbeat hid, heartbeatReach, onHeartbeat]
    refine iff_of_true ?_ ?_
    · split
      · exact ⟨_, rfl, by split <;> omega⟩
      · exact ⟨16, rfl, by omega⟩
    · simp only
      split
      · split <;> exact fun h => by cases h
      · exact fun h => by cases h
  · rw [reach_register hid, switch_register hid]
    refine iff_of_true ⟨_, rfl, ?_⟩ fun h => by cases h
    split
    · omega
    · split <;> omega
  · rw [reach_get hid, switch_get hid]
    exact onGet_inside
  · rw [reach_exec hid, switch_exec hid]
    exact onExec_inside
  · rw [reach_other hid, switch_other hid]
    exact iff_of_true ⟨_, rfl, by split <;> omega⟩ fun h => by cases h

end Branches

/-! ## Only the bytes within reach matter -/

section Front

variable {e : Env} {io : Hio} {f f' : Frame} {tail tail' : List UInt8} {s : Server} {n : Nat}

theorem onPing_front (hreach : pingReach f = some n) (h : SameFront n f f' tail tail') :
    12 ≤ n ∧ pingReach f' = some n ∧ onPing e f' s = onPing e f s := by
  have hle : 16 ≤ n := by
    rw [← Option.some.inj hreach]
    split <;> omega
  have hsub : f'.u32 subcommonid = f.u32 subcommonid := h.u32 (by simpa using hle) (by simp)
  rw [pingReach, onPing, hsub]
  exact ⟨by omega, hreach, rfl⟩

theorem onHeartbeat_front (hreach : heartbeatReach e f = some n)
    (h : SameFront n f f' tail tail') :
    12 ≤ n ∧ heartbeatReach e f' = some n ∧ onHeartbeat e f' s = onHeartbeat e f s := by
  have hle : 16 ≤ n := by
    rw [heartbeatReach] at hreach
    split at hreach <;> rw [← Option.some.inj hreach]
    split <;> omega
  have hsub : f'.u32 subcommonid = f.u32 subcommonid := h.u32 (by simpa using hle) (by simp)
  refine ⟨by omega, ?_⟩
  rw [heartbeatReach] at hreach
  rw [heartbeatReach, onHeartbeat, onHeartbeat, hsub]
  split at hreach
  · next hsucc =>
    rw [if_pos hsucc, if_pos hsucc, if_pos hsucc]
    have htime : heartbeatAge e.curTime f' = heartbeatAge e.curTime f := by
      have hsent : f'.u64 lastSendPingTime = f.u64 lastSendPingTime := by
        refine h.u64 ?_ (by simp)
        rw [← Option.some.inj hreach]
        split <;> simp
      rw [heartbeatAge, hsent, heartbeatAge]
    rw [htime]
    refine ⟨hreach, ?_⟩
    split at hreach
    · rw [h.frame (Option.some.inj hreach).le]
    · next hage => simp only [if_neg hage]
  · next hother =>
    rw [if_neg hother, if_neg hother, if_neg hother]
    exact ⟨hreach, rfl⟩

theorem onRegister_front (hreach : registerReach f s = some n) (h : SameFront n f f' tail tail') :
    12 ≤ n ∧ registerReach f' s = some n ∧ onRegister f' s = onRegister f s := by
  have hle : 12 ≤ n := by
    rw [← Option.some.inj hreach]
    split
    · omega
    · split <;> omega
  have hid : f'.u32 NetmtCommand.commonid = f.u32 NetmtCommand.commonid :=
    h.u32 (by simpa using hle) (by simp)
  refine ⟨hle, ?_⟩
  rw [onRegister, onRegister, hid]
  by_cases hnone : s.clients.isEmpty = true
  · rw [registerReach, if_pos hnone] at hreach
    rw [registerReach, if_pos hnone, List.isEmpty_iff.mp hnone, List.map_nil, List.map_nil]
    exact ⟨hreach, rfl⟩
  · rw [registerReach, if_neg hnone] at hreach
    have hfd : f'.i32 fd = f.i32 fd := by
      refine h.i32 ?_ (by simp)
      rw [← Option.some.inj hreach]
      split <;> simp
    rw [registerReach, if_neg hnone, hfd]
    refine ⟨hreach, ?_⟩
    split at hreach
    · have hrecord : clientRecord f' = clientRecord f :=
        Region.ext (h.slice (Option.some.inj hreach).le (by simp))
      rw [hrecord]
    · next hother =>
      have hsame : ∀ record : Region 200, (s.clients.map fun conn =>
          if conn.io.fd = f.i32 fd then { conn with netmtclient := record } else conn) =
          s.clients := by
        intro record
        conv_rhs => rw [← List.map_id s.clients]
        refine List.map_congr_left fun conn hconn => if_neg fun heq => hother ?_
        exact List.any_eq_true.mpr ⟨conn, hconn, decide_eq_true heq⟩
      rw [hsame, hsame]

theorem onGet_front (hreach : getReach f tail s = some n) (h : SameFront n f f' tail tail') :
    12 ≤ n ∧ getReach f' tail' s = some n ∧ onGet e f' tail' s = onGet e f tail s := by
  by_cases hopen : f.u32 subcommonid = NETMT_FILE_OPEN
  · rw [getReach, if_pos hopen] at hreach
    have hle : 1072 < n := lt_cstrReach hreach
    have hsub : f'.u32 subcommonid = f.u32 subcommonid := h.u32 (by simp; omega) (by simp)
    have hpath := h.cstr (by simp) hreach (le_refl _)
    rw [getReach, onGet, onGet, hsub, if_pos hopen, if_pos hopen, if_pos hopen, cstrReach, hpath]
    exact ⟨by omega, hreach, rfl⟩
  · have hle : 16 ≤ n := by
      rw [getReach, if_neg hopen] at hreach
      split at hreach
      · split at hreach
        · exact (Option.some.inj hreach).le
        · exact le_trans (by omega) (le_fwriteReach hreach)
      · split at hreach
        · split at hreach
          · exact (Option.some.inj hreach).le
          · rw [← Option.some.inj hreach]
            split <;> omega
        · exact (Option.some.inj hreach).le
    have hsub : f'.u32 subcommonid = f.u32 subcommonid := h.u32 (by simpa using hle) (by simp)
    refine ⟨by omega, ?_⟩
    rw [getReach, if_neg hopen] at hreach
    rw [getReach, onGet, onGet, hsub, if_neg hopen, if_neg hopen, if_neg hopen]
    split at hreach
    · next hdata =>
      rw [if_pos hdata, if_pos hdata, if_pos hdata]
      split at hreach
      · next hm =>
        rw [if_pos hm, if_pos hm, if_pos hm]
        exact ⟨hreach, rfl⟩
      · next hm =>
        obtain ⟨hsize, hwrite⟩ := h.fwrite hreach (le_refl _) s.files e.fwriteLimit
        rw [if_neg hm, if_neg hm, if_neg hm, hwrite, hsize, fwriteReach, hsize]
        exact ⟨hreach, rfl⟩
    · next hdata =>
      rw [if_neg hdata, if_neg hdata, if_neg hdata]
      split at hreach
      · next hend =>
        rw [if_pos hend, if_pos hend, if_pos hend]
        split at hreach
        · exact ⟨hreach, rfl⟩
        · have hsize : f'.i32 byteSize = f.i32 byteSize := by
            refine h.i32 ?_ (by simp)
            rw [← Option.some.inj hreach]
            split <;> simp
          simp only [hsize]
          refine ⟨hreach, ?_⟩
          split at hreach
          · rw [h.frame (Option.some.inj hreach).le]
          · next hother => rw [if_neg hother, if_neg hother]
      · next hend =>
        rw [if_neg hend, if_neg hend, if_neg hend]
        exact ⟨hreach, rfl⟩

theorem onExec_front (hreach : execReach io f tail s = some n) (h : SameFront n f f' tail tail') :
    12 ≤ n ∧ execReach io f' tail' s = some n ∧ onExec io f' tail' s = onExec io f tail s := by
  have hle : 16 ≤ n := by
    rw [execReach] at hreach
    split at hreach
    · split at hreach
      · exact (Option.some.inj hreach).le
      · split at hreach
        · exact (Option.some.inj hreach).le
        · have hlt : 1072 < n := lt_cstrReach hreach
          omega
    · exact (Option.some.inj hreach).le
  have hsub : f'.u32 subcommonid = f.u32 subcommonid := h.u32 (by simpa using hle) (by simp)
  refine ⟨by omega, ?_⟩
  rw [execReach] at hreach
  rw [execReach, onExec, onExec, hsub]
  split at hreach
  · next hresult =>
    rw [if_pos hresult, if_pos hresult, if_pos hresult]
    split at hreach
    · next hm =>
      rw [if_pos hm, if_pos hm, if_pos hm]
      exact ⟨hreach, rfl⟩
    · next hm =>
      rw [if_neg hm, if_neg hm, if_neg hm]
      split at hreach
      · next hall =>
        rw [if_pos hall, if_pos hall, if_pos hall]
        exact ⟨hreach, rfl⟩
      · next hall =>
        rw [if_neg hall, if_neg hall, if_neg hall, cstrReach,
          h.cstr (by simp) hreach (le_refl _)]
        exact ⟨hreach, rfl⟩
  · next hother =>
    rw [if_neg hother, if_neg hother, if_neg hother]
    exact ⟨hreach, rfl⟩

/-- The `switch` is settled by the bytes within its reach: the zeros behind the end of `databuf`
and whatever lies beyond are never looked at. -/
theorem switch_front (hreach : reach e io f tail s = some n) (h : SameFront n f f' tail tail') :
    reach e io f' tail' s = some n ∧ switch e io f' tail' s = switch e io f tail s := by
  have hid : 12 ≤ n → f'.u32 NetmtCommand.commonid = f.u32 NetmtCommand.commonid :=
    fun hle => h.u32 (by simpa using hle) (by simp)
  rcases command_cases (f.u32 NetmtCommand.commonid) with hcase | hcase | hcase | hcase | hcase |
    hcase
  · rw [reach_ping hcase] at hreach
    obtain ⟨hle, hreach', hstep⟩ := onPing_front (e := e) (s := s) hreach h
    have hcase' := (hid hle).trans hcase
    rw [reach_ping hcase', switch_ping hcase', switch_ping hcase]
    exact ⟨hreach', hstep⟩
  · rw [reach_heartbeat hcase] at hreach
    obtain ⟨hle, hreach', hstep⟩ := onHeartbeat_front (s := s) hreach h
    have hcase' := (hid hle).trans hcase
    rw [reach_heartbeat hcase', switch_heartbeat hcase', switch_heartbeat hcase]
    exact ⟨hreach', hstep⟩
  · rw [reach_register hcase] at hreach
    obtain ⟨hle, hreach', hstep⟩ := onRegister_front hreach h
    have hcase' := (hid hle).trans hcase
    rw [reach_register hcase', switch_register hcase', switch_register hcase]
    exact ⟨hreach', hstep⟩
  · rw [reach_get hcase] at hreach
    obtain ⟨hle, hreach', hstep⟩ := onGet_front (e := e) hreach h
    have hcase' := (hid hle).trans hcase
    rw [reach_get hcase', switch_get hcase', switch_get hcase]
    exact ⟨hreach', hstep⟩
  · rw [reach_exec hcase] at hreach
    obtain ⟨hle, hreach', hstep⟩ := onExec_front hreach h
    have hcase' := (hid hle).trans hcase
    rw [reach_exec hcase', switch_exec hcase', switch_exec hcase]
    exact ⟨hreach', hstep⟩
  · rw [reach_other hcase] at hreach
    have hid' := hid (by
      rw [← Option.some.inj hreach]
      split <;> omega)
    have hcase' : f'.u32 NetmtCommand.commonid ∉ commands := hid' ▸ hcase
    rw [reach_other hcase', switch_other hcase', switch_other hcase, hid']
    exact ⟨hreach, rfl⟩

theorem reach_tick (e : Env) (io : Hio) (f : Frame) (tail : List UInt8) (s : Server) (t : Nat) :
    reach e io f tail { s with tick := t } = reach e io f tail s := rfl

/-- Whatever lies behind the end of `databuf` is the same to the handler: `f` and `tail` are any
memory that begins with what is in `databuf`. -/
theorem handle_front {env : Nat → Env} {db : Databuf} {off : Int}
    (hmem : db.bytes.drop off.toNat <+: f.bytes ++ tail) : handle env io db off s =
      if Within off (reach (env s.tick) io f tail s) then
        (switch (env s.tick) io f tail { s with tick := s.tick + 1 }).lift db
      else .fault .outOfBounds := by
  rw [handle, ← reach_tick _ _ _ _ s (s.tick + 1)]
  refine onComm_front (fun hreach h => ?_) hmem
  obtain ⟨hreach', hswitch⟩ := switch_front hreach h
  exact ⟨hreach', by rw [hswitch]⟩

end Front

/-- On a whole frame the handler is the `switch`, which finds out itself whether it goes too
far. -/
theorem handle_frame (env : Nat → Env) (io : Hio) (db : Databuf) (o : Nat) (f : Frame) (s : Server)
    (h : HasAt db o f.bytes) : handle env io db o s =
      (switch (env s.tick) io f (behind db o) { s with tick := s.tick + 1 }).lift db := by
  rw [handle_front (prefix_of_hasAt h)]
  split
  · rfl
  · next hout =>
    rw [← reach_tick _ _ _ _ s (s.tick + 1), within_frame h] at hout
    exact (lift_fault.mpr (not_not.mp fun hin => hout (switch_inside.mpr hin))).symm

/-- The handler stays in `databuf` exactly when all that it looks at lies there. -/
theorem handle_inside (env : Nat → Env) (io : Hio) (db : Databuf) (off : Int) (s : Server) :
    handle env io db off s ≠ .fault .outOfBounds ↔
      Within off (reach (env s.tick) io (frameAt db off) (behind db off) s) := by
  rw [handle, ← reach_tick _ _ _ _ s (s.tick + 1)]
  exact onComm_inside fun _ _ => switch_inside.mp

/-! ## One frame -/

/-- A frame that is handled to its end without a look behind it, is handled so
wherever it lies. -/
theorem switch_tail {e : Env} {io : Hio} {f : Frame} {s s' : Server}
    (h : switch e io f [] s = .next s') (tail : List UInt8) :
    switch e io f tail s = .next s' := by
  obtain ⟨n, hreach, hle⟩ := switch_inside.mpr fun hout => by cases h.symm.trans hout
  rw [(switch_front hreach (sameFront_tail hle tail)).2, h]

/-- One frame, for a state of the server. -/
def next (env : Nat → Env) (io : Hio) (s : Server) (f : Frame) : Option Server :=
  match switch (env s.tick) io f [] { s with tick := s.tick + 1 } with
  | .next s' => some s'
  | _ => none

theorem handle_next (env : Nat → Env) (io : Hio) {s s' : Server} {f : Frame}
    (h : next env io s f = some s') (db : Databuf) (o : Nat) (hat : HasAt db o f.bytes) :
    handle env io db o s = .next db s' := by
  rw [next] at h
  split at h
  · next t ht =>
    cases h
    rw [handle_frame env io db o f s hat, switch_tail ht]
    rfl
  · cases h

/-! ## What one frame can change -/

/-- An entry behind a frame that was received on `io`. -/
def entryAfter (io : Hio) (f : Frame) (tail : List UInt8) (conn : IoT) : IoT :=
  if f.u32 NetmtCommand.commonid = NETMT_REGISTER then
    if conn.io.fd = f.i32 fd then { conn with netmtclient := clientRecord f } else conn
  else if f.u32 NetmtCommand.commonid = NETMT_EXEC ∧
      f.u32 subcommonid = NETMT_EXEC_SHELL_RESULT then
    if conn.io = io then saveResult ((cstrAt f tail totalResult).getD []) conn else conn
  else conn

/-- What is written because of a frame. -/
def written (e : Env) (f : Frame) (fsize : Int) (clients : List IoT) : List (Hio × Frame) :=
  if f.u32 NetmtCommand.commonid = NETMT_HEARTBEAT then
    if f.u32 subcommonid = NETMT_SUCCESS ∧ heartbeatAge e.curTime f > 0 ∧
        heartbeatAge e.curTime f < 15000 then
      pongWalk clients (f.putU64 lastRecvPongTime e.curTime)
    else []
  else if f.u32 NetmtCommand.commonid = NETMT_GET ∧ f.u32 subcommonid = NETMT_GET_END ∧
      f.i32 byteSize = fsize then
    (clients.filter fun conn => conn.io.fd = f.i32 fd).map fun conn =>
      (conn.io, setLen (f.putU32 subcommonid NETMT_GET_SUCCESS))
  else []

/-- The effect of frame `f`, received on `io` and handled without a fault. -/
structure Change (e : Env) (io : Hio) (f : Frame) (tail : List UInt8) (s s' : Server) : Prop where
  clients : s'.clients = s.clients.map (entryAfter io f tail)
  out : s'.out = s.out ++ written e f s.fsize s.clients
  transfer : f.u32 NetmtCommand.commonid ≠ NETMT_GET →
    s'.files = s.files ∧ s'.fp = s.fp ∧ s'.fsize = s.fsize ∧ s'.mutex = s.mutex

@[simp] theorem entryAfter_io (io : Hio) (f : Frame) (tail : List UInt8) (conn : IoT) :
    (entryAfter io f tail conn).io = conn.io := by
  rw [entryAfter]
  split
  · split <;> rfl
  · split
    · split <;> rfl
    · rfl

/-- An entry changes only where the frame's descriptor or the connection leads. -/
theorem entryAfter_other {io : Hio} {f : Frame} {conn : IoT} (hfd : conn.io.fd ≠ f.i32 fd)
    (hio : conn.io ≠ io) (tail : List UInt8) : entryAfter io f tail conn = conn := by
  rw [entryAfter, if_neg hfd, if_neg hio]
  split
  · rfl
  · split <;> rfl

theorem pongWalk_mem (clients : List IoT) (sendbuf : Frame) (p : Hio × Frame)
    (hp : p ∈ pongWalk clients sendbuf) :
    p.1 ∈ clients.map IoT.io ∧ (p.1.fd = sendbuf.i32 fd ∨ p.1.fd = 0) := by
  induction clients generalizing sendbuf with
  | nil => cases hp
  | cons conn rest ih =>
    rw [pongWalk] at hp
    split at hp
    · next hfd =>
      rcases List.mem_cons.mp hp with rfl | hp
      · exact ⟨by simp, Or.inl hfd⟩
      · obtain ⟨hmem, hzero⟩ := ih _ hp
        rw [Region.i32_zero, or_self] at hzero
        exact ⟨List.mem_cons_of_mem _ hmem, Or.inr hzero⟩
    · obtain ⟨hmem, hfd⟩ := ih _ hp
      exact ⟨List.mem_cons_of_mem _ hmem, hfd⟩

/-- Writes go to entries with the frame's descriptor, or behind a heartbeat to 0. -/
theorem written_mem {e : Env} {f : Frame} {fsize : Int} {clients : List IoT} {p : Hio × Frame}
    (hp : p ∈ written e f fsize clients) : p.1 ∈ clients.map IoT.io ∧
      (p.1.fd = f.i32 fd ∨ f.u32 NetmtCommand.commonid = NETMT_HEARTBEAT ∧ p.1.fd = 0) := by
  rw [written] at hp
  split at hp
  · next hid =>
    split at hp
    · obtain ⟨hmem, hfd⟩ := pongWalk_mem _ _ p hp
      have hsame : (f.putU64 lastRecvPongTime e.curTime).i32 fd = f.i32 fd := by simp
      rw [hsame] at hfd
      exact ⟨hmem, hfd.imp_right fun hz => ⟨hid, hz⟩⟩
    · cases hp
  · split at hp
    · obtain ⟨conn, hconn, rfl⟩ := List.mem_map.mp hp
      obtain ⟨hmem, hfd⟩ := List.mem_filter.mp hconn
      exact ⟨List.mem_map_of_mem hmem, Or.inl (of_decide_eq_true hfd)⟩
    · cases hp

section Change

variable {e : Env} {io : Hio} {f : Frame} {tail : List UInt8} {s s' : Server}

/-- A frame that touches neither the entries nor the connections. -/
theorem Change.of_same (hentry : ∀ conn, entryAfter io f tail conn = conn)
    (hwritten : written e f s.fsize s.clients = []) (hc : s'.clients = s.clients)
    (ho : s'.out = s.out) (ht : f.u32 NetmtCommand.commonid ≠ NETMT_GET →
      s'.files = s.files ∧ s'.fp = s.fp ∧ s'.fsize = s.fsize ∧ s'.mutex = s.mutex) :
    Change e io f tail s s' where
  clients := by rw [hc, List.map_congr_left fun conn _ => hentry conn, List.map_id']
  out := by rw [ho, hwritten, List.append_nil]
  transfer := ht

theorem entryAfter_same (hreg : f.u32 NetmtCommand.commonid ≠ NETMT_REGISTER)
    (hexec : ¬ (f.u32 NetmtCommand.commonid = NETMT_EXEC ∧
      f.u32 subcommonid = NETMT_EXEC_SHELL_RESULT)) (conn : IoT) :
    entryAfter io f tail conn = conn := by
  rw [entryAfter, if_neg hreg, if_neg hexec]

theorem written_none (fsize : Int) (clients : List IoT)
    (hbeat : f.u32 NetmtCommand.commonid ≠ NETMT_HEARTBEAT)
    (hget : ¬ (f.u32 NetmtCommand.commonid = NETMT_GET ∧ f.u32 subcommonid = NETMT_GET_END ∧
      f.i32 byteSize = fsize)) : written e f fsize clients = [] := by
  rw [written, if_neg hbeat, if_neg hget]

theorem onPing_change (hid : f.u32 NetmtCommand.commonid = NETMT_PING)
    (h : (onPing e f s).Ends s') : Change e io f tail s s' := by
  have hentry : ∀ conn, entryAfter io f tail conn = conn :=
    entryAfter_same (by rw [hid]; decide) fun h => absurd (hid.symm.trans h.1) (by decide)
  have hwritten := written_none (e := e) (f := f) s.fsize s.clients (by rw [hid]; decide)
    (fun h => absurd (hid.symm.trans h.1) (by decide))
  rw [onPing] at h
  split at h <;> rcases h with h | h <;> cases h <;>
    exact .of_same hentry hwritten rfl rfl fun _ => ⟨rfl, rfl, rfl, rfl⟩

theorem onHeartbeat_change (hid : f.u32 NetmtCommand.commonid = NETMT_HEARTBEAT)
    (h : (onHeartbeat e f s).Ends s') : Change e io f tail s s' := by
  have hentry : ∀ conn, entryAfter io f tail conn = conn :=
    entryAfter_same (by rw [hid]; decide) fun h => absurd (hid.symm.trans h.1) (by decide)
  have hnone : ∀ {t : Server}, ¬ (f.u32 subcommonid = NETMT_SUCCESS ∧ heartbeatAge e.curTime f > 0 ∧
      heartbeatAge e.curTime f < 15000) → t = s → Change e io f tail s t := by
    rintro t hno rfl
    refine .of_same hentry ?_ rfl rfl fun _ => ⟨rfl, rfl, rfl, rfl⟩
    rw [written, if_pos hid, if_neg hno]
  rw [onHeartbeat] at h
  split at h
  · next hsub =>
    simp only at h
    split at h
    · next hage =>
      rcases h with h | h <;> cases h
      refine ⟨?_, ?_, fun _ => ⟨rfl, rfl, rfl, rfl⟩⟩
      · rw [List.map_congr_left fun conn _ => hentry conn, List.map_id']
      · rw [written, if_pos hid, if_pos ⟨hsub, hage⟩]
    · next hage =>
      rcases h with h | h <;> cases h
      exact hnone (fun hall => hage hall.2) rfl
  · next hsub =>
    rcases h with h | h <;> cases h
    exact hnone (fun hall => hsub hall.1) rfl

theorem onRegister_change (hid : f.u32 NetmtCommand.commonid = NETMT_REGISTER)
    (h : (onRegister f s).Ends s') : Change e io f tail s s' := by
  rcases h with h | h <;> cases h
  refine ⟨?_, ?_, fun _ => ⟨rfl, rfl, rfl, rfl⟩⟩
  · apply List.map_congr_left
    intro conn _
    have hentry : entryAfter io f tail conn =
        if conn.io.fd = f.i32 fd then { conn with netmtclient := clientRecord f } else conn := by
      rw [entryAfter, if_pos hid]
    exact hentry.symm
  · rw [written_none s.fsize s.clients (by rw [hid]; decide)
      fun h => absurd (hid.symm.trans h.1) (by decide), List.append_nil]

theorem onGet_change (hid : f.u32 NetmtCommand.commonid = NETMT_GET)
    (h : (onGet e f tail s).Ends s') : Change e io f tail s s' := by
  have hentry : ∀ conn, entryAfter io f tail conn = conn :=
    entryAfter_same (by rw [hid]; decide) fun h => absurd (hid.symm.trans h.1) (by decide)
  have hsame : ∀ {t : Server}, (f.u32 subcommonid = NETMT_GET_END → f.i32 byteSize ≠ s.fsize) →
      t.clients = s.clients → t.out = s.out → Change e io f tail s t := by
    intro t hno hc ho
    exact .of_same hentry (written_none _ _ (by rw [hid]; decide) fun h => hno h.2.1 h.2.2) hc
      ho fun hne => absurd hid hne
  have hearlier : ∀ {k : Nat}, f.u32 subcommonid = k → k ≠ NETMT_GET_END →
      f.u32 subcommonid = NETMT_GET_END → f.i32 byteSize ≠ s.fsize :=
    fun hsub hne hend => absurd (hsub.symm.trans hend) hne
  rcases h with h | h
  · cases onGet_iff.mp h with
    | opened hsub => exact hsame (hearlier hsub (by decide)) rfl rfl
    | written hsub => exact hsame (hearlier hsub (by decide)) rfl rfl
    | complete hsub hclose hsize =>
      refine ⟨?_, ?_, fun hne => absurd hid hne⟩
      · rw [List.map_congr_left fun conn _ => hentry conn, List.map_id']
      · rw [written, if_neg (by rw [hid]; decide), if_pos ⟨hid, hsub, hsize⟩]
    | incomplete hsub hclose hsize => exact hsame (fun _ => hsize) rfl rfl
    | other hopen hdata hend => exact hsame (fun hsub => absurd hsub hend) rfl rfl
  · cases onGet_iff.mp h with
    | notOpened hsub => exact hsame (hearlier hsub (by decide)) rfl rfl
    | short hsub => exact hsame (hearlier hsub (by decide)) rfl rfl

theorem onExec_change (hid : f.u32 NetmtCommand.commonid = NETMT_EXEC)
    (h : (onExec io f tail s).Ends s') : Change e io f tail s s' := by
  have hwritten : written e f s.fsize s.clients = [] :=
    written_none _ _ (by rw [hid]; decide) fun h => absurd (hid.symm.trans h.1) (by decide)
  rcases h with h | h
  · cases onExec_iff.mp h with
    | @saved text hsub hm hlisted htext =>
      refine ⟨?_, by rw [hwritten, List.append_nil], fun _ => ⟨rfl, rfl, rfl, rfl⟩⟩
      apply List.map_congr_left
      intro conn _
      have hentry : entryAfter io f tail conn =
          if conn.io = io then saveResult text conn else conn := by
        rw [entryAfter, if_neg (by rw [hid]; decide), if_pos ⟨hid, hsub⟩, htext, Option.getD_some]
      exact hentry.symm
    | other hsub =>
      exact .of_same (entryAfter_same (by rw [hid]; decide) fun h => hsub h.2) hwritten rfl rfl
        fun _ => ⟨rfl, rfl, rfl, rfl⟩
  · cases onExec_iff.mp h

/-- Every frame whose handling is no fault. -/
theorem switch_change (h : (switch e io f tail s).Ends s') : Change e io f tail s s' := by
  rcases command_cases (f.u32 NetmtCommand.commonid) with hid | hid | hid | hid | hid | hid
  · exact onPing_change hid (switch_ping hid ▸ h)
  · exact onHeartbeat_change hid (switch_heartbeat hid ▸ h)
  · exact onRegister_change hid (switch_register hid ▸ h)
  · exact onGet_change hid (switch_get hid ▸ h)
  · exact onExec_change hid (switch_exec hid ▸ h)
  · have hno : ∀ k ∈ commands, f.u32 NetmtCommand.commonid ≠ k := fun k hk heq => hid (heq ▸ hk)
    rw [switch_other hid] at h
    rcases h with h | h <;> cases h
    exact .of_same (entryAfter_same (hno _ (by decide)) fun h => hno _ (by decide) h.1)
      (written_none _ _ (hno _ (by decide)) fun h => hno _ (by decide) h.1) rfl rfl
      fun _ => ⟨rfl, rfl, rfl, rfl⟩

/-- The mutex stays locked only when a write comes up short, which leaves the callback. -/
theorem switch_mutex (h : switch e io f tail s = .next s') : s'.mutex = s.mutex := by
  by_cases hid : f.u32 NetmtCommand.commonid = NETMT_GET
  · rw [switch_get hid] at h
    cases onGet_iff.mp h <;> rfl
  · exact ((switch_change (.inl h)).transfer hid).2.2.2

end Change

/-- Handling a whole frame in `databuf`. -/
theorem handle_mutex {env : Nat → Env} {io : Hio} {db db' : Databuf} {o : Nat} {f : Frame}
    {s s' : Server} (hat : HasAt db o f.bytes) (h : handle env io db o s = .next db' s') :
    s'.mutex = s.mutex := by
  rw [handle_frame env io db o f s hat] at h
  have hsame := switch_mutex (lift_next h).1
  exact hsame

/-- The server's `tcp_recv`. -/
def tcpRecv (env : Nat → Env) (io : Hio) : List UInt8 → Rx → Server → Result Server :=
  NetmtTcpRecv.tcpRecv (handle env io) id

/-- A read that is one whole frame, handled to its end. -/
theorem tcpRecv_next (env : Nat → Env) (io : Hio) {rx : Rx} (h : Holds rx []) {f : Frame}
    (hf : WellSized f) {s s' : Server} (hn : next env io s f = some s') (res : Result Server)
    (hres : tcpRecv env io f.bytes rx s = res) :
    res.exit = .done ∧ res.state = s' ∧ Holds res.rx [] := by
  have hlen := f.length_bytes
  have hpos : f.bytes ≠ [] := List.length_pos_iff.mp (by omega)
  rcases tcpRecv_frames _ (handle_local env io) id h (by omega) hpos [f]
    (fun g hg => List.mem_singleton.mp hg ▸ hf) [] partial_nil (by simp) s res hres with
    ⟨hdone, -, hrx, hhandled, -⟩ | ⟨-, fs₁, fs₂, g, db, off, s₁, hsplit, hh, hat, hne⟩
  · refine ⟨hdone, ?_, hrx⟩
    generalize hrs : res.state = t at hhandled
    cases hhandled (by simp) with
    | cons hat hnext hnil =>
      rw [id, handle_next env io hn _ _ hat] at hnext
      cases hnext
      cases hnil
      rfl
  · exfalso
    cases fs₁ with
    | cons _ fs₁ => simp at hsplit
    | nil =>
      obtain rfl : f = g := (List.cons.inj hsplit).1
      cases hh
      exact hne _ _ (handle_next env io hn db off hat)

/-- `netmt_accept`: the new entry goes to the front of the list. -/
def netmtAccept (io : Hio) (s : Server) : Step Server :=
  if s.mutex then .fault .deadlock
  else .next { s with clients := ⟨io, default, [], DATABUF, 0, 0⟩ :: s.clients }

/-- `netmt_close`: the entry that is the connection's userdata is unlinked and freed. -/
def netmtClose (io : Hio) (s : Server) : Step Server :=
  if s.clients.all fun conn => conn.io ≠ io then .next s
  else if s.mutex then .fault .deadlock
  else .next { s with clients := s.clients.filter fun conn => conn.io ≠ io }

theorem netmtAccept_eq (io : Hio) (s : Server) (h : s.mutex = false) :
    netmtAccept io s =
      .next { s with clients := ⟨io, default, [], DATABUF, 0, 0⟩ :: s.clients } := by
  rw [netmtAccept, if_neg (by simp [h])]

/-- Without an entry for the connection there is nothing to filter out. -/
theorem filter_absent {io : Hio} {clients : List IoT}
    (h : clients.all (fun conn => conn.io ≠ io) = true) :
    (clients.filter fun conn => conn.io ≠ io) = clients :=
  List.filter_eq_self.mpr (List.all_eq_true.mp h)

theorem netmtClose_eq (io : Hio) (s : Server) (h : s.mutex = false) :
    netmtClose io s = .next { s with clients := s.clients.filter fun conn => conn.io ≠ io } := by
  rw [netmtClose]
  split
  · next hall => rw [filter_absent hall]
  · rw [if_neg (by simp [h])]

/-- However the callback ends, the entry is in the list. -/
theorem accept_ends {io : Hio} {s s' : Server} (h : (netmtAccept io s).Ends s') :
    s' = { s with clients := ⟨io, default, [], DATABUF, 0, 0⟩ :: s.clients } := by
  rw [netmtAccept] at h
  split at h
  · exact absurd h Step.fault_ends
  · exact Step.next_ends.mp h

theorem close_ends {io : Hio} {s s' : Server} (h : (netmtClose io s).Ends s') :
    s' = { s with clients := s.clients.filter fun conn => conn.io ≠ io } := by
  rw [netmtClose] at h
  split at h
  · next hall =>
    rw [filter_absent hall]
    exact Step.next_ends.mp h
  · split at h
    · exact absurd h Step.fault_ends
    · exact Step.next_ends.mp h

/-- Open connections have different descriptors, so at most one entry is found. -/
theorem filter_fd (clients : List IoT) (h : (clients.map fun conn => conn.io.fd).Nodup) (conn : IoT)
    (hc : conn ∈ clients) : clients.filter (fun c => c.io.fd = conn.io.fd) = [conn] := by
  induction clients with
  | nil => cases hc
  | cons a rest ih =>
    rw [List.map_cons, List.nodup_cons] at h
    rcases List.mem_cons.mp hc with rfl | hc
    · have hnone : rest.filter (fun c => c.io.fd = conn.io.fd) = [] := by
        rw [List.filter_eq_nil_iff]
        intro c hcr heq
        exact h.1 (of_decide_eq_true heq ▸ List.mem_map_of_mem hcr)
      rw [List.filter_cons_of_pos (by simp), hnone]
    · have hne : a.io.fd ≠ conn.io.fd := by
        intro heq
        exact h.1 (heq ▸ List.mem_map_of_mem hc)
      rw [List.filter_cons_of_neg (by simpa using hne), ih h.2 hc]

end NetmtServer
