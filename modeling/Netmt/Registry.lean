import Netmt.Registration
import Netmt.ExecResults
import Netmt.SendTransfer
import Netmt.Lib.Outcome
import Mathlib.Logic.Function.Basic

/-!
# The client list and the objects behind it

libhv keeps one `hio_t` for a descriptor and uses it again for the next connection
with that descriptor. Its `userdata` points to the `io_t` that the accept callback
allocated and linked; the close callback unlinks and frees what it points to. Here
the entries have addresses, and entry and connection find each other through them
alone.
-/
namespace NetmtRegistry

open NetmtCommand NetmtTcpRecv NetmtTransfer NetmtServer NetmtServerCommand NetmtRegistration
  NetmtExecResults Systems

/-- The client list with the address of each `io_t`, the other globals, and the
`userdata` of the `hio_t` for each descriptor. -/
structure Table where
  entries : List (Nat × IoT)
  rest : Server
  userdata : Int → Option Nat

/-- The server, without addresses. -/
def Table.server (t : Table) : Server := { t.rest with clients := t.entries.map Prod.snd }

/-- Other globals and other contents of the entries. -/
def Table.withServer (t : Table) (s : Server) : Table :=
  { t with entries := (t.entries.map Prod.fst).zip s.clients, rest := s }

/-- Which entry has which address, and which connection it is for. -/
def Table.shape (t : Table) : List (Nat × Hio) := t.entries.map fun p => (p.1, p.2.io)

/-! ## The callbacks -/

/-- `nio_accept`: the object of the new connection takes over the listener's `userdata`. -/
def nioAccept (listen : Option Nat) (io : Hio) (t : Table) : Table :=
  { t with userdata := Function.update t.userdata io.fd listen }

/-- `netmt_accept`, when `a` is the address that is allocated. -/
def netmtAcceptAt (a : Nat) (io : Hio) (t : Table) : Step Table :=
  let t' := { t with userdata := Function.update t.userdata io.fd (some a) }
  if t.rest.mutex then .fault .deadlock
  else .next { t' with entries := (a, ⟨io, default, [], DATABUF, 0, 0⟩) :: t.entries }

/-- `netmt_close`; unlinking what is not in the list is a fault. -/
def netmtCloseAt (io : Hio) (t : Table) : Step Table :=
  match t.userdata io.fd with
  | none => .next t
  | some a =>
    let t' := { t with userdata := Function.update t.userdata io.fd none }
    if t.rest.mutex then .fault .deadlock
    else if a ∉ t.entries.map Prod.fst then .fault .nullUserdata
    else .next { t' with entries := t.entries.filter fun p => p.1 ≠ a }

/-- `save_result_info_to_buffer` and `handle_endflag`, through `io->userdata`. -/
def onExecAt (io : Hio) (f : Frame) (tail : List UInt8) (t : Table) : Step Table :=
  if f.u32 subcommonid = NETMT_EXEC_SHELL_RESULT then
    if t.rest.mutex then .fault .deadlock
    else
      match t.userdata io.fd with
      | none => .fault .nullUserdata
      | some a =>
        if a ∉ t.entries.map Prod.fst then .fault .nullUserdata
        else
          match cstrAt f tail totalResult with
          | none => .fault .outOfBounds
          | some text =>
            .next { t with entries := t.entries.map fun p =>
              (p.1, if p.1 = a then handleEndflag (saveResultInfoToBuffer text p.2) else p.2) }
  else .next t

def Step.map {σ τ : Type} (g : σ → τ) : Step σ → Step τ
  | .next s => .next (g s)
  | .leave s => .leave (g s)
  | .fault e => .fault e

/-- The other handlers walk the list and look at no `userdata`. -/
def switchAt (e : Env) (io : Hio) (f : Frame) (tail : List UInt8) (t : Table) : Step Table :=
  if f.u32 NetmtCommand.commonid = NETMT_EXEC then onExecAt io f tail t
  else Step.map t.withServer (switch e io f tail t.server)

def Table.ticked (t : Table) : Table := { t with rest := { t.rest with tick := t.rest.tick + 1 } }

/-- How far `onExecAt` looks. -/
def execReachAt (io : Hio) (f : Frame) (tail : List UInt8) (t : Table) : Option Nat :=
  if f.u32 subcommonid = NETMT_EXEC_SHELL_RESULT then
    if t.rest.mutex then some 16
    else
      match t.userdata io.fd with
      | none => some 16
      | some a => if a ∉ t.entries.map Prod.fst then some 16 else cstrReach f tail totalResult
  else some 16

def reachAt (e : Env) (io : Hio) (f : Frame) (tail : List UInt8) (t : Table) : Option Nat :=
  if f.u32 NetmtCommand.commonid = NETMT_EXEC then execReachAt io f tail t
  else reach e io f tail t.server

def handleAt (env : Nat → Env) (io : Hio) : Handler Table := fun db off t =>
  onComm db off (fun f tail => reachAt (env t.rest.tick) io f tail t.ticked) fun f tail =>
    (switchAt (env t.rest.tick) io f tail t.ticked).lift db

/-! ## Commands -/

/-- `send_total_string`; `connfd` has room for ten descriptors. -/
def sendTotalString (cmd : Frame) (s : Server) : Except Fault Server :=
  if 10 < (s.clients.filter fun conn => conn.io.fd ≠ 0).length then .error .localBuffer
  else .ok (broadcast (fun conn => conn.io.fd ≠ 0) (setLen cmd) s)

/-- `send_single_fd`. -/
def sendSingleFd (k : Int) (cmd : Frame) (s : Server) : Server :=
  broadcast (fun conn => conn.io.fd = k) (setLen cmd) s

/-- What the console does to the server: a command, or a pass of one. -/
inductive Command : Server → Server → Prop where
  | get (cwd : CString) (argv : List CString) (s : Server) : Command s (getNetmt cwd argv s).1
  | begin {cwd : CString} {argv : List CString} {fopenOk : Bool} {h h' : Host} {t : Sending} :
      sendBegin cwd argv fopenOk h = .passes h' t → Command h.server h'.server
  | send (t : Sending) (h : Host) : Command h.server (sendOpen t h).server
  | data {t t' : Sending} {h h' : Host} : sendData t h = .ok (h', t') → Command h.server h'.server
  | finish {t : Sending} {h h' : Host} : sendEnd t h = .ok h' → Command h.server h'.server
  | register (s : Server) : Command s (registerNetmt s)
  | execAll {cmd : Frame} {s s' : Server} : sendTotalString cmd s = .ok s' → Command s s'
  | execSingle (k : Int) (cmd : Frame) (s : Server) : Command s (sendSingleFd k cmd s)
  | print (s : Server) : Command s { s with clients := (printAllClientReturnInfo s.clients).1 }

/-- No command adds, removes or moves an entry. -/
theorem Command.ios {s s' : Server} (h : Command s s') :
    s'.clients.map IoT.io = s.clients.map IoT.io := by
  cases h with
  | get cwd argv =>
    simp only [getNetmt]
    split <;> rfl
  | begin hb =>
    obtain ⟨_, _, _, _, _, _, rfl, _⟩ := sendBegin_passes hb
    rfl
  | send t h => rfl
  | @data t t' h h' hd =>
    rw [sendData] at hd
    obtain ⟨id, -, hrun⟩ := Outcome.map_eq_ok.mp hd
    cases hrun
    rw [NetmtSendTransfer.broadcasts]
  | @finish t h h' he =>
    rw [sendEnd] at he
    obtain ⟨files, -, rfl⟩ := Outcome.map_eq_ok.mp he
    rfl
  | register => rfl
  | @execAll cmd _ _ h =>
    rw [sendTotalString] at h
    split at h <;> cases h
    rfl
  | execSingle k cmd => rfl
  | print =>
    rw [printAllClientReturnInfo, List.map_map]
    apply List.map_congr_left
    intro conn _
    rw [Function.comp_apply]
    split <;> rfl

/-! ## What a read and a command leave alone -/

@[simp] theorem server_clients (t : Table) : t.server.clients = t.entries.map Prod.snd := rfl

theorem shape_fst (t : Table) : t.shape.map Prod.fst = t.entries.map Prod.fst := by
  rw [Table.shape, List.map_map]
  rfl

theorem shape_io (t : Table) : t.shape.map Prod.snd = t.server.clients.map IoT.io := by
  rw [Table.shape, server_clients, List.map_map, List.map_map]
  rfl

theorem length_of_ios {s s' : Server} (h : s'.clients.map IoT.io = s.clients.map IoT.io) :
    s'.clients.length = s.clients.length := by
  have hlen := congrArg List.length h
  rwa [List.length_map, List.length_map] at hlen

/-- Contents change, addresses and connections do not. -/
theorem withServer_shape (t : Table) {s : Server}
    (h : s.clients.map IoT.io = t.server.clients.map IoT.io) :
    (t.withServer s).shape = t.shape := by
  have hzip : (t.withServer s).shape = (t.entries.map Prod.fst).zip (s.clients.map IoT.io) := by
    rw [List.zip_map_right]
    rfl
  rw [hzip, h, server_clients, List.map_map, List.zip_map']
  rfl

/-- And the server behind it is the given one. -/
theorem withServer_server (t : Table) {s : Server}
    (h : s.clients.map IoT.io = t.server.clients.map IoT.io) : (t.withServer s).server = s := by
  have hlen := length_of_ios h
  rw [server_clients, List.length_map] at hlen
  have hsnd : ((t.entries.map Prod.fst).zip s.clients).map Prod.snd = s.clients :=
    List.map_snd_zip (by rw [List.length_map, hlen])
  rw [Table.server, Table.withServer, hsnd]

/-- The same addresses, connections and pointers. -/
def SameShape (t t' : Table) : Prop := t'.shape = t.shape ∧ t'.userdata = t.userdata

theorem switch_ios {e : Env} {io : Hio} {f : Frame} {tail : List UInt8} {s s' : Server}
    (h : (switch e io f tail s).Ends s') : s'.clients.map IoT.io = s.clients.map IoT.io := by
  rw [(switch_change h).clients, List.map_map]
  apply List.map_congr_left
  intro conn _
  exact entryAfter_io io f tail conn

theorem withServer_sameShape (t : Table) {s : Server}
    (h : s.clients.map IoT.io = t.server.clients.map IoT.io) : SameShape t (t.withServer s) :=
  ⟨withServer_shape t h, rfl⟩

theorem onExecAt_shape {io : Hio} {f : Frame} {tail : List UInt8} {t t' : Table}
    (h : (onExecAt io f tail t).Ends t') : SameShape t t' := by
  simp only [onExecAt] at h
  split at h
  · split at h
    · rcases h with h | h <;> cases h
    · split at h
      · rcases h with h | h <;> cases h
      · split at h
        · rcases h with h | h <;> cases h
        · split at h
          · rcases h with h | h <;> cases h
          · rcases h with h | h <;> cases h
            refine ⟨?_, rfl⟩
            rw [Table.shape, List.map_map]
            apply List.map_congr_left
            intro p _
            rw [Function.comp_apply]
            split <;> rfl
  · rcases h with h | h <;> cases h
    exact ⟨rfl, rfl⟩

theorem Step.map_ends {σ τ : Type} {g : σ → τ} {st : Step σ} {t : τ} (h : (Step.map g st).Ends t) :
    ∃ s, st.Ends s ∧ g s = t := by
  cases st with
  | next s =>
    rcases h with h | h <;> cases h
    exact ⟨s, Or.inl rfl, rfl⟩
  | leave s =>
    rcases h with h | h <;> cases h
    exact ⟨s, Or.inr rfl, rfl⟩
  | fault e => rcases h with h | h <;> cases h

theorem switchAt_shape {e : Env} {io : Hio} {f : Frame} {tail : List UInt8} {t t' : Table}
    (h : (switchAt e io f tail t).Ends t') : SameShape t t' := by
  rw [switchAt] at h
  split at h
  · exact onExecAt_shape h
  · obtain ⟨s, hs, rfl⟩ := Step.map_ends h
    exact withServer_sameShape t (switch_ios hs)

theorem handleAt_shape {env : Nat → Env} {io : Hio} {db : Databuf} {off : Int} {t t' : Table}
    (h : (handleAt env io db off t).Ends t') : SameShape t t' := by
  have hends : (switchAt (env t.server.tick) io (frameAt db off)
      (behind db off) t.ticked).Ends t' := by
    rw [handleAt] at h
    exact onComm_ends h
  exact switchAt_shape (t := t.ticked) hends

/-! ## Entries, connections and pointers -/

/-- Every entry is where the `userdata` of its connection points, and the connections
have different descriptors. -/
structure Linked (t : Table) : Prop where
  addrs : (t.shape.map Prod.fst).Nodup
  fds : (t.shape.map fun p => p.2.fd).Nodup
  userdata : ∀ p ∈ t.shape, t.userdata p.2.fd = some p.1

theorem SameShape.linked {t t' : Table} (h : SameShape t t') (hl : Linked t) : Linked t' := by
  obtain ⟨hshape, huserdata⟩ := h
  constructor
  · rw [hshape]
    exact hl.addrs
  · rw [hshape]
    exact hl.fds
  · rw [hshape, huserdata]
    exact hl.userdata

/-- The entry at an address and the entry of the connection are the same one. -/
theorem Linked.addr_iff {t : Table} (h : Linked t) {p q : Nat × Hio} (hp : p ∈ t.shape)
    (hq : q ∈ t.shape) : p.1 = q.1 ↔ p.2 = q.2 := by
  constructor
  · intro heq
    rw [List.inj_on_of_nodup_map h.addrs hp hq heq]
  · intro heq
    rw [List.inj_on_of_nodup_map h.fds hp hq (congrArg Hio.fd heq)]

/-- What `userdata` finds. -/
theorem Linked.found {t : Table} (h : Linked t) {io : Hio} (hio : io ∈ t.shape.map Prod.snd) :
    ∃ a, (a, io) ∈ t.shape ∧ t.userdata io.fd = some a ∧ a ∈ t.entries.map Prod.fst := by
  obtain ⟨p, hp, rfl⟩ := List.mem_map.mp hio
  refine ⟨p.1, hp, h.userdata p hp, ?_⟩
  rw [← shape_fst]
  exact List.mem_map_of_mem hp

theorem mem_shape {t : Table} {p : Nat × IoT} (hp : p ∈ t.entries) : (p.1, p.2.io) ∈ t.shape :=
  List.mem_map.mpr ⟨p, hp, rfl⟩

/-- The connection is one of the clients'. -/
theorem server_listed {t : Table} {io : Hio} (hio : io ∈ t.shape.map Prod.snd) :
    (t.server.clients.all fun conn => conn.io ≠ io) = false := by
  rw [shape_io] at hio
  obtain ⟨conn, hconn, hc⟩ := List.mem_map.mp hio
  rw [List.all_eq_false]
  exact ⟨conn, hconn, by simp [hc]⟩

theorem execReachAt_server {t : Table} (h : Linked t) {io : Hio} (hio : io ∈ t.shape.map Prod.snd)
    (f : Frame) (tail : List UInt8) : execReach io f tail t.server = execReachAt io f tail t := by
  obtain ⟨a, -, huserdata, haddr⟩ := h.found hio
  have hmutex : t.server.mutex = t.rest.mutex := rfl
  simp only [execReach, execReachAt, server_listed hio, huserdata, hmutex, not_true_eq_false, haddr,
    Bool.false_eq_true, if_false]

theorem reachAt_server {t : Table} (h : Linked t) {io : Hio} (hio : io ∈ t.shape.map Prod.snd)
    (e : Env) (f : Frame) (tail : List UInt8) :
    reach e io f tail t.server = reachAt e io f tail t := by
  rw [reachAt]
  split
  · next hid =>
    rw [← execReachAt_server h hio, reach, hid, if_neg (by decide), if_neg (by decide),
      if_neg (by decide),
      if_neg (by decide), if_pos rfl]
  · rfl

/-- The handler of a result, told by connections instead of addresses. -/
theorem onExecAt_server {t : Table} (h : Linked t) {io : Hio} (hio : io ∈ t.shape.map Prod.snd)
    (f : Frame) (tail : List UInt8) :
    onExec io f tail t.server = Step.map Table.server (onExecAt io f tail t) := by
  obtain ⟨a, ha, huserdata, haddr⟩ := h.found hio
  have hall := server_listed hio
  have hnot : ¬ a ∉ t.entries.map Prod.fst := fun hno => hno haddr
  have hmutex : t.server.mutex = t.rest.mutex := rfl
  rw [onExec, onExecAt, hall, huserdata, hmutex]
  split
  · split
    · rfl
    · simp only [Bool.false_eq_true, if_false, if_neg hnot]
      cases cstrAt f tail totalResult with
      | none => rfl
      | some text =>
        have hmap : t.server.clients.map
          (fun conn => if conn.io = io then saveResult text conn else conn) =
            (t.entries.map fun p =>
              (p.1, if p.1 = a then handleEndflag (saveResultInfoToBuffer text p.2) else p.2)).map
                Prod.snd := by
          rw [server_clients, List.map_map, List.map_map]
          apply List.map_congr_left
          intro p hp
          have hiff := h.addr_iff (mem_shape hp) ha
          simp only [Function.comp_apply]
          by_cases hpa : p.1 = a
          · rw [if_pos hpa, if_pos (hiff.mp hpa)]
            rfl
          · rw [if_neg hpa, if_neg fun heq => hpa (hiff.mpr heq)]
        simp only [Step.map, hmap]
        rfl
  · rfl

theorem switchAt_server {t : Table} (h : Linked t) {io : Hio} (hio : io ∈ t.shape.map Prod.snd)
    (e : Env) (f : Frame) (tail : List UInt8) :
    switch e io f tail t.server = Step.map Table.server (switchAt e io f tail t) := by
  rw [switchAt]
  split
  · next hid => rw [switch_exec hid, onExecAt_server h hio]
  · cases hs : switch e io f tail t.server with
    | next s =>
      simp only [Step.map]
      rw [withServer_server t (switch_ios (Or.inl hs))]
    | leave s =>
      simp only [Step.map]
      rw [withServer_server t (switch_ios (Or.inr hs))]
    | fault x => rfl

theorem lift_map {σ τ : Type} (g : σ → τ) (db : Databuf) (st : Step σ) :
    (Step.map g st).lift db = (st.lift db).map g := by
  cases st <;> rfl

theorem handleAt_server {t : Table} (h : Linked t) {io : Hio} (hio : io ∈ t.shape.map Prod.snd)
    (env : Nat → Env) (db : Databuf) (off : Int) :
    handle env io db off t.server = (handleAt env io db off t).map Table.server := by
  have hsame : SameShape t t.ticked := ⟨rfl, rfl⟩
  have hticked := hsame.linked h
  have hreach := reachAt_server hticked hio (env t.rest.tick) (frameAt db off) (behind db off)
  have hswitch := switchAt_server hticked hio (env t.rest.tick) (frameAt db off) (behind db off)
  have hhandle : handle env io db off t.server =
      onComm db off (fun f tail => reach (env t.rest.tick) io f tail t.ticked.server)
        fun f tail => (switch (env t.rest.tick) io f tail t.ticked.server).lift db := rfl
  rw [hhandle, handleAt]
  by_cases hin : Within off
    (reach (env t.rest.tick) io (frameAt db off) (behind db off) t.ticked.server)
  · rw [onComm_within hin, onComm_within (by rwa [hreach] at hin), ← lift_map, ← hswitch]
  · rw [onComm_outside hin, onComm_outside (by rwa [hreach] at hin)]
    rfl

/-- A read on an open connection, told by connections instead of addresses. -/
theorem read_server {t : Table} (h : Linked t) {io : Hio} (hio : io ∈ t.shape.map Prod.snd)
    (env : Nat → Env) (buf : List UInt8) (rx : Rx) :
    NetmtServer.tcpRecv env io buf rx t.server =
      (NetmtTcpRecv.tcpRecv (handleAt env io) id buf rx t).map Table.server := by
  have hkept : ∀ (db : Databuf) (off : Int) (t₁ t₂ : Table), Linked t₁ ∧
    io ∈ t₁.shape.map Prod.snd →
      (handleAt env io db off t₁).Ends t₂ → Linked t₂ ∧ io ∈ t₂.shape.map Prod.snd := by
    intro db off t₁ t₂ hl hends
    have hshape := handleAt_shape hends
    refine ⟨hshape.linked hl.1, ?_⟩
    rw [hshape.1]
    exact hl.2
  exact tcpRecv_map (fun db off t₁ hl => handleAt_server hl.1 hl.2 env db off)
    hkept buf rx t ⟨h, hio⟩

theorem read_sameShape (env : Nat → Env) (io : Hio) (buf : List UInt8) (rx : Rx) (t : Table) :
    SameShape t (NetmtTcpRecv.tcpRecv (handleAt env io) id buf rx t).state := by
  have hkept : ∀ (db : Databuf) (off : Int) (t₁ t₂ : Table), SameShape t t₁ →
      (handleAt env io db off t₁).Ends t₂ → SameShape t t₂ := by
    intro db off t₁ t₂ h hends
    obtain ⟨hshape, huserdata⟩ := handleAt_shape hends
    exact ⟨hshape.trans h.1, huserdata.trans h.2⟩
  exact tcpRecv_keeps hkept buf rx t ⟨rfl, rfl⟩

theorem command_sameShape {t : Table} {s : Server} (h : Command t.server s) :
    SameShape t (t.withServer s) :=
  withServer_sameShape t h.ios

/-! ## Runs -/

structure World where
  table : Table
  rx : Rx
  /-- every connection that was accepted -/
  accepted : List Hio
  /-- those whose close callback has not run -/
  opened : List Hio
  /-- calls of `hio_close` that libhv has not looked at -/
  closing : List Hio

def begin (files : FileStore) : World :=
  ⟨⟨[], initial files, fun _ => none⟩, Rx.initial, [], [], []⟩

/-- Steps of libhv with the callbacks of the server, and of the console. The listener's
`userdata` is `listen`. -/
inductive Moves (listen : Option Nat) : World → World → Prop where
  /-- descriptor and address are not in use -/
  | accept {w : World} {t : Table} (io : Hio) (a : Nat) : io.fd ∉ w.opened.map Hio.fd →
      io.conn ∉ w.accepted.map Hio.conn → a ∉ w.table.entries.map Prod.fst →
      netmtAcceptAt a io (nioAccept listen io w.table) = .next t →
      Moves listen w { w with table := t, accepted := io :: w.accepted, opened := io :: w.opened }
  /-- by either program, any number of times -/
  | request {w : World} (io : Hio) : io ∈ w.accepted →
      Moves listen w { w with closing := w.closing ++ [io] }
  | close {w : World} {t : Table} (io : Hio) (older newer : List Hio) :
      w.closing = older ++ io :: newer → io ∈ w.opened → netmtCloseAt io w.table = .next t →
      Moves listen w
        { w with table := t, opened := w.opened.filter fun o => o ≠ io, closing := older ++ newer }
  /-- `if (io->closed) return 0;` -/
  | closed {w : World} (io : Hio) (older newer : List Hio) : w.closing = older ++ io :: newer →
      io ∉ w.opened → Moves listen w { w with closing := older ++ newer }
  | read {w : World} (env : Nat → Env) (io : Hio) (buf : List UInt8) (res : Result Table) :
      io ∈ w.opened → NetmtTcpRecv.tcpRecv (handleAt env io) id buf w.rx w.table = res →
      Moves listen w { w with table := res.state, rx := res.rx }
  | command {w : World} {s : Server} : Command w.table.server s →
      Moves listen w { w with table := w.table.withServer s }

def registry (listen : Option Nat) (files : FileStore) : System World where
  start w := w = begin files
  step := Moves listen

/-- The entries are linked, and there is one for each open connection. -/
structure Registered (w : World) : Prop where
  linked : Linked w.table
  opened : w.table.shape.map Prod.snd = w.opened

theorem Registered.fds {w : World} (h : Registered w) : (w.opened.map Hio.fd).Nodup := by
  rw [← h.opened, List.map_map]
  exact h.linked.fds

theorem SameShape.registered {w : World} {t : Table} (hs : SameShape w.table t) (h : Registered w)
    (rx : Rx) : Registered { w with table := t, rx := rx } where
  linked := hs.linked h.linked
  opened := by
    rw [hs.1]
    exact h.opened

/-! ### Accepting -/

theorem accept_eq {listen : Option Nat} {a : Nat} {io : Hio} {t t' : Table}
    (h : netmtAcceptAt a io (nioAccept listen io t) = .next t') :
    t.rest.mutex = false ∧ t'.entries = (a, ⟨io, default, [], DATABUF, 0, 0⟩) :: t.entries ∧
      t'.rest = t.rest ∧ t'.userdata = Function.update t.userdata io.fd (some a) := by
  rw [netmtAcceptAt] at h
  split at h
  · cases h
  · next hmutex =>
    cases h
    exact ⟨Bool.eq_false_iff.mpr hmutex, rfl, rfl, Function.update_idem _ _ _⟩

theorem accept_registered {listen : Option Nat} {w : World} {t : Table} {io : Hio} {a : Nat}
    (h : Registered w) (hfd : io.fd ∉ w.opened.map Hio.fd) (ha : a ∉ w.table.entries.map Prod.fst)
    (ht : netmtAcceptAt a io (nioAccept listen io w.table) = .next t) :
    Registered { w with table := t, accepted := io :: w.accepted, opened := io :: w.opened } := by
  obtain ⟨-, hentries, -, huserdata⟩ := accept_eq ht
  have hshape : t.shape = (a, io) :: w.table.shape := by
    rw [Table.shape, hentries]
    rfl
  have hfds : w.table.shape.map (fun p => p.2.fd) = w.opened.map Hio.fd := by
    rw [← h.opened, List.map_map]
    rfl
  constructor
  · constructor
    · change (t.shape.map Prod.fst).Nodup
      rw [hshape, List.map_cons, List.nodup_cons, shape_fst]
      exact ⟨ha, shape_fst w.table ▸ h.linked.addrs⟩
    · change (t.shape.map fun p => p.2.fd).Nodup
      rw [hshape, List.map_cons, List.nodup_cons, hfds]
      exact ⟨hfd, h.fds⟩
    · change ∀ p ∈ t.shape, t.userdata p.2.fd = some p.1
      intro p hp
      rw [hshape] at hp
      rw [huserdata]
      rcases List.mem_cons.mp hp with rfl | hp
      · exact Function.update_self _ _ _
      · have hne : p.2.fd ≠ io.fd := by
          intro heq
          exact hfd (heq ▸ hfds ▸ List.mem_map_of_mem hp)
        rw [Function.update_of_ne hne]
        exact h.linked.userdata p hp
  · change t.shape.map Prod.snd = io :: w.opened
    rw [hshape, List.map_cons, h.opened]

/-! ### Closing -/

theorem close_eq {t t' : Table} (hl : Linked t) {io : Hio} (hio : io ∈ t.shape.map Prod.snd)
    (h : netmtCloseAt io t = .next t') : t.rest.mutex = false ∧ t'.rest = t.rest ∧
      t'.userdata = Function.update t.userdata io.fd none ∧
      t'.entries = t.entries.filter fun p => p.2.io ≠ io := by
  obtain ⟨a, ha, huserdata, haddr⟩ := hl.found hio
  simp only [netmtCloseAt, huserdata] at h
  split at h
  · cases h
  · next hmutex =>
    cases h
    refine ⟨by simpa using hmutex, rfl, rfl, List.filter_congr fun p hp => ?_⟩
    have hiff := hl.addr_iff (mem_shape hp) ha
    exact decide_eq_decide.mpr (not_congr hiff)

theorem close_registered {w : World} {t : Table} {io : Hio} (h : Registered w) (hio : io ∈ w.opened)
    (ht : netmtCloseAt io w.table = .next t) (closing : List Hio) : Registered
      { w with table := t, opened := w.opened.filter fun o => o ≠ io, closing := closing } := by
  obtain ⟨-, -, huserdata, hentries⟩ := close_eq h.linked (h.opened ▸ hio) ht
  have hshape : t.shape = w.table.shape.filter fun p => p.2 ≠ io := by
    rw [Table.shape, hentries, Table.shape, List.filter_map]
    rfl
  have hsub : t.shape.Sublist w.table.shape := by
    rw [hshape]
    exact List.filter_sublist
  constructor
  · constructor
    · exact h.linked.addrs.sublist (hsub.map _)
    · exact h.linked.fds.sublist (hsub.map _)
    · change ∀ p ∈ t.shape, t.userdata p.2.fd = some p.1
      intro p hp
      rw [hshape] at hp
      obtain ⟨hmem, hother⟩ := List.mem_filter.mp hp
      have hne : p.2.fd ≠ io.fd := by
        intro heq
        have hsame : p.2 = io :=
          List.inj_on_of_nodup_map h.fds (h.opened ▸ List.mem_map_of_mem hmem) hio heq
        exact of_decide_eq_true hother hsame
      rw [huserdata, Function.update_of_ne hne]
      exact h.linked.userdata p hmem
  · change t.shape.map Prod.snd = w.opened.filter fun o => o ≠ io
    rw [hshape, ← h.opened, List.filter_map]
    rfl

/-! ### Every step -/

theorem registered_kept (listen : Option Nat) (files : FileStore) :
    (registry listen files).Keeps Registered where
  start w hw := by
    obtain rfl : w = begin files := hw
    exact ⟨⟨List.nodup_nil, List.nodup_nil, fun _ h => by cases h⟩, rfl⟩
  step w w' _ h hmove := by
    cases hmove with
    | accept io a hfd _ ha ht => exact accept_registered h hfd ha ht
    | request io _ => exact ⟨h.linked, h.opened⟩
    | close io older newer _ hio ht => exact close_registered h hio ht _
    | closed io older newer _ _ => exact ⟨h.linked, h.opened⟩
    | read env io buf res _ hres =>
      subst hres
      exact (read_sameShape env io buf w.rx w.table).registered h _
    | command hs => exact (command_sameShape hs).registered h w.rx

/-- The same state, with entries that are found by their connection. -/
structure Plain where
  server : Server
  rx : Rx
  accepted : List Hio
  opened : List Hio
  closing : List Hio

def World.plain (w : World) : Plain := ⟨w.table.server, w.rx, w.accepted, w.opened, w.closing⟩

inductive PlainMoves : Plain → Plain → Prop where
  | accept {v : Plain} {s : Server} (io : Hio) : io.fd ∉ v.opened.map Hio.fd →
      io.conn ∉ v.accepted.map Hio.conn → netmtAccept io v.server = .next s →
      PlainMoves v { v with server := s, accepted := io :: v.accepted, opened := io :: v.opened }
  | request {v : Plain} (io : Hio) : io ∈ v.accepted →
      PlainMoves v { v with closing := v.closing ++ [io] }
  | close {v : Plain} {s : Server} (io : Hio) (older newer : List Hio) :
      v.closing = older ++ io :: newer → io ∈ v.opened → netmtClose io v.server = .next s →
      PlainMoves v
        { v with server := s, opened := v.opened.filter fun o => o ≠ io, closing := older ++ newer }
  | closed {v : Plain} (io : Hio) (older newer : List Hio) : v.closing = older ++ io :: newer →
      io ∉ v.opened → PlainMoves v { v with closing := older ++ newer }
  | read {v : Plain} (env : Nat → Env) (io : Hio) (buf : List UInt8) (res : Result Server) :
      io ∈ v.opened → NetmtServer.tcpRecv env io buf v.rx v.server = res →
      PlainMoves v { v with server := res.state, rx := res.rx }
  | command {v : Plain} {s : Server} : Command v.server s → PlainMoves v { v with server := s }

def connections (files : FileStore) : System Plain where
  start v := v = ⟨initial files, Rx.initial, [], [], []⟩
  step := PlainMoves

theorem accept_server {listen : Option Nat} {a : Nat} {io : Hio} {t t' : Table}
    (h : netmtAcceptAt a io (nioAccept listen io t) = .next t') :
    netmtAccept io t.server = .next t'.server := by
  obtain ⟨hmutex, hentries, hrest, -⟩ := accept_eq h
  rw [netmtAccept_eq io t.server hmutex, Table.server, Table.server, hentries, hrest]
  rfl

theorem close_server {t t' : Table} (hl : Linked t) {io : Hio} (hio : io ∈ t.shape.map Prod.snd)
    (h : netmtCloseAt io t = .next t') : netmtClose io t.server = .next t'.server := by
  obtain ⟨hmutex, hrest, -, hentries⟩ := close_eq hl hio h
  rw [netmtClose_eq io t.server hmutex, Table.server, Table.server, hentries,
    hrest, List.filter_map]
  rfl

/-- Whatever the callbacks do through addresses, the server model does through
connections. -/
theorem registry_refines (listen : Option Nat) (files : FileStore) :
    Refines (registry listen files) (connections files) fun w v => v = w.plain where
  start w hw := by
    obtain rfl : w = begin files := hw
    exact ⟨_, rfl, rfl⟩
  step w w' v hreach hmove _ hv := by
    subst hv
    have hreg := (registered_kept listen files).reachable hreach
    refine ⟨w'.plain, Or.inr ?_, rfl⟩
    cases hmove with
    | accept io a hfd hconn _ ht => exact .accept (v := w.plain) io hfd hconn (accept_server ht)
    | request io hio => exact .request (v := w.plain) io hio
    | close io older newer hclosing hio ht =>
      exact .close (v := w.plain) io older newer hclosing hio
        (close_server hreg.linked (hreg.opened ▸ hio) ht)
    | closed io older newer hclosing hio => exact .closed (v := w.plain) io older newer hclosing hio
    | read env io buf res hio hres =>
      have hserver := read_server hreg.linked (hreg.opened ▸ hio) env buf w.rx
      rw [hres] at hserver
      exact .read (v := w.plain) env io buf _ hio hserver
    | @command s hs =>
      have hplain : World.plain { w with table := w.table.withServer s } =
          { w.plain with server := s } := by
        simp only [World.plain, withServer_server w.table hs.ios]
      rw [hplain]
      exact .command (v := w.plain) hs

end NetmtRegistry
