import Netmt.Server
import Netmt.Client
import Netmt.Lib.System
import Mathlib.Data.List.Nodup

/-!
# Registration when descriptors are used again

`register_netmt` asks every client for its record and identifies it by its
descriptor; the reply is stored in every entry with the descriptor that it
carries. Connections come and go meanwhile, and a descriptor that was closed may
be given to the next client.
-/
namespace NetmtRegistration

open NetmtCommand NetmtTcpRecv NetmtServer Systems

/-! ## `register_netmt` -/

/-- `comm` as it is written to one entry. -/
def requestTo (conn : IoT) (comm : Frame) : Frame := setLen (comm.putI32 fd conn.io.fd)

/-- `comm` before the walk: zero but for the command. -/
@[irreducible] def cleared : Frame := (default : Frame).putU32 commonid NETMT_REGISTER

/-- `list_for_each` of the command; `comm` is not cleared between the entries. -/
def registerWalk : List IoT → Frame → List (Hio × Frame)
  | [], _ => []
  | conn :: rest, comm => (conn.io, requestTo conn comm) :: registerWalk rest (requestTo conn comm)

def registerNetmt (s : Server) : Server :=
  { s with out := s.out ++ registerWalk s.clients cleared }

/-- A descriptor is a small `int`. -/
def IsFd (k : Int) : Prop := 0 ≤ k ∧ k < 2147483648

instance (k : Int) : Decidable (IsFd k) := inferInstanceAs (Decidable (_ ∧ _))

theorem requestTo_fd {conn : IoT} (h : IsFd conn.io.fd) (comm : Frame) :
    (requestTo conn comm).i32 fd = conn.io.fd := by
  obtain ⟨hl, hh⟩ := h
  rw [requestTo, setLen, Region.putI32, Region.i32_put_other _ _ _ _ (by simp) (by simp),
    Region.i32_put_same _ _ _ (by simp), Region.wrap32_of_range (by omega) hh]

theorem requestTo_id (conn : IoT) {comm : Frame} (h : comm.u32 commonid = NETMT_REGISTER) :
    (requestTo conn comm).u32 commonid = NETMT_REGISTER := by
  rw [← h, requestTo]
  simp [setLen]

theorem cleared_id : cleared.u32 commonid = NETMT_REGISTER := by
  unfold cleared
  rw [Region.u32_put_same _ _ _ (by simp), Nat.mod_eq_of_lt (by decide)]

theorem registerWalk_fd {clients : List IoT} (h : ∀ conn ∈ clients, IsFd conn.io.fd) (comm : Frame)
    {p : Hio × Frame} (hp : p ∈ registerWalk clients comm) : p.2.i32 fd = p.1.fd := by
  induction clients generalizing comm with
  | nil => cases hp
  | cons conn rest ih =>
    rw [registerWalk] at hp
    rcases List.mem_cons.mp hp with rfl | hp
    · exact requestTo_fd (h conn List.mem_cons_self) comm
    · exact ih (fun c hc => h c (List.mem_cons_of_mem _ hc)) _ hp

/-! ## Replies -/

/-- What an honest client may send after `request`: a whole registration that echoes
the descriptor. Any record can be in it. -/
structure Answers (request reply : Frame) : Prop where
  sized : WellSized reply
  id : reply.u32 commonid = NETMT_REGISTER
  fd : reply.i32 fd = request.i32 fd

/-- A request with a record put in. -/
def replyTo (request : Frame) (record : Region 200) : Frame := request.put netmtclient record.bytes

theorem replyTo_answers {request : Frame} (record : Region 200) (hsized : WellSized request)
    (hid : request.u32 commonid = NETMT_REGISTER) : Answers request (replyTo request record) := by
  have hlen : record.bytes.length = 200 := record.length_bytes
  refine ⟨?_, ?_, ?_⟩
  · exact (wellSized_put _ _ _ (by decide) (by rw [hlen]; decide)).mpr hsized
  · rwa [replyTo, Region.u32_put_other _ _ _ _ (by rw [hlen]; decide) (by simp)]
  · rw [replyTo, Region.i32_put_other _ _ _ _ (by rw [hlen]; decide) (by simp)]

theorem clientRecord_replyTo (request : Frame) (record : Region 200) :
    clientRecord (replyTo request record) = record := by
  have hlen : record.bytes.length = 200 := record.length_bytes
  have hslice : Region.slice netmtclient 200 (replyTo request record).bytes = record.bytes := by
    rw [replyTo, Region.slice_put_same _ _ _ _ (by rw [hlen]; decide) (by rw [hlen])]
    exact List.take_of_length_le (by rw [hlen])
  cases record with
  | mk bytes hb => simp only [clientRecord, hslice]

/-- The client program is honest, and the record is the one it is configured with. -/
theorem client_answers {e : NetmtClient.Env} {request : Frame} {c c' : NetmtClient.Client}
    (hsized : WellSized request) (hid : request.u32 commonid = NETMT_REGISTER)
    (hopen : c.closed = false) (h : NetmtClient.switch e request [] c = .next c') :
    ∃ reply, c'.out = c.out ++ [reply] ∧ Answers request reply ∧
      clientRecord reply = e.identity := by
  rw [NetmtClient.switch_register hid, NetmtClient.onRegister] at h
  split at h
  · cases h
  · cases h
    refine ⟨replyTo request e.identity, ?_, replyTo_answers _ hsized hid, clientRecord_replyTo _ _⟩
    simp only [NetmtClient.hioWrite, hopen, Bool.false_eq_true, if_false, replyTo]

/-! ## The server and its clients -/

structure World where
  server : Server
  rx : Rx
  /-- every connection that was accepted -/
  accepted : List Hio
  /-- those that are not closed -/
  opened : List Hio
  /-- what the clients have sent, and what of it is on its way -/
  sent : List (Hio × Frame)
  flight : List (Hio × Frame)

inductive Moves : World → World → Prop where
  /-- a new connection, with a descriptor that no open one has -/
  | accept {w : World} {s : Server} (io : Hio) : IsFd io.fd → io.fd ∉ w.opened.map Hio.fd →
      io.conn ∉ w.accepted.map Hio.conn → netmtAccept io w.server = .next s →
      Moves w { w with server := s, accepted := io :: w.accepted, opened := io :: w.opened }
  | close {w : World} {s : Server} (io : Hio) : io ∈ w.opened → netmtClose io w.server = .next s →
      Moves w { w with server := s, opened := w.opened.filter fun o => o ≠ io }
  | command {w : World} : Moves w { w with server := registerNetmt w.server }
  /-- one entry of the walk: the command does not keep the event loop waiting -/
  | pass {w : World} (conn : IoT) (comm : Frame) : conn ∈ w.server.clients →
      Moves w { w with server := hioWrite w.server conn.io (requestTo conn comm) }
  | answer {w : World} (io : Hio) (request reply : Frame) : (io, request) ∈ w.server.out →
      Answers request reply →
      Moves w { w with sent := w.sent ++ [(io, reply)], flight := w.flight ++ [(io, reply)] }
  /-- the oldest frame on its way on an open connection -/
  | deliver {w : World} (env : Nat → Env) (io : Hio) (reply : Frame)
      (older newer : List (Hio × Frame))
      (res : Result Server) : w.flight = older ++ (io, reply) :: newer → (∀ p ∈ older, p.1 ≠ io) →
      io ∈ w.opened → tcpRecv env io reply.bytes w.rx w.server = res →
      Moves w { w with server := res.state, rx := res.rx, flight := older ++ newer }

def begin (files : FileStore) : World := ⟨initial files, Rx.initial, [], [], [], []⟩

def registration (files : FileStore) : System World where
  start w := w = begin files
  step := Moves

/-- The record of an entry is still empty, or was sent on the entry's connection. -/
def Own (w : World) (conn : IoT) : Prop :=
  conn.netmtclient = Region.zero 200 ∨
    ∃ reply, (conn.io, reply) ∈ w.sent ∧ conn.netmtclient = clientRecord reply

/-- Whatever lies on a connection, in either direction, carries the connection's own
descriptor; and the open connections have different ones. -/
structure Sound (w : World) : Prop where
  clients : w.server.clients.map IoT.io = w.opened
  fds : (w.opened.map Hio.fd).Nodup
  range : ∀ io ∈ w.opened, IsFd io.fd
  requests : ∀ p ∈ w.server.out, p.2.i32 fd = p.1.fd
  flight : ∀ p ∈ w.flight, p ∈ w.sent ∧ WellSized p.2 ∧ p.2.u32 commonid = NETMT_REGISTER ∧
    p.2.i32 fd = p.1.fd
  buffer : Holds w.rx []
  mutex : w.server.mutex = false
  own : ∀ conn ∈ w.server.clients, Own w conn

theorem Sound.range_client {w : World} (h : Sound w) (conn : IoT) (hc : conn ∈ w.server.clients) :
    IsFd conn.io.fd :=
  h.range conn.io (h.clients ▸ List.mem_map_of_mem hc)

/-- An entry with the descriptor of an open connection belongs to it. -/
theorem Sound.same_io {w : World} (h : Sound w) {conn : IoT} (hc : conn ∈ w.server.clients)
    {io : Hio} (hio : io ∈ w.opened) (hfd : conn.io.fd = io.fd) : conn.io = io :=
  List.inj_on_of_nodup_map h.fds (h.clients ▸ List.mem_map_of_mem hc) hio hfd

theorem begin_sound (files : FileStore) : Sound (begin files) where
  clients := rfl
  fds := List.nodup_nil
  range _ h := by cases h
  requests _ h := by cases h
  flight _ h := by cases h
  buffer := holds_initial
  mutex := rfl
  own _ h := by cases h

theorem accept_sound {w : World} {s : Server} {io : Hio} (h : Sound w) (hio : IsFd io.fd)
    (hfresh : io.fd ∉ w.opened.map Hio.fd) (hs : netmtAccept io w.server = .next s) :
    Sound { w with server := s, accepted := io :: w.accepted, opened := io :: w.opened } := by
  rw [netmtAccept_eq io w.server h.mutex] at hs
  cases hs
  exact {
    clients := by
      rw [List.map_cons, h.clients]
    fds := by
      rw [List.map_cons, List.nodup_cons]
      exact ⟨hfresh, h.fds⟩
    range := fun o ho => by
      rcases List.mem_cons.mp ho with rfl | ho
      · exact hio
      · exact h.range o ho
    requests := h.requests
    flight := h.flight
    buffer := h.buffer
    mutex := h.mutex
    own := fun conn hc => by
      rcases List.mem_cons.mp hc with rfl | hc
      · exact Or.inl rfl
      · exact h.own conn hc }

theorem close_sound {w : World} {s : Server} {io : Hio} (h : Sound w)
    (hs : netmtClose io w.server = .next s) :
    Sound { w with server := s, opened := w.opened.filter fun o => o ≠ io } := by
  rw [netmtClose_eq io w.server h.mutex] at hs
  cases hs
  exact {
    clients := by
      rw [← h.clients, List.filter_map]
      rfl
    fds := h.fds.sublist (List.filter_sublist.map _)
    range := fun o ho => h.range o (List.mem_of_mem_filter ho)
    requests := h.requests
    flight := h.flight
    buffer := h.buffer
    mutex := h.mutex
    own := fun conn hc => h.own conn (List.mem_of_mem_filter hc) }

/-- Requests that carry the descriptor of their connection. -/
theorem written_sound {w : World} (h : Sound w) {ws : List (Hio × Frame)}
    (hws : ∀ p ∈ ws, p.2.i32 fd = p.1.fd) :
    Sound { w with server := { w.server with out := w.server.out ++ ws } } where
  clients := h.clients
  fds := h.fds
  range := h.range
  requests p hp := by
    cases List.mem_append.mp hp with
    | inl hp =>
      exact h.requests p hp
    | inr hp =>
      exact hws p hp
  flight := h.flight
  buffer := h.buffer
  mutex := h.mutex
  own := h.own

theorem answer_sound {w : World} {io : Hio} {request reply : Frame} (h : Sound w)
    (hreq : (io, request) ∈ w.server.out) (hans : Answers request reply) :
    Sound { w with sent := w.sent ++ [(io, reply)], flight := w.flight ++ [(io, reply)] } where
  clients := h.clients
  fds := h.fds
  range := h.range
  requests := h.requests
  flight p hp := by
    cases List.mem_append.mp hp with
    | inl hp =>
      obtain ⟨hsent, hrest⟩ := h.flight p hp
      exact ⟨List.mem_append_left _ hsent, hrest⟩
    | inr hp =>
      obtain rfl := List.mem_singleton.mp hp
      have hfd : request.i32 NetmtCommand.fd = io.fd := h.requests (io, request) hreq
      exact ⟨List.mem_append_right _ (List.mem_singleton_self _), hans.sized, hans.id,
        hans.fd.trans hfd⟩
  buffer := h.buffer
  mutex := h.mutex
  own conn hc := (h.own conn hc).imp_right fun ⟨r, hr, heq⟩ => ⟨r, List.mem_append_left _ hr, heq⟩

/-- The server takes a registration that is delivered whole. -/
theorem next_register (env : Nat → Env) (io : Hio) (s : Server) {f : Frame}
    (hid : f.u32 NetmtCommand.commonid = NETMT_REGISTER) :
    NetmtServer.next env io s f = some { s with
      tick := s.tick + 1
      clients := s.clients.map fun conn =>
        if conn.io.fd = f.i32 fd then { conn with netmtclient := clientRecord f } else conn
      commonid := Region.wrap32 (f.u32 NetmtCommand.commonid) } := by
  rw [NetmtServer.next, NetmtServer.switch_register hid, onRegister]

theorem deliver_sound {w : World} {env : Nat → Env} {io : Hio} {reply : Frame}
    {older newer : List (Hio × Frame)} {res : Result Server} (h : Sound w)
    (hflight : w.flight = older ++ (io, reply) :: newer) (hio : io ∈ w.opened)
    (hres : tcpRecv env io reply.bytes w.rx w.server = res) :
    Sound { w with server := res.state, rx := res.rx, flight := older ++ newer } := by
  obtain ⟨hsent, hsized, hid, hfd⟩ := h.flight (io, reply) (by simp [hflight])
  obtain ⟨-, hstate, hrx⟩ :=
    tcpRecv_next env io h.buffer hsized (next_register env io w.server hid) res hres
  have hios : res.state.clients.map IoT.io = w.server.clients.map IoT.io := by
    rw [hstate, List.map_map]
    apply List.map_congr_left
    intro conn _
    rw [Function.comp_apply]
    split <;> rfl
  exact {
    clients := hios.trans h.clients
    fds := h.fds
    range := h.range
    requests := by
      rw [hstate]
      exact h.requests
    flight := fun p hp => h.flight p (by
      rw [hflight]
      cases List.mem_append.mp hp with
      | inl hp =>
        exact List.mem_append_left _ hp
      | inr hp =>
        exact List.mem_append_right _ (List.mem_cons_of_mem _ hp))
    buffer := hrx
    mutex := by
      rw [hstate]
      exact h.mutex
    own := fun conn hc => by
      rw [hstate] at hc
      obtain ⟨old, hold, rfl⟩ := List.mem_map.mp hc
      -- the descriptor leads to the connection on which the reply came
      split
      · next heq =>
        have hsame : old.io = io := h.same_io hold hio (heq.trans hfd)
        exact Or.inr ⟨reply, hsame ▸ hsent, rfl⟩
      · exact h.own old hold }

theorem sound_kept (files : FileStore) : (registration files).Keeps Sound where
  start w hw := by
    obtain rfl : w = begin files := hw
    exact begin_sound files
  step w w' _ h hmove := by
    cases hmove with
    | accept io hio hfresh _ hs => exact accept_sound h hio hfresh hs
    | close io _ hs => exact close_sound h hs
    | command => exact written_sound h fun p hp => registerWalk_fd h.range_client _ hp
    | pass conn comm hc =>
      refine written_sound h fun p hp => ?_
      obtain rfl := List.mem_singleton.mp hp
      exact requestTo_fd (h.range_client conn hc) comm
    | answer io request reply hreq hans => exact answer_sound h hreq hans
    | deliver env io reply older newer res hflight _ hio hres =>
      exact deliver_sound h hflight hio hres

/-- In every reachable state, the record of an entry is all zero or one that the client
of the very connection has sent. -/
theorem records_are_own (files : FileStore) (w : World) (h : (registration files).Reachable w) :
    ∀ conn ∈ w.server.clients, conn.netmtclient = Region.zero 200 ∨
      ∃ reply, (conn.io, reply) ∈ w.sent ∧ conn.netmtclient = clientRecord reply :=
  ((sound_kept files).reachable h).own

/-! ## A descriptor that is used again -/

/-- The entry that `netmt_accept` makes. -/
def newcomer (io : Hio) : IoT := ⟨io, default, [], DATABUF, 0, 0⟩

def oneIo : Hio := ⟨0, 7⟩
def oneConn : IoT := newcomer oneIo
def otherIo : Hio := ⟨1, 9⟩

/-- The connection that gets the descriptor of the first one. -/
def laterIo : Hio := ⟨2, 7⟩

/-- A record with a first byte that is not zero. -/
def recordOf (b : UInt8) : Region 200 := (Region.zero 200).put 0 [b]

theorem recordOf_ne {b : UInt8} (h : b ≠ 0) : recordOf b ≠ Region.zero 200 := by
  intro heq
  have hfirst := congrArg (fun r => Region.slice 0 1 r.bytes) heq
  simp only [recordOf] at hfirst
  rw [Region.slice_put_same _ _ _ _ (by simp) (by simp), List.take_of_length_le (by simp),
    Region.slice_zero] at hfirst
  exact h (List.cons.inj hfirst).1

def oneEnv : Nat → Env := fun _ => ⟨0, true, none, 0⟩

/-- The answer of the first connection, which it does not live to see delivered. -/
def lateRequest : Frame := requestTo oneConn (requestTo (newcomer otherIo) cleared)
def lateReply : Frame := replyTo lateRequest (recordOf 1)

/-- The answer of the connection with the same descriptor. -/
def laterRequest : Frame := requestTo (newcomer laterIo) cleared
def laterReply : Frame := replyTo laterRequest (recordOf 2)

theorem lateReply_answers : Answers lateRequest lateReply :=
  replyTo_answers _ (wellSized_setLen _) (requestTo_id _ (requestTo_id _ cleared_id))

theorem laterReply_answers : Answers laterRequest laterReply :=
  replyTo_answers _ (wellSized_setLen _) (requestTo_id _ cleared_id)

theorem laterReply_fd : laterReply.i32 fd = 7 := by
  rw [laterReply_answers.fd, laterRequest, requestTo_fd (by decide)]
  rfl

/-- Two clients were asked, and the first has answered. -/
def asked : World where
  server := registerNetmt { initial FileStore.empty with clients := [newcomer otherIo, oneConn] }
  rx := Rx.initial
  accepted := [otherIo, oneIo]
  opened := [otherIo, oneIo]
  sent := [(oneIo, lateReply)]
  flight := [(oneIo, lateReply)]

theorem asked_reachable : (registration FileStore.empty).Reachable asked := by
  have hstart : (registration FileStore.empty).Reachable (begin FileStore.empty) := .start rfl
  have hone := hstart.step (.accept oneIo (by decide) List.not_mem_nil List.not_mem_nil
    (netmtAccept_eq oneIo _ rfl))
  have hother := hone.step (.accept otherIo (by decide) (by decide) (by decide)
    (netmtAccept_eq otherIo _ rfl))
  have hrequest := hother.step .command
  exact hrequest.step (.answer oneIo lateRequest lateReply
    (List.mem_cons_of_mem _ (List.mem_singleton_self _)) lateReply_answers)

/-- The first client has left, and its descriptor went to a third, which has answered too. -/
def reused : World where
  server := registerNetmt { asked.server with clients := [newcomer laterIo, newcomer otherIo] }
  rx := Rx.initial
  accepted := [laterIo, otherIo, oneIo]
  opened := [laterIo, otherIo]
  sent := [(oneIo, lateReply), (laterIo, laterReply)]
  flight := [(oneIo, lateReply), (laterIo, laterReply)]

theorem reused_reachable : (registration FileStore.empty).Reachable reused := by
  have hclose := asked_reachable.step (.close oneIo (by decide) (netmtClose_eq oneIo _ rfl))
  have hlater := hclose.step (.accept laterIo (by decide) (by decide) (by decide)
    (netmtAccept_eq laterIo _ rfl))
  have hrequest := hlater.step .command
  exact hrequest.step (.answer laterIo laterRequest laterReply
    (List.mem_append_right _ List.mem_cons_self) laterReply_answers)

/-- The answer on the open connection overtakes the late one, and is the record that is stored. -/
theorem later_client_registered : ∃ w conn, (registration FileStore.empty).Reachable w ∧
    conn ∈ w.server.clients ∧ conn.io = laterIo ∧ laterIo.fd = oneIo.fd ∧
    w.flight = [(oneIo, lateReply)] ∧ conn.netmtclient ≠ Region.zero 200 ∧
    ∃ reply, (conn.io, reply) ∈ w.sent ∧ conn.netmtclient = clientRecord reply := by
  obtain ⟨res, hres⟩ : ∃ res,
      tcpRecv oneEnv laterIo laterReply.bytes Rx.initial reused.server = res :=
    ⟨_, rfl⟩
  have hreach :=
    reused_reachable.step (.deliver oneEnv laterIo laterReply [(oneIo, lateReply)] [] res
    rfl (by decide) List.mem_cons_self hres)
  have hstate := (tcpRecv_next oneEnv laterIo holds_initial laterReply_answers.sized
    (next_register oneEnv laterIo reused.server laterReply_answers.id) res hres).2.1
  have hrecord : clientRecord laterReply ≠ Region.zero 200 := by
    rw [laterReply, clientRecord_replyTo]
    exact recordOf_ne (by decide)
  have hmem : { newcomer laterIo with netmtclient := clientRecord laterReply } ∈
      res.state.clients := by
    have hclients : reused.server.clients = [newcomer laterIo, newcomer otherIo] := rfl
    have hfd : (newcomer laterIo).io.fd = laterReply.i32 fd := laterReply_fd.symm
    rw [hstate, hclients, List.map_cons, if_pos hfd]
    exact List.mem_cons_self
  refine ⟨_, _, hreach, hmem, rfl, rfl, rfl, hrecord, ?_⟩
  exact (records_are_own _ _ hreach _ hmem).resolve_left hrecord

end NetmtRegistration
