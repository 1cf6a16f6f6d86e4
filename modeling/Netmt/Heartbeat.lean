import Netmt.Client
import Netmt.Reads
import Netmt.Server

/-!
# Heartbeats

A client puts the number of its own socket into a heartbeat, and the server looks
that number up among its own descriptors. The two are numbered by different
processes.
-/
namespace NetmtHeartbeat

open NetmtCommand NetmtTcpRecv NetmtReads NetmtServer

/-! ## The walk -/

/-- Behind the first match, `sendbuf` is all zero. -/
theorem pongWalk_zero (clients : List IoT) :
    pongWalk clients (Region.zero 5168) = [] ↔ ∀ conn ∈ clients, conn.io.fd ≠ 0 := by
  induction clients with
  | nil => simp [pongWalk]
  | cons conn rest ih =>
    rw [pongWalk, Region.i32_zero]
    by_cases hfd : conn.io.fd = 0
    · simp [hfd]
    · rw [if_neg hfd, ih]
      simp [hfd]

theorem pongWalk_match (pre post : List IoT) (conn : IoT) (sendbuf : Frame)
    (hpre : ∀ d ∈ pre, d.io.fd ≠ sendbuf.i32 fd) (hfd : conn.io.fd = sendbuf.i32 fd) :
    pongWalk (pre ++ conn :: post) sendbuf =
      (conn.io, setLen sendbuf) :: pongWalk post (Region.zero 5168) := by
  induction pre with
  | nil => rw [List.nil_append, pongWalk, if_pos hfd]
  | cons d pre ih =>
    rw [List.cons_append, pongWalk, if_neg (hpre d (by simp)), ih fun a ha => hpre a (by simp [ha])]

/-- The first write goes to the first entry with the descriptor. -/
theorem pongWalk_first {clients : List IoT} {sendbuf : Frame} {p : Hio × Frame}
    {ps : List (Hio × Frame)} (h : pongWalk clients sendbuf = p :: ps) :
    ∃ pre conn post, clients = pre ++ conn :: post ∧ p = (conn.io, setLen sendbuf) ∧
      conn.io.fd = sendbuf.i32 fd ∧ ps = pongWalk post (Region.zero 5168) := by
  induction clients with
  | nil => cases h
  | cons d rest ih =>
    rw [pongWalk] at h
    split at h
    · next hfd =>
      obtain ⟨rfl, rfl⟩ := List.cons.inj h
      exact ⟨[], d, rest, rfl, rfl, hfd, rfl⟩
    · obtain ⟨pre, conn, post, rfl, hp, hfd, hps⟩ := ih h
      exact ⟨d :: pre, conn, post, rfl, hp, hfd, hps⟩

/-- With different descriptors, an entry stands at one place only. -/
theorem split_unique {pre pre' post post' : List IoT} {conn conn' : IoT}
    (hdistinct : ((pre ++ conn :: post).map fun d => d.io.fd).Nodup)
    (hsplit : pre ++ conn :: post = pre' ++ conn' :: post') (hfd : conn.io.fd = conn'.io.fd) :
    pre = pre' ∧ conn = conn' ∧ post = post' := by
  induction pre generalizing pre' with
  | nil =>
    cases pre' with
    | nil =>
      obtain ⟨hconn, hpost⟩ := List.cons.inj hsplit
      exact ⟨rfl, hconn, hpost⟩
    | cons d pre' =>
      obtain ⟨rfl, rfl⟩ := List.cons.inj hsplit
      rw [List.nil_append, List.map_cons, List.nodup_cons] at hdistinct
      exact absurd (by simp [hfd]) hdistinct.1
  | cons a pre ih =>
    cases pre' with
    | nil =>
      obtain ⟨rfl, rfl⟩ := List.cons.inj hsplit
      rw [List.cons_append, List.map_cons, List.nodup_cons] at hdistinct
      exact absurd (by simp [← hfd]) hdistinct.1
    | cons d pre' =>
      obtain ⟨rfl, htail⟩ := List.cons.inj hsplit
      rw [List.cons_append, List.map_cons, List.nodup_cons] at hdistinct
      obtain ⟨rfl, hconn, hpost⟩ := ih hdistinct.2 htail
      exact ⟨rfl, hconn, hpost⟩

/-- One write, to `conn`. -/
theorem pongWalk_once_iff {clients : List IoT} (hdistinct : (clients.map fun d => d.io.fd).Nodup)
    {pre post : List IoT} {conn : IoT} (hsplit : clients = pre ++ conn :: post) (sendbuf : Frame) :
    (∃ pong, pongWalk clients sendbuf = [(conn.io, pong)]) ↔
      conn.io.fd = sendbuf.i32 fd ∧ ∀ d ∈ post, d.io.fd ≠ 0 := by
  subst hsplit
  constructor
  · rintro ⟨pong, hwalk⟩
    obtain ⟨pre', conn', post', hsplit, hp, hfd, hnone⟩ := pongWalk_first hwalk
    have hio : conn.io = conn'.io := (Prod.mk.inj hp).1
    obtain ⟨rfl, rfl, rfl⟩ := split_unique hdistinct hsplit (by rw [hio])
    exact ⟨hfd, (pongWalk_zero post).mp hnone.symm⟩
  · rintro ⟨hfd, hpost⟩
    have hpre : ∀ d ∈ pre, d.io.fd ≠ sendbuf.i32 fd := by
      intro d hd heq
      rw [List.map_append, List.map_cons, List.nodup_append] at hdistinct
      exact hdistinct.2.2 d.io.fd (List.mem_map_of_mem hd) conn.io.fd (by simp) (heq.trans hfd.symm)
    exact ⟨setLen sendbuf, by rw [pongWalk_match pre post conn sendbuf hpre hfd,
      (pongWalk_zero post).mpr hpost]⟩

/-! ## A heartbeat at the server -/

section Frame

variable (sock : Int) (now : Nat)

theorem sendHeartbeat_sized : WellSized (NetmtClient.sendHeartbeat sock now) := by
  rw [NetmtClient.sendHeartbeat, Region.putU64, Region.putI32,
    wellSized_put _ _ _ (by simp) (by simp),
    wellSized_put _ _ _ (by simp) (by simp)]
  exact wellSized_setLen _

theorem sendHeartbeat_id : (NetmtClient.sendHeartbeat sock now).u32 commonid = NETMT_HEARTBEAT := by
  simp [NetmtClient.sendHeartbeat, setLen]

theorem sendHeartbeat_sub :
    (NetmtClient.sendHeartbeat sock now).u32 subcommonid = NETMT_SUCCESS := by
  simp [NetmtClient.sendHeartbeat, setLen]

theorem sendHeartbeat_fd : (NetmtClient.sendHeartbeat sock now).i32 fd = Region.wrap32 sock := by
  simp [NetmtClient.sendHeartbeat, setLen]

end Frame

/-- The server accepts the age of a heartbeat. -/
def InWindow (curTime : Nat) (f : Frame) : Prop :=
  heartbeatAge curTime f > 0 ∧ heartbeatAge curTime f < 15000

section Taken

variable (env : Nat → Env) (io : Hio) (s : Server) {f : Frame}

theorem next_inWindow (hid : f.u32 commonid = NETMT_HEARTBEAT)
    (hsub : f.u32 subcommonid = NETMT_SUCCESS) (hage : InWindow (env s.tick).curTime f) :
    next env io s f = some { s with
      tick := s.tick + 1
      out := s.out ++ pongWalk s.clients (f.putU64 lastRecvPongTime (env s.tick).curTime) } := by
  have hbeat : onHeartbeat (env s.tick) f { s with tick := s.tick + 1 } = .next { s with
      tick := s.tick + 1
      out := s.out ++ pongWalk s.clients (f.putU64 lastRecvPongTime (env s.tick).curTime) } := by
    rw [onHeartbeat, if_pos hsub]
    exact if_pos hage
  rw [next, switch_heartbeat hid, hbeat]

/-- Any other heartbeat is dropped. -/
theorem next_outside (hid : f.u32 commonid = NETMT_HEARTBEAT)
    (hsub : f.u32 subcommonid = NETMT_SUCCESS) (hage : ¬ InWindow (env s.tick).curTime f) :
    next env io s f = some { s with tick := s.tick + 1 } := by
  have hbeat : onHeartbeat (env s.tick) f { s with tick := s.tick + 1 } =
      .next { s with tick := s.tick + 1 } := by
    rw [onHeartbeat, if_pos hsub]
    exact if_neg hage
  rw [next, switch_heartbeat hid, hbeat]

end Taken

/-- What the server writes for a heartbeat, however it is cut. -/
theorem heartbeat_run (env : Nat → Env) (io : Hio) (s : Server) (sock : Int) (now : Nat)
    (hage : InWindow (env s.tick).curTime (NetmtClient.sendHeartbeat sock now))
    {rx : Rx} (hrx : Holds rx []) (reads : List (List UInt8))
    (hreads : ∀ r ∈ reads, 1 ≤ r.length ∧ r.length ≤ 8192)
    (hcut : reads.flatten = (NetmtClient.sendHeartbeat sock now).bytes)
    (run : Run Server) (hrun : recvAll (handle env io) id reads rx s = run) :
    run.state.out = s.out ++ pongWalk s.clients
      ((NetmtClient.sendHeartbeat sock now).putU64 lastRecvPongTime (env s.tick).curTime) := by
  have hsized := sendHeartbeat_sized sock now
  have hnext := next_inWindow env io s (sendHeartbeat_id sock now) (sendHeartbeat_sub sock now) hage
  generalize NetmtClient.sendHeartbeat sock now = f at *
  have hfollow := recvAll_follows (handle_local env io) (next env io)
    (fun s f s' hn db off hat => ⟨db, handle_next env io hn db off hat⟩) reads hreads [f]
    (fun g hg => List.mem_singleton.mp hg ▸ hsized) s _ (by rw [List.foldlM_cons, hnext]; rfl)
    (fun _ _ _ _ => rfl) hrx (by simpa using hcut) run hrun
  rw [hfollow.2]

/-- Exactly one pong, to `conn`, with the time at which the heartbeat was sent. -/
def Answered (s s' : Server) (conn : IoT) (f : Frame) : Prop :=
  ∃ pong : Frame, s'.out = s.out ++ [(conn.io, pong)] ∧ pong.u32 commonid = NETMT_HEARTBEAT ∧
    pong.u64 lastSendPingTime = f.u64 lastSendPingTime

theorem answered_iff {s s' : Server} {curTime : Nat} {sock : Int} {now : Nat}
    (hout : s'.out = s.out ++ pongWalk s.clients
      ((NetmtClient.sendHeartbeat sock now).putU64 lastRecvPongTime curTime))
    (hdistinct : (s.clients.map fun d => d.io.fd).Nodup) (hsock : 0 ≤ sock ∧ sock < 2147483648)
    (pre post : List IoT) (conn : IoT) (hsplit : s.clients = pre ++ conn :: post) :
    Answered s s' conn (NetmtClient.sendHeartbeat sock now) ↔
      conn.io.fd = sock ∧ ∀ d ∈ post, d.io.fd ≠ 0 := by
  have hid := sendHeartbeat_id sock now
  have hfd := sendHeartbeat_fd sock now
  rw [Region.wrap32_of_range (by omega) hsock.2] at hfd
  generalize NetmtClient.sendHeartbeat sock now = f at *
  have hfd' : (f.putU64 lastRecvPongTime curTime).i32 fd = f.i32 fd := by simp
  rw [← hfd, ← hfd', ← pongWalk_once_iff hdistinct hsplit]
  constructor
  · rintro ⟨pong, hpong, -⟩
    exact ⟨pong, List.append_cancel_left (hout.symm.trans hpong)⟩
  · rintro ⟨pong, hpong⟩
    obtain ⟨_, _, _, _, hp, _⟩ := pongWalk_first hpong
    rw [(Prod.mk.inj hp).2] at hpong
    have hid' : (setLen (f.putU64 lastRecvPongTime curTime)).u32 commonid = f.u32 commonid := by
      simp [setLen]
    refine ⟨_, hout.trans (by rw [hpong]), ?_, ?_⟩
    · rw [hid', hid]
    · simp [setLen]

/-- A heartbeat in the window is answered on its own connection exactly when the socket
has the same number on both hosts, and no entry behind has descriptor 0. -/
theorem heartbeat_answered_iff (env : Nat → Env) (s : Server)
    (hdistinct : (s.clients.map fun d => d.io.fd).Nodup) (pre post : List IoT) (conn : IoT)
    (hsplit : s.clients = pre ++ conn :: post) (sock : Int) (hsock : 0 ≤ sock ∧ sock < 2147483648)
    (now : Nat) (hage : InWindow (env s.tick).curTime (NetmtClient.sendHeartbeat sock now))
    (rx : Rx) (hrx : Holds rx []) (reads : List (List UInt8))
    (hreads : ∀ r ∈ reads, 1 ≤ r.length ∧ r.length ≤ 8192)
    (hcut : reads.flatten = (NetmtClient.sendHeartbeat sock now).bytes)
    (run : Run Server) (hrun : recvAll (handle env conn.io) id reads rx s = run) :
    Answered s run.state conn (NetmtClient.sendHeartbeat sock now) ↔
      conn.io.fd = sock ∧ ∀ d ∈ post, d.io.fd ≠ 0 :=
  answered_iff (heartbeat_run env conn.io s sock now hage hrx reads hreads hcut run hrun) hdistinct
    hsock pre post conn hsplit

/-! ## One client -/

/-- A server with one client, at descriptor 7. -/
def oneClient : Server :=
  { initial FileStore.empty with clients := [⟨⟨1, 7⟩, default, [], DATABUF, 0, 0⟩] }

/-- A clock that stands at one millisecond. -/
def oneMillisecond : Nat → Env := fun _ => ⟨1000, true, none, 0⟩

theorem inWindow_one (sock : Int) : InWindow 1000 (NetmtClient.sendHeartbeat sock 0) := by
  have hsent : (NetmtClient.sendHeartbeat sock 0).u64 lastSendPingTime = 0 := by
    simp [NetmtClient.sendHeartbeat]
  rw [InWindow, heartbeatAge, hsent]
  decide

theorem heartbeat_reads (sock : Int) : ∀ r ∈ [(NetmtClient.sendHeartbeat sock 0).bytes],
    1 ≤ r.length ∧ r.length ≤ 8192 := by
  intro r hr
  rw [List.mem_singleton.mp hr, Region.length_bytes]
  decide

/-- Socket 7 at the client as well. -/
theorem same_number_answered : ∃ run : Run Server, ∃ conn ∈ oneClient.clients,
    recvAll (handle oneMillisecond conn.io) id [(NetmtClient.sendHeartbeat 7 0).bytes] Rx.initial
      oneClient = run ∧ Answered oneClient run.state conn (NetmtClient.sendHeartbeat 7 0) := by
  refine ⟨_, ⟨⟨1, 7⟩, default, [], DATABUF, 0, 0⟩, List.mem_singleton_self _, rfl, ?_⟩
  refine (heartbeat_answered_iff oneMillisecond oneClient (by simp [oneClient]) [] [] _ rfl
    7 (by decide) 0 (inWindow_one 7) Rx.initial holds_initial _ (heartbeat_reads 7) (by simp) _
    rfl).mpr ⟨rfl, by simp⟩

/-- The claim for every numbering of sockets. -/
def HeartbeatsAnswered : Prop :=
  ∀ (env : Nat → Env) (s : Server), (s.clients.map fun d => d.io.fd).Nodup →
    ∀ conn ∈ s.clients, ∀ sock : Int, 0 ≤ sock ∧ sock < 2147483648 → ∀ now : Nat,
    InWindow (env s.tick).curTime (NetmtClient.sendHeartbeat sock now) →
    ∀ rx, Holds rx [] → ∀ reads : List (List UInt8), (∀ r ∈ reads, 1 ≤ r.length ∧ r.length ≤ 8192) →
    reads.flatten = (NetmtClient.sendHeartbeat sock now).bytes →
    Answered s (recvAll (handle env conn.io) id reads rx s).state conn
      (NetmtClient.sendHeartbeat sock now)

/-- Socket 3 at the client is descriptor 7 at the server: no answer. -/
theorem other_number_not_answered : ¬ HeartbeatsAnswered := by
  intro h
  have hans := h oneMillisecond oneClient (by simp [oneClient]) ⟨⟨1, 7⟩, default, [], DATABUF, 0, 0⟩
    (List.mem_singleton_self _) 3 (by decide) 0 (inWindow_one 3) Rx.initial holds_initial
    [(NetmtClient.sendHeartbeat 3 0).bytes] (heartbeat_reads 3) (by simp)
  have hout := heartbeat_run oneMillisecond ⟨1, 7⟩ oneClient 3 0 (inWindow_one 3) holds_initial
    [(NetmtClient.sendHeartbeat 3 0).bytes] (heartbeat_reads 3) (by simp) _ rfl
  have hsame := (answered_iff hout (by simp [oneClient]) (by decide) [] [] _ rfl).mp hans
  exact absurd hsame.1 (by decide)

/-! ## How old a heartbeat may be

Both ends read the monotonic clock of their own host, so nothing orders the two
values. The age is a difference modulo 2^64 in microseconds, and its milliseconds
are kept modulo 2^32.
-/

/-- The server's time is one millisecond to fifteen seconds behind the client's. -/
def Fresh (curTime lastSend : Nat) : Prop :=
  lastSend ≤ curTime ∧ 1000 ≤ curTime - lastSend ∧ curTime - lastSend < 15000000

/-- Times that only look so: the age is too large by whole periods of 2^32
milliseconds, or the client is ahead and the wrapped difference comes out so. -/
def Aliased (curTime lastSend : Nat) : Prop :=
  ∃ k w, 1000 ≤ w ∧ w < 15000000 ∧
    (curTime = lastSend + (k + 1) * 4294967296000 + w ∨
      curTime < lastSend ∧ curTime + 18446744073709551616 = lastSend + k * 4294967296000 + w)

theorem wrap32_window (n : Nat) : (Region.wrap32 n > 0 ∧ Region.wrap32 n < 15000) ↔
    0 < n % 4294967296 ∧ n % 4294967296 < 15000 := by
  rw [Region.wrap32, Int.bmod_def]
  split <;> omega

/-- The milliseconds of a difference `d`, modulo 2^32. -/
theorem window_period (d : Nat) : (0 < d / 1000 % 4294967296 ∧ d / 1000 % 4294967296 < 15000) ↔
    ∃ k w, 1000 ≤ w ∧ w < 15000000 ∧ d = k * 4294967296000 + w := by
  rw [← Nat.mod_mul_right_div_self d 1000 4294967296]
  constructor
  · intro h
    refine ⟨d / 4294967296000, d % 4294967296000, ?_, ?_, ?_⟩ <;> omega
  · rintro ⟨k, w, hlow, hhigh, rfl⟩
    omega

theorem inWindow_iff {curTime : Nat} {f : Frame} (hcur : curTime < 18446744073709551616)
    (hlast : f.u64 lastSendPingTime < 18446744073709551616) : InWindow curTime f ↔
      Fresh curTime (f.u64 lastSendPingTime) ∨ Aliased curTime (f.u64 lastSendPingTime) := by
  rw [InWindow, heartbeatAge, wrap32_window, window_period]
  generalize f.u64 lastSendPingTime = last at hlast
  rcases Nat.lt_or_ge curTime last with hlt | hge
  · have hdiff : (curTime + (18446744073709551616 - last)) % 18446744073709551616 =
        curTime + 18446744073709551616 - last := by omega
    rw [hdiff]
    constructor
    · rintro ⟨k, w, hlow, hhigh, heq⟩
      exact Or.inr ⟨k, w, hlow, hhigh, Or.inr ⟨hlt, by omega⟩⟩
    · rintro (⟨hle, -⟩ | ⟨k, w, hlow, hhigh, heq | ⟨-, heq⟩⟩)
      · omega
      · omega
      · exact ⟨k, w, hlow, hhigh, by omega⟩
  · have hdiff : (curTime + (18446744073709551616 - last)) % 18446744073709551616 =
        curTime - last := by
      omega
    rw [hdiff]
    constructor
    · rintro ⟨k, w, hlow, hhigh, heq⟩
      cases k with
      | zero => exact Or.inl ⟨hge, by omega, by omega⟩
      | succ k => exact Or.inr ⟨k, w, hlow, hhigh, Or.inl (by omega)⟩
    · rintro (⟨-, hlow, hhigh⟩ | ⟨k, w, hlow, hhigh, heq | ⟨hlt, -⟩⟩)
      · exact ⟨0, curTime - last, hlow, hhigh, by omega⟩
      · exact ⟨k + 1, w, hlow, hhigh, by omega⟩
      · omega

theorem Aliased.not_fresh {curTime lastSend : Nat} (h : Aliased curTime lastSend) :
    ¬ Fresh curTime lastSend := by
  rintro ⟨hle, -, hhigh⟩
  obtain ⟨k, w, -, -, heq | ⟨hlt, -⟩⟩ := h <;> omega

/-! ## What is done with it -/

theorem toNat_lt (t : UInt64) : t.toNat < 18446744073709551616 := by
  have hlt := t.toNat_lt
  omega

theorem sendHeartbeat_last (sock : Int) (last : UInt64) :
    (NetmtClient.sendHeartbeat sock last.toNat).u64 lastSendPingTime = last.toNat := by
  rw [NetmtClient.sendHeartbeat, Region.u64_put_same _ _ _ (by simp),
    Nat.mod_eq_of_lt (toNat_lt last)]

/-- An entry has the descriptor that the heartbeat carries. -/
def Known (s : Server) (sock : Int) : Prop := ∃ conn ∈ s.clients, conn.io.fd = Region.wrap32 sock

theorem pongWalk_ne_nil (clients : List IoT) (sendbuf : Frame) :
    pongWalk clients sendbuf ≠ [] ↔ ∃ conn ∈ clients, conn.io.fd = sendbuf.i32 fd := by
  induction clients with
  | nil => simp [pongWalk]
  | cons conn rest ih =>
    rw [pongWalk]
    by_cases hfd : conn.io.fd = sendbuf.i32 fd
    · simp [hfd]
    · rw [if_neg hfd, ih, List.exists_mem_cons_iff, or_iff_right hfd]

/-- What is written is the heartbeat with the server's time, or all zero. -/
theorem pongWalk_frames {clients : List IoT} {sendbuf : Frame} {p : Hio × Frame}
    (hp : p ∈ pongWalk clients sendbuf) :
    p.2 = setLen sendbuf ∨ p.2 = setLen (Region.zero 5168) := by
  induction clients generalizing sendbuf with
  | nil => cases hp
  | cons conn rest ih =>
    rw [pongWalk] at hp
    split at hp
    · cases List.mem_cons.mp hp with
      | inl heq =>
        rw [heq]
        exact Or.inl rfl
      | inr hp => exact Or.inr ((ih hp).elim id id)
    · exact ih hp

/-- A client that takes the frame keeps its connection. -/
def KeepsOpen (pong : Frame) : Prop :=
  ∀ (env : Nat → NetmtClient.Env) (c : NetmtClient.Client), c.closed = false →
    ∃ c', NetmtClient.next env (NetmtClient.enter c) pong = some c' ∧ c'.closed = false

theorem keepsOpen_pong {pong : Frame} (hid : pong.u32 commonid = NETMT_HEARTBEAT)
    (hsub : pong.u32 subcommonid = NETMT_SUCCESS) :
    KeepsOpen pong ↔ pong.u64 lastSendPingTime ≤ pong.u64 lastRecvPongTime := by
  have hnext : ∀ env (c : NetmtClient.Client), NetmtClient.next env (NetmtClient.enter c) pong =
      if pong.u64 lastRecvPongTime < pong.u64 lastSendPingTime then
        some { NetmtClient.enter c with tick := c.tick + 1, closed := true, sendbuf := false }
      else some { NetmtClient.enter c with tick := c.tick + 1 } := by
    intro env c
    rw [NetmtClient.next, NetmtClient.switch_heartbeat hid, NetmtClient.onHeartbeat, if_pos hsub,
      if_neg (by simp [NetmtClient.enter])]
    by_cases hold : pong.u64 lastRecvPongTime < pong.u64 lastSendPingTime
    · rw [if_pos hold, if_pos hold]
      rfl
    · rw [if_neg hold, if_neg hold]
      rfl
  constructor
  · intro h
    obtain ⟨c', hc', hopen⟩ := h NetmtClient.goodEnv (NetmtClient.initial FileStore.empty) rfl
    rw [hnext] at hc'
    by_contra hlt
    rw [if_pos (Nat.lt_of_not_le hlt)] at hc'
    cases hc'
    cases hopen
  · intro hle env c hc
    refine ⟨{ NetmtClient.enter c with tick := c.tick + 1 }, ?_, hc⟩
    rw [hnext env c, if_neg (Nat.not_lt.mpr hle)]

theorem keepsOpen_zero : KeepsOpen (setLen (Region.zero 5168)) := by
  intro env c hc
  have hid : (setLen (Region.zero 5168)).u32 commonid = 0 := by simp [setLen]
  refine ⟨{ NetmtClient.enter c with tick := c.tick + 1 }, ?_, hc⟩
  rw [NetmtClient.next, NetmtClient.switch_other (by rw [hid]; decide)]
  rfl

/-- A heartbeat sent at `last` and taken at `curTime` is answered if and only if it is
fresh; no answer looks older than the question, and none makes a client close. -/
def FreshnessExact (e : Env) (io : Hio) (s : Server) (sock : Int) (curTime last : UInt64) : Prop :=
  ∃ s' pongs, next (fun _ => { e with curTime := curTime.toNat }) io s
      (NetmtClient.sendHeartbeat sock last.toNat) = some s' ∧ s'.out = s.out ++ pongs ∧
    (pongs ≠ [] ↔ Fresh curTime.toNat last.toNat) ∧
    ∀ p ∈ pongs, p.2.u64 lastSendPingTime ≤ p.2.u64 lastRecvPongTime ∧ KeepsOpen p.2

section Exact

variable (e : Env) (io : Hio) (s : Server) (sock : Int) (curTime last : UInt64)

/-- Nothing is written for a time outside the window, or when no entry has the descriptor. -/
theorem next_freshness : ∃ s' pongs, next (fun _ => { e with curTime := curTime.toNat }) io s
      (NetmtClient.sendHeartbeat sock last.toNat) = some s' ∧ s'.out = s.out ++ pongs ∧
    (pongs ≠ [] ↔ (Fresh curTime.toNat last.toNat ∨ Aliased curTime.toNat last.toNat) ∧
      Known s sock) ∧
    ∀ p ∈ pongs, p.2 = setLen ((NetmtClient.sendHeartbeat sock last.toNat).putU64 lastRecvPongTime
      curTime.toNat) ∨ p.2 = setLen (Region.zero 5168) := by
  have hid := sendHeartbeat_id sock last.toNat
  have hsub := sendHeartbeat_sub sock last.toNat
  have hfd := sendHeartbeat_fd sock last.toNat
  have hlast := sendHeartbeat_last sock last
  generalize NetmtClient.sendHeartbeat sock last.toNat = f at *
  have hwindow := inWindow_iff (f := f) (toNat_lt curTime) (by rw [hlast]; exact toNat_lt last)
  rw [hlast] at hwindow
  by_cases hage : InWindow curTime.toNat f
  · refine ⟨_, _, next_inWindow _ io s hid hsub hage, rfl, ?_, fun p hp => pongWalk_frames hp⟩
    have hsame : (f.putU64 lastRecvPongTime curTime.toNat).i32 fd = f.i32 fd := by simp
    rw [pongWalk_ne_nil, hsame, hfd]
    exact (and_iff_right (hwindow.mp hage)).symm
  · refine ⟨_, [], next_outside _ io s hid hsub hage, (List.append_nil _).symm, ?_, by simp⟩
    rw [← hwindow]
    simp [hage]

/-- Of a known client, with clock values that are no alias. -/
theorem freshnessExact_known (hknown : Known s sock) : FreshnessExact e io s sock curTime last ↔
    ¬ Aliased curTime.toNat last.toNat := by
  obtain ⟨s', pongs, hnext, hout, hne, hframes⟩ := next_freshness e io s sock curTime last
  constructor
  · rintro ⟨s'', pongs', hnext', hout', hfresh, -⟩ halias
    rw [hnext] at hnext'
    cases hnext'
    rw [hout] at hout'
    cases List.append_cancel_left hout'
    exact halias.not_fresh (hfresh.mp (hne.mpr ⟨Or.inr halias, hknown⟩))
  · intro halias
    have hfresh : pongs ≠ [] ↔ Fresh curTime.toNat last.toNat := by
      rw [hne, and_iff_left hknown, or_iff_left halias]
    refine ⟨s', pongs, hnext, hout, hfresh, fun p hp => ?_⟩
    obtain ⟨hle, -⟩ := hfresh.mp (List.ne_nil_of_mem hp)
    cases hframes p hp with
    | inl hpong =>
      have hlast := sendHeartbeat_last sock last
      have hid := sendHeartbeat_id sock last.toNat
      have hsub := sendHeartbeat_sub sock last.toNat
      generalize NetmtClient.sendHeartbeat sock last.toNat = f at *
      have hold : p.2.u64 lastSendPingTime ≤ p.2.u64 lastRecvPongTime := by
        have hcur := Nat.mod_eq_of_lt (toNat_lt curTime)
        rw [hpong, setLen, Region.putI32, Region.u64_put_other _ _ _ _ (by simp) (by simp),
          Region.u64_put_other _ _ _ _ (by simp) (by simp), hlast,
          Region.u64_put_other _ _ _ _ (by simp) (by simp),
          Region.u64_put_same _ _ _ (by simp), hcur]
        exact hle
      refine ⟨hold, (keepsOpen_pong ?_ ?_).mpr hold⟩
      · rw [hpong, ← hid]
        simp [setLen]
      · rw [hpong, ← hsub]
        simp [setLen]
    | inr hzero =>
      rw [hzero]
      exact ⟨by simp [setLen], keepsOpen_zero⟩

/-- A stranger is never answered. -/
theorem freshnessExact_unknown (hknown : ¬ Known s sock) : FreshnessExact e io s sock curTime last ↔
    ¬ Fresh curTime.toNat last.toNat := by
  obtain ⟨s', pongs, hnext, hout, hne, hframes⟩ := next_freshness e io s sock curTime last
  have hnil : pongs = [] := by
    by_contra h
    exact hknown (hne.mp h).2
  subst hnil
  constructor
  · rintro ⟨s'', pongs', hnext', hout', hfresh, -⟩ hf
    rw [hnext] at hnext'
    cases hnext'
    rw [hout] at hout'
    cases List.append_cancel_left hout'
    exact hfresh.mpr hf rfl
  · intro hf
    exact ⟨s', [], hnext, hout, by simp [hf], by simp⟩

/-- The check is exact for an entry of the list as long as the times are no alias of
fresh ones; where no entry has the descriptor, fresh heartbeats stay unanswered. -/
theorem freshness_exact_iff : FreshnessExact e io s sock curTime last ↔
    (Known s sock → ¬ Aliased curTime.toNat last.toNat) ∧
    (¬ Known s sock → ¬ Fresh curTime.toNat last.toNat) := by
  by_cases hknown : Known s sock
  · rw [freshnessExact_known e io s sock curTime last hknown]
    simp [hknown]
  · rw [freshnessExact_unknown e io s sock curTime last hknown]
    simp [hknown]

end Exact

/-- The server is up for 1000 seconds, and the client for two weeks more: its heartbeat is taken. -/
theorem older_host_answered : Known oneClient 7 ∧
    ¬ FreshnessExact ⟨0, true, none, 0⟩ ⟨1, 7⟩ oneClient 7 1000000000 1272308319616 := by
  have hknown : Known oneClient 7 := ⟨_, List.mem_singleton_self _, by decide⟩
  refine ⟨hknown, fun h => ?_⟩
  refine (freshnessExact_known _ _ _ _ _ _ hknown).mp h ⟨4294967, 2000000, by decide, by decide, ?_⟩
  exact Or.inr ⟨by decide, by decide⟩

end NetmtHeartbeat
