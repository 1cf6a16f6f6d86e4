import Netmt.Registration

/-!
# What `register_netmt` reports

The command writes its requests, sleeps, and looks at `t_server.commonid`, which the
receive callback sets to the command of every registration it takes and nothing sets
back. Here its walk, the clients and the event loop take turns, and every request
and reply carries the number of the invocation it belongs to.
-/
namespace NetmtRegisterReport

open NetmtCommand NetmtTcpRecv NetmtServer NetmtRegistration Systems

/-- What one invocation printed, and whether a reply to one of its own requests was
received between its first request and that. -/
structure Report where
  success : Bool
  answered : Bool
  deriving DecidableEq, Repr

/-- A request or a reply, the connection it is on and the invocation it belongs to. -/
structure Message where
  io : Hio
  round : Nat
  frame : Frame

structure Console where
  server : Server
  rx : Rx
  opened : List Hio
  comm : Frame
  /-- entries that the walk has not come to, while the command runs -/
  todo : Option (List IoT)
  /-- number of invocations -/
  round : Nat
  /-- requests that are not answered, and replies that are not received -/
  asked : List Message
  flight : List Message
  /-- a reply to this invocation was received -/
  answered : Bool
  reports : List Report

/-- The command starts. -/
def invoked (w : Console) : Console :=
  { w with
    comm := cleared
    todo := some w.server.clients
    round := w.round + 1
    answered := false }

/-- The walk writes to one entry. -/
def written (w : Console) (conn : IoT) (rest : List IoT) : Console :=
  { w with
    server := hioWrite w.server conn.io (requestTo conn w.comm)
    comm := requestTo conn w.comm
    todo := some rest
    asked := w.asked ++ [⟨conn.io, w.round, requestTo conn w.comm⟩] }

/-- `if (t_server.commonid == NETMT_REGISTER)`, after the `sleep`. -/
def reported (w : Console) : Console :=
  { w with
    todo := none
    reports := w.reports ++ [⟨decide (w.server.commonid = NETMT_REGISTER), w.answered⟩] }

/-- With a connection go its entry and all that is on its way. -/
def dropped (w : Console) (io : Hio) (s : Server) : Console :=
  { w with
    server := s
    opened := w.opened.filter fun o => o ≠ io
    todo := w.todo.map fun conns => conns.filter fun conn => conn.io ≠ io
    asked := w.asked.filter fun m => m.io ≠ io
    flight := w.flight.filter fun m => m.io ≠ io }

/-- A reply reaches the server. -/
def received (w : Console) (m : Message) (rest : List Message) (res : Result Server) : Console :=
  { w with
    server := res.state
    rx := res.rx
    flight := rest
    answered := w.answered || m.round = w.round }

inductive Moves : Console → Console → Prop where
  | accept {w : Console} {s : Server} (io : Hio) : IsFd io.fd → io.fd ∉ w.opened.map Hio.fd →
      netmtAccept io w.server = .next s → Moves w { w with server := s, opened := io :: w.opened }
  | close {w : Console} {s : Server} (io : Hio) : io ∈ w.opened → netmtClose io w.server = .next s →
      Moves w (dropped w io s)
  | invoke {w : Console} : w.todo = none → Moves w (invoked w)
  | write {w : Console} (conn : IoT) (rest : List IoT) : w.todo = some (conn :: rest) →
      Moves w (written w conn rest)
  /-- a client answers the oldest request on its connection -/
  | answer {w : Console} (m : Message) (reply : Frame) (older newer : List Message) :
      w.asked = older ++ m :: newer → (∀ o ∈ older, o.io ≠ m.io) → Answers m.frame reply →
      Moves w { w with asked := older ++ newer, flight := w.flight ++ [{ m with frame := reply }] }
  | deliver {w : Console} (env : Nat → Env) (m : Message) (older newer : List Message)
      (res : Result Server) : w.flight = older ++ m :: newer → (∀ o ∈ older, o.io ≠ m.io) →
      tcpRecv env m.io m.frame.bytes w.rx w.server = res →
      Moves w (received w m (older ++ newer) res)
  | report {w : Console} : w.todo = some [] → Moves w (reported w)

def begin (files : FileStore) : Console :=
  ⟨initial files, Rx.initial, [], default, none, 0, [], [], false, []⟩

def console (files : FileStore) : System Console where
  start w := w = begin files
  step := Moves

/-- Every success that was printed stands for a registration. -/
def Honest (w : Console) : Prop := ∀ r ∈ w.reports, r.success = true → r.answered = true

/-- No registration was ever taken, and none is on its way. -/
structure Unheard (w : Console) : Prop where
  commonid : w.server.commonid ≠ NETMT_REGISTER
  asked : w.asked = []
  flight : w.flight = []

/-- The runs in which the command is given only in such states. -/
def careful (files : FileStore) : System Console where
  start w := w = begin files
  step w w' := Moves w w' ∧ (w.todo = none → w'.todo ≠ none → Unheard w)

/-- What may happen from the start of the command in `w` until it reports. -/
def window (w : Console) : System Console where
  start w' := w' = invoked w
  step w₁ w₂ := Moves w₁ w₂ ∧ w₂.todo ≠ none

/-! ## Messages -/

/-- A registration of an invocation up to `n`. -/
structure Fit (n : Nat) (m : Message) : Prop where
  sized : WellSized m.frame
  id : m.frame.u32 commonid = NETMT_REGISTER
  round : m.round ≤ n

structure Sound (w : Console) : Prop where
  buffer : Holds w.rx []
  mutex : w.server.mutex = false
  comm : w.todo ≠ none → w.comm.u32 commonid = NETMT_REGISTER
  asked : ∀ m ∈ w.asked, Fit w.round m
  flight : ∀ m ∈ w.flight, Fit w.round m

theorem mem_middle {older newer : List Message} {m o : Message} (h : o ∈ older ++ newer) :
    o ∈ older ++ m :: newer := by
  cases List.mem_append.mp h with
  | inl h => exact List.mem_append_left _ h
  | inr h => exact List.mem_append_right _ (List.mem_cons_of_mem _ h)

/-- A reply that is delivered is taken as a registration. -/
theorem received_spec {w : Console} (h : Sound w) {env : Nat → Env} {m : Message}
    {older newer : List Message} {res : Result Server} (hflight : w.flight = older ++ m :: newer)
    (hres : tcpRecv env m.io m.frame.bytes w.rx w.server = res) :
    res.state.commonid = NETMT_REGISTER ∧ res.state.mutex = false ∧ Holds res.rx [] := by
  have hfit := h.flight m (by simp [hflight])
  obtain ⟨-, hstate, hrx⟩ :=
    tcpRecv_next env m.io h.buffer hfit.sized (next_register env m.io w.server hfit.id) res hres
  refine ⟨?_, ?_, hrx⟩
  · rw [hstate, hfit.id, Region.wrap32_of_range (by decide) (by decide)]
  · rw [hstate]
    exact h.mutex

theorem begin_sound (files : FileStore) : Sound (begin files) where
  buffer := holds_initial
  mutex := rfl
  comm h := absurd rfl h
  asked _ hm := absurd hm List.not_mem_nil
  flight _ hm := absurd hm List.not_mem_nil

theorem Moves.sound {w w' : Console} (hmove : Moves w w') (h : Sound w) : Sound w' := by
  cases hmove with
  | accept io _ _ hs =>
    rw [netmtAccept_eq io w.server h.mutex] at hs
    cases hs
    exact ⟨h.buffer, h.mutex, h.comm, h.asked, h.flight⟩
  | close io _ hs =>
    rw [netmtClose_eq io w.server h.mutex] at hs
    cases hs
    refine ⟨h.buffer, h.mutex, fun hrun => h.comm fun hnone => ?_, ?_, ?_⟩
    · exact hrun (by simp [dropped, hnone])
    · exact fun m hm => h.asked m (List.mem_of_mem_filter hm)
    · exact fun m hm => h.flight m (List.mem_of_mem_filter hm)
  | invoke =>
    refine ⟨h.buffer, h.mutex, fun _ => ?_, fun m hm => ?_, fun m hm => ?_⟩
    · exact cleared_id
    · obtain ⟨hsized, hid, hround⟩ := h.asked m hm
      exact ⟨hsized, hid, Nat.le_succ_of_le hround⟩
    · obtain ⟨hsized, hid, hround⟩ := h.flight m hm
      exact ⟨hsized, hid, Nat.le_succ_of_le hround⟩
  | write conn rest htodo =>
    have hid := requestTo_id conn (h.comm (by simp [htodo]))
    refine ⟨h.buffer, h.mutex, fun _ => hid, fun m hm => ?_, h.flight⟩
    cases List.mem_append.mp hm with
    | inl hm => exact h.asked m hm
    | inr hm =>
      obtain rfl := List.mem_singleton.mp hm
      exact ⟨wellSized_setLen _, hid, le_refl _⟩
  | answer m reply older newer hasked _ hans =>
    have hfit := h.asked m (by simp [hasked])
    refine ⟨h.buffer, h.mutex, h.comm, fun o ho => h.asked o ?_, fun o ho => ?_⟩
    · rw [hasked]
      exact mem_middle ho
    · cases List.mem_append.mp ho with
      | inl ho => exact h.flight o ho
      | inr ho =>
        obtain rfl := List.mem_singleton.mp ho
        exact ⟨hans.sized, hans.id, hfit.round⟩
  | deliver env m older newer res hflight _ hres =>
    obtain ⟨-, hmutex, hrx⟩ := received_spec h hflight hres
    refine ⟨hrx, hmutex, h.comm, h.asked, fun o ho => h.flight o ?_⟩
    rw [hflight]
    exact mem_middle ho
  | report => exact ⟨h.buffer, h.mutex, fun hrun => absurd rfl hrun, h.asked, h.flight⟩

theorem sound_kept (files : FileStore) : (console files).Keeps Sound where
  start w hw := by
    obtain rfl : w = begin files := hw
    exact begin_sound files
  step _ _ _ h hmove := Moves.sound hmove h

/-! ## Reports -/

/-- The command runs, only its own requests are about, and if a registration was taken,
then as an answer to one of them. -/
structure Truthful (w : Console) : Prop where
  asked : ∀ m ∈ w.asked, m.round = w.round
  flight : ∀ m ∈ w.flight, m.round = w.round
  answered : w.server.commonid = NETMT_REGISTER → w.answered = true

theorem invoked_truthful {w : Console} (h : Unheard w) : Truthful (invoked w) where
  asked m hm := by
    have hnone : m ∈ w.asked := hm
    rw [h.asked] at hnone
    cases hnone
  flight m hm := by
    have hnone : m ∈ w.flight := hm
    rw [h.flight] at hnone
    cases hnone
  answered hreg := absurd hreg h.commonid

/-- One step of the walk, of a client or of the event loop. -/
theorem Moves.truthful {w w' : Console} (hmove : Moves w w') (hs : Sound w) (hrun : w.todo ≠ none)
    (hrun' : w'.todo ≠ none) (h : Truthful w) : Truthful w' := by
  cases hmove with
  | accept io _ _ hnext =>
    rw [netmtAccept_eq io w.server hs.mutex] at hnext
    cases hnext
    exact ⟨h.asked, h.flight, h.answered⟩
  | close io _ hnext =>
    rw [netmtClose_eq io w.server hs.mutex] at hnext
    cases hnext
    refine ⟨?_, ?_, h.answered⟩
    · exact fun m hm => h.asked m (List.mem_of_mem_filter hm)
    · exact fun m hm => h.flight m (List.mem_of_mem_filter hm)
  | invoke hidle => exact absurd hidle hrun
  | write conn rest _ =>
    refine ⟨fun m hm => ?_, h.flight, h.answered⟩
    cases List.mem_append.mp hm with
    | inl hm => exact h.asked m hm
    | inr hm =>
      obtain rfl := List.mem_singleton.mp hm
      rfl
  | answer m reply older newer hasked _ _ =>
    have hround := h.asked m (by simp [hasked])
    refine ⟨fun o ho => h.asked o ?_, fun o ho => ?_, h.answered⟩
    · rw [hasked]
      exact mem_middle ho
    · cases List.mem_append.mp ho with
      | inl ho => exact h.flight o ho
      | inr ho =>
        obtain rfl := List.mem_singleton.mp ho
        exact hround
  | deliver env m older newer res hflight _ _ =>
    have hround := h.flight m (by simp [hflight])
    refine ⟨h.asked, fun o ho => h.flight o ?_, fun _ => ?_⟩
    · rw [hflight]
      exact mem_middle ho
    · simp [received, hround]
  | report _ => exact absurd rfl hrun'

/-- A report is added only by the command itself. -/
theorem Moves.reports {w w' : Console} (hmove : Moves w w') : w'.reports = w.reports ∨
    w.todo = some [] ∧ w' = reported w := by
  cases hmove with
  | report htodo => exact Or.inr ⟨htodo, rfl⟩
  | _ => exact Or.inl rfl

/-- In a run in which no registration is about when the command is given. -/
structure Careful (w : Console) : Prop where
  sound : Sound w
  honest : Honest w
  truthful : w.todo ≠ none → Truthful w

theorem reported_honest {w : Console} (h : Honest w) (ht : Truthful w) : Honest (reported w) := by
  intro r hr hsuccess
  cases List.mem_append.mp hr with
  | inl hr => exact h r hr hsuccess
  | inr hr =>
    obtain rfl := List.mem_singleton.mp hr
    exact ht.answered (of_decide_eq_true hsuccess)

theorem careful_kept (files : FileStore) : (careful files).Keeps Careful where
  start w hw := by
    obtain rfl : w = begin files := hw
    exact ⟨begin_sound files, fun _ hr => absurd hr List.not_mem_nil, fun hrun => absurd rfl hrun⟩
  step w w' _ h hstep := by
    obtain ⟨hmove, hcareful⟩ := hstep
    refine ⟨hmove.sound h.sound, ?_, fun hrun' => ?_⟩
    · cases hmove.reports with
      | inl hsame =>
        intro r hr
        exact h.honest r (hsame ▸ hr)
      | inr hreport =>
        obtain ⟨htodo, rfl⟩ := hreport
        exact reported_honest h.honest (h.truthful (by simp [htodo]))
    · by_cases hrun : w.todo = none
      · -- the command starts with this step
        have hunheard := hcareful hrun hrun'
        cases hmove with
        | invoke _ => exact invoked_truthful hunheard
        | write conn rest htodo =>
          rw [hrun] at htodo
          cases htodo
        | close io _ _ => exact absurd (by simp [dropped, hrun]) hrun'
        | report htodo => exact absurd rfl hrun'
        | accept io _ _ _ => exact absurd hrun hrun'
        | answer m reply older newer _ _ _ => exact absurd hrun hrun'
        | deliver env m older newer res _ _ _ => exact absurd hrun hrun'
      · exact hmove.truthful h.sound hrun hrun' (h.truthful hrun)

/-- The command runs in every state of its window. -/
theorem window_running {w w₁ : Console} (h : (window w).Reachable w₁) : w₁.todo ≠ none := by
  cases h with
  | start hstart =>
    obtain rfl : w₁ = invoked w := hstart
    exact fun hnone => absurd hnone (by simp [invoked])
  | step _ hstep => exact hstep.2

theorem window_kept {w : Console} (hs : Sound w) (hidle : w.todo = none) (h : Unheard w) :
    (window w).Keeps fun w₁ => Sound w₁ ∧ Truthful w₁ where
  start w₁ hw := by
    obtain rfl : w₁ = invoked w := hw
    exact ⟨Moves.sound (.invoke hidle) hs, invoked_truthful h⟩
  step _ _ hreach h hstep := ⟨hstep.1.sound h.1,
    hstep.1.truthful h.1 (window_running hreach) hstep.2 h.2⟩

/-! ## What an invocation may find -/

/-- The walk, with nothing in between. -/
theorem walk_all {w : Console} (conns : List IoT) {w₁ : Console} (h : (window w).Reachable w₁)
    (htodo : w₁.todo = some conns) : ∃ w₂, (window w).Reachable w₂ ∧ w₂.todo = some [] ∧
      w₂.server = { w₁.server with out := w₁.server.out ++ registerWalk conns w₁.comm } ∧
      w₂.answered = w₁.answered ∧ w₂.round = w₁.round ∧ w₂.flight = w₁.flight ∧
      ∃ more, w₂.asked = w₁.asked ++ more := by
  induction conns generalizing w₁ with
  | nil => exact ⟨w₁, h, htodo, by rw [registerWalk, List.append_nil], rfl, rfl, rfl, [], by simp⟩
  | cons conn rest ih =>
    have hstep : (window w).Reachable (written w₁ conn rest) :=
      h.step ⟨.write conn rest htodo, by simp [written]⟩
    obtain ⟨w₂, hreach, hdone, hserver, hanswered, hround, hflight, more, hasked⟩ := ih hstep rfl
    refine ⟨w₂, hreach, hdone, ?_, hanswered, hround, hflight,
      ⟨conn.io, w₁.round, requestTo conn w₁.comm⟩ :: more, ?_⟩
    · rw [hserver, registerWalk, written]
      simp [hioWrite]
    · rw [hasked, written, List.append_assoc, List.singleton_append]

/-- Behind the walk stands what `register_netmt` writes. -/
theorem invoked_walk (w : Console) : ∃ w₁, (window w).Reachable w₁ ∧ w₁.todo = some [] ∧
    w₁.server = registerNetmt w.server ∧ w₁.answered = false ∧ w₁.round = w.round + 1 ∧
    w₁.flight = w.flight ∧ ∃ more, w₁.asked = w.asked ++ more := by
  have hstart : (window w).Reachable (invoked w) := .start rfl
  exact walk_all w.server.clients hstart (by rw [invoked])

/-- An old reply that arrives during the command. -/
theorem late_reply {w w₁ : Console} (hs : Sound w₁) (h : (window w).Reachable w₁)
    (hdone : w₁.todo = some []) (hanswered : w₁.answered = false) {m : Message}
    {rest : List Message} (hflight : w₁.flight = m :: rest) (hround : m.round < w₁.round) :
    ∃ w₂, (window w).Reachable w₂ ∧ w₂.todo = some [] ∧ w₂.server.commonid = NETMT_REGISTER ∧
      w₂.answered = false := by
  obtain ⟨res, hres⟩ : ∃ res, tcpRecv goodEnv m.io m.frame.bytes w₁.rx w₁.server = res := ⟨_, rfl⟩
  have hmove : Moves w₁ (received w₁ m rest res) :=
    .deliver goodEnv m [] rest res hflight (fun o ho => absurd ho List.not_mem_nil) hres
  have hfirst : w₁.flight = [] ++ m :: rest := hflight
  obtain ⟨hreg, -, -⟩ := received_spec hs hfirst hres
  refine ⟨_, h.step ⟨hmove, by simp [received, hdone]⟩, hdone, hreg, ?_⟩
  simp [received, hanswered, Nat.ne_of_lt hround]

/-- A client may answer with the very request. -/
theorem answers_self {n : Nat} {m : Message} (h : Fit n m) : Answers m.frame m.frame :=
  ⟨h.sized, h.id, rfl⟩

/-- Once a registration was taken, or while an old one is on its way, the command may
report what did not happen. -/
theorem stale_window {w : Console} (hs : Sound w) (hidle : w.todo = none) (h : ¬ Unheard w) :
    ∃ w₁, (window w).Reachable w₁ ∧ w₁.todo = some [] ∧ w₁.server.commonid = NETMT_REGISTER ∧
      w₁.answered = false := by
  obtain ⟨w₁, hreach, hdone, hserver, hanswered, hround, hflight, more, hasked⟩ := invoked_walk w
  have hsound : Sound w₁ := by
    refine System.Keeps.reachable (P := Sound) ⟨fun w' hw' => ?_, fun _ _ _ h hstep => ?_⟩ hreach
    · obtain rfl : w' = invoked w := hw'
      exact Moves.sound (.invoke hidle) hs
    · exact hstep.1.sound h
  by_cases hreg : w.server.commonid = NETMT_REGISTER
  · exact ⟨w₁, hreach, hdone, by rw [hserver]; exact hreg, hanswered⟩
  · cases hold : w.flight with
    | cons m rest =>
      have hle := (hs.flight m (by simp [hold])).round
      exact late_reply hsound hreach hdone hanswered (hflight.trans hold) (by omega)
    | nil =>
      cases hopen : w.asked with
      | nil => exact absurd ⟨hreg, hopen, hold⟩ h
      | cons m rest =>
        have hfit := hs.asked m (by simp [hopen])
        have hmove : Moves w₁ { w₁ with asked := rest ++ more, flight := w₁.flight ++ [m] } :=
          .answer m m.frame [] (rest ++ more) (by rw [hasked, hopen]; rfl)
            (fun o ho => absurd ho List.not_mem_nil) (answers_self hfit)
        have hle := hfit.round
        have hnew : m.round < w₁.round := by omega
        have hlast : w₁.flight ++ [m] = m :: [] := by rw [hflight, hold, List.nil_append]
        exact late_reply (hmove.sound hsound) (hreach.step ⟨hmove, by simp [hdone]⟩) hdone hanswered
          hlast hnew

/-- What is reported is true in every run that gives the command only while no
registration was taken and none is on its way; and in any other state, the command
may be given and report a success that no reply stands for. -/
theorem reports_honest (files : FileStore) :
    (∀ w, (careful files).Reachable w → Honest w) ∧
    ∀ w, (console files).Reachable w → w.todo = none →
      ((∀ w₁, (window w).Reachable w₁ → w₁.todo = some [] →
        w₁.server.commonid = NETMT_REGISTER → w₁.answered = true) ↔ Unheard w) := by
  refine ⟨fun w h => ((careful_kept files).reachable h).honest, fun w h hidle => ?_⟩
  have hs := (sound_kept files).reachable h
  constructor
  · intro hall
    by_contra hheard
    obtain ⟨w₁, hreach, hdone, hreg, hanswered⟩ := stale_window hs hidle hheard
    rw [hall w₁ hreach hdone hreg] at hanswered
    cases hanswered
  · intro hunheard w₁ hreach _ hreg
    exact ((window_kept hs hidle hunheard).reachable hreach).2.answered hreg

/-! ## A client that registers and leaves -/

/-- A server with the one client, and no command given yet. -/
def joined : Console := { begin FileStore.empty with
  server := { initial FileStore.empty with clients := [oneConn] }
  opened := [oneIo] }

theorem joined_reachable : (careful FileStore.empty).Reachable joined := by
  have hstart : (careful FileStore.empty).Reachable (begin FileStore.empty) := .start rfl
  refine hstart.step ⟨.accept oneIo ⟨by decide, by decide⟩ List.not_mem_nil ?_, fun _ h =>
    absurd rfl h⟩
  exact netmtAccept_eq oneIo _ rfl

theorem joined_unheard : Unheard joined := ⟨by decide, rfl, rfl⟩

/-- Its request, which it answers as it is. -/
def firstRequest : Message := ⟨oneIo, 1, requestTo oneConn cleared⟩

theorem firstRequest_fit : Fit 1 firstRequest :=
  ⟨wellSized_setLen _, requestTo_id oneConn cleared_id, le_refl 1⟩

/-- The answer is on its way. -/
def replied : Console :=
  { written (invoked joined) oneConn [] with asked := [], flight := [firstRequest] }

theorem replied_reachable : (careful FileStore.empty).Reachable replied := by
  have hinvoke := joined_reachable.step ⟨.invoke rfl, fun _ _ => joined_unheard⟩
  have hwrite := hinvoke.step ⟨.write oneConn [] rfl, fun h => absurd h (by simp [invoked])⟩
  exact hwrite.step ⟨.answer firstRequest firstRequest.frame [] [] rfl
    (fun o ho => absurd ho List.not_mem_nil) (answers_self firstRequest_fit),
    fun h => absurd h (by simp [written])⟩

/-- The first registration is real. -/
theorem first_report : ∃ w, (careful FileStore.empty).Reachable w ∧ w.todo = none ∧
    w.opened = [oneIo] ∧ w.server.commonid = NETMT_REGISTER ∧
    w.server.clients.map IoT.io = [oneIo] ∧
    w.reports = [⟨true, true⟩] := by
  obtain ⟨res, hres⟩ : ∃ res, tcpRecv oneEnv oneIo firstRequest.frame.bytes Rx.initial
      replied.server = res :=
    ⟨_, rfl⟩
  have hdeliver := replied_reachable.step ⟨.deliver oneEnv firstRequest [] [] res rfl
    (fun o ho => absurd ho List.not_mem_nil) hres, fun h => absurd h (by simp [replied, written])⟩
  have hreport :=
    hdeliver.step ⟨.report rfl, fun h => absurd h (by simp [received, replied, written])⟩
  obtain ⟨-, hstate, -⟩ := tcpRecv_next oneEnv oneIo holds_initial firstRequest_fit.sized
    (next_register oneEnv oneIo replied.server firstRequest_fit.id) res hres
  have hreg : res.state.commonid = NETMT_REGISTER := by
    rw [hstate, firstRequest_fit.id, Region.wrap32_of_range (by decide) (by decide)]
  have hios : res.state.clients.map IoT.io = [oneIo] := by
    have hone : replied.server.clients = [oneConn] := rfl
    rw [hstate, hone, List.map_singleton, List.map_singleton]
    split <;> rfl
  have hprinted : (reported (received replied firstRequest [] res)).reports = [⟨true, true⟩] := by
    change [(⟨decide (res.state.commonid = NETMT_REGISTER), _⟩ : Report)] = _
    rw [hreg]
    rfl
  exact ⟨_, hreport, rfl, rfl, hreg, hios, hprinted⟩

theorem careful_reachable {files : FileStore} {w : Console} (h : (careful files).Reachable w) :
    (console files).Reachable w := by
  induction h with
  | start hstart => exact .start hstart
  | step _ hstep ih => exact ih.step hstep.1

/-- The client leaves, the command is given again to an empty list, and reports success. -/
theorem stale_report : ∃ w, (console FileStore.empty).Reachable w ∧ w.opened = [] ∧
    w.reports = [⟨true, true⟩, ⟨true, false⟩] ∧ ¬ Honest w := by
  obtain ⟨w, hcareful, hidle, hopened, hreg, hios, hreports⟩ := first_report
  have hreach := careful_reachable hcareful
  have hs := (sound_kept FileStore.empty).reachable hreach
  have hclose :=
    hreach.step (.close oneIo (by simp [hopened]) (netmtClose_eq oneIo w.server hs.mutex))
  have hnone : (w.server.clients.filter fun conn => conn.io ≠ oneIo) = [] := by
    rw [List.filter_eq_nil_iff]
    intro conn hconn
    have hmem : conn.io ∈ w.server.clients.map IoT.io := List.mem_map_of_mem hconn
    rw [hios, List.mem_singleton] at hmem
    simp [hmem]
  have hinvoke := hclose.step (.invoke (by simp [dropped, hidle]))
  have hreport := hinvoke.step (.report (congrArg some hnone))
  refine ⟨_, hreport, by simp [reported, invoked, dropped, hopened], ?_, fun hall => ?_⟩
  · simp [reported, invoked, dropped, hreg, hreports]
  · have hstale := hall ⟨true, false⟩ (by simp [reported, invoked, dropped, hreg]) rfl
    cases hstale

end NetmtRegisterReport
