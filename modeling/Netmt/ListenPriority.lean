import Netmt.ReceiveBuffer
import Mathlib.Data.List.Induction

/-!
# The priority of the listening event

libhv keeps the events that are ready in lists, one for each priority. The `switch`
of the server's `tcp_recv` sets the priority of `listenio`, and `EVENT_PENDING`
computes the list from it when the listening socket is ready the next time. The bytes
that are read are any.
-/
namespace NetmtListenPriority

open NetmtCommand NetmtTcpRecv NetmtTransfer NetmtServer NetmtDispatchLoop NetmtReceiveBuffer

def HEVENT_LOWEST_PRIORITY : Int := -5
def HEVENT_NORMAL_PRIORITY : Int := 0
def HEVENT_HIGHEST_PRIORITY : Int := 5
def HEVENT_PRIORITY_SIZE : Int := HEVENT_HIGHEST_PRIORITY - HEVENT_LOWEST_PRIORITY + 1
def HEVENT_PRIORITY_INDEX (priority : Int) : Int := priority - HEVENT_LOWEST_PRIORITY

def InRange (priority : Int) : Prop :=
  HEVENT_LOWEST_PRIORITY ≤ priority ∧ priority ≤ HEVENT_HIGHEST_PRIORITY

/-- The index lies in `loop->pendings`. -/
def Indexed (priority : Int) : Prop :=
  0 ≤ HEVENT_PRIORITY_INDEX priority ∧ HEVENT_PRIORITY_INDEX priority < HEVENT_PRIORITY_SIZE

instance (p : Int) : Decidable (InRange p) := inferInstanceAs (Decidable (_ ∧ _))

instance (p : Int) : Decidable (Indexed p) := inferInstanceAs (Decidable (_ ∧ _))

theorem indexed_iff (priority : Int) : Indexed priority ↔ InRange priority := by
  simp only [Indexed, InRange, HEVENT_PRIORITY_INDEX, HEVENT_PRIORITY_SIZE, HEVENT_LOWEST_PRIORITY,
    HEVENT_HIGHEST_PRIORITY]
  omega

theorem inRange_normal : InRange HEVENT_NORMAL_PRIORITY := by decide

/-- The server in its loop; `pending` is the list that `listenio` is in. -/
structure HLoop where
  rx : Rx
  server : Server
  pending : Option Int

/-- libhv makes `listenio` with the normal priority. -/
def HLoop.initial (files : FileStore) : HLoop := ⟨Rx.initial, NetmtServer.initial files, none⟩

/-- `EVENT_PENDING` of `listenio`; `none` for an access outside `pendings`. -/
def eventPending (w : HLoop) : Option HLoop :=
  match w.pending with
  | some _ => some w
  | none =>
    if Indexed w.server.priority then
      some { w with pending := some (HEVENT_PRIORITY_INDEX w.server.priority) }
    else none

/-- A read comes with what the outside world answers for the first frame that the call
handles, for the second and so on. -/
inductive Event where
  /-- the poll finds the listening socket ready -/
  | ready
  /-- `hloop_process_pendings` is through -/
  | processed
  | accept : Hio → Event
  | close : Hio → Event
  | read : Hio → (Nat → Env) → List UInt8 → Event

/-- The `switch` of a call. -/
def callHandle (io : Hio) (answers : Nat → Env) (w : HLoop) : Handler Server :=
  handle (fun n => answers (n - w.server.tick)) io

/-- What the event loop does, when it comes back from it. -/
inductive Event.Step : Event → HLoop → HLoop → Prop where
  | ready {w w' : HLoop} : eventPending w = some w' → Event.Step .ready w w'
  | processed (w : HLoop) : Event.Step .processed w { w with pending := none }
  | accept {io : Hio} {w : HLoop} {s : Server} : (netmtAccept io w.server).Ends s →
      Event.Step (.accept io) w { w with server := s }
  | close {io : Hio} {w : HLoop} {s : Server} : (netmtClose io w.server).Ends s →
      Event.Step (.close io) w { w with server := s }
  | read {io : Hio} {answers : Nat → Env} {buf : List UInt8} {w : HLoop} {rx : Rx} {s : Server} :
      Returns (callHandle io answers w) id buf w.rx w.server rx s →
      Event.Step (.read io answers buf) w { w with rx := rx, server := s }

/-- The states between the events of a run. -/
inductive Runs (files : FileStore) : List Event → HLoop → Prop where
  | start : Runs files [] (.initial files)
  | step {es : List Event} {ev : Event} {w w' : HLoop} : Runs files es w → ev.Step w w' →
      Runs files (es ++ [ev]) w'

/-- The states in which the call evaluates the condition of its loop, or is behind the
`switch`. -/
inductive InCall (io : Hio) (answers : Nat → Env) (buf : List UInt8) (w : HLoop) :
    Server → Prop where
  | loop {rx rx₁ : Rx} {off : Int} {s : Server} : append buf w.rx = some rx →
      Reached (callHandle io answers w) rx w.server off rx₁ s → InCall io answers buf w s
  | handled {rx rx₁ : Rx} {off : Int} {s s' : Server} : append buf w.rx = some rx →
      Reached (callHandle io answers w) rx w.server off rx₁ s → rx₁.bytelen ≠ 0 →
      (callHandle io answers w rx₁.databuf off s).Ends s' → InCall io answers buf w s'

/-! ## What sets the priority -/

/-- The frame for which the `switch` calls `hevent_set_priority`. -/
def SetsPriority (f : Frame) : Prop :=
  f.u32 NetmtCommand.commonid = NETMT_PING ∧ f.u32 subcommonid = NETMT_SUCCESS

instance (f : Frame) : Decidable (SetsPriority f) := inferInstanceAs (Decidable (_ ∧ _))

/-- The priority behind a frame: what the macro was given is the address of `sendbuf`. -/
def priorityAfter (e : Env) (f : Frame) (priority : Int) : Int :=
  if SetsPriority f then e.sendbufAddr else priority

theorem priorityAfter_other {e : Env} {f : Frame} {priority : Int}
    (h : f.u32 NetmtCommand.commonid ≠ NETMT_PING) : priorityAfter e f priority = priority :=
  if_neg fun hsets => h hsets.1

theorem onPing_priority {e : Env} {f : Frame} {s s' : Server}
    (hid : f.u32 NetmtCommand.commonid = NETMT_PING) (h : (onPing e f s).Ends s') :
    s'.priority = priorityAfter e f s.priority := by
  rw [onPing] at h
  split at h
  · next hsub =>
    rcases h with h | h <;> cases h
    exact (if_pos ⟨hid, hsub⟩).symm
  · next hsub =>
    rcases h with h | h <;> cases h
    exact (if_neg fun hsets => hsub hsets.2).symm

theorem onHeartbeat_priority {e : Env} {f : Frame} {s s' : Server}
    (h : (onHeartbeat e f s).Ends s') :
    s'.priority = s.priority := by
  rw [onHeartbeat] at h
  split at h
  · simp only at h
    split at h <;> rcases h with h | h <;> cases h <;> rfl
  · rcases h with h | h <;> cases h
    rfl

theorem onGet_priority {e : Env} {f : Frame} {tail : List UInt8} {s s' : Server}
    (h : (onGet e f tail s).Ends s') : s'.priority = s.priority := by
  rcases h with h | h <;> cases onGet_iff.mp h <;> rfl

theorem onExec_priority {io : Hio} {f : Frame} {tail : List UInt8} {s s' : Server}
    (h : (onExec io f tail s).Ends s') : s'.priority = s.priority := by
  rcases h with h | h <;> cases onExec_iff.mp h <;> rfl

theorem switch_priority {e : Env} {io : Hio} {f : Frame} {tail : List UInt8} {s s' : Server}
    (h : (switch e io f tail s).Ends s') : s'.priority = priorityAfter e f s.priority := by
  rcases command_cases (f.u32 NetmtCommand.commonid) with hid | hid | hid | hid | hid | hid
  · rw [switch_ping hid] at h
    exact onPing_priority hid h
  · rw [switch_heartbeat hid] at h
    rw [priorityAfter_other (by rw [hid]; decide), onHeartbeat_priority h]
  · rw [switch_register hid] at h
    rw [priorityAfter_other (by rw [hid]; decide)]
    rcases h with h | h <;> cases h
    rfl
  · rw [switch_get hid] at h
    rw [priorityAfter_other (by rw [hid]; decide), onGet_priority h]
  · rw [switch_exec hid] at h
    rw [priorityAfter_other (by rw [hid]; decide), onExec_priority h]
  · rw [switch_other hid] at h
    have hping : f.u32 NetmtCommand.commonid ≠ NETMT_PING := by
      intro heq
      rw [heq] at hid
      exact hid (by decide)
    rw [priorityAfter_other hping]
    rcases h with h | h <;> cases h
    rfl

/-- The handler, on the bytes that it finds. -/
theorem handle_priority {env : Nat → Env} {io : Hio} {db : Databuf} {off : Int} {s s' : Server}
    (h : (handle env io db off s).Ends s') :
    s'.priority = priorityAfter (env s.tick) (frameAt db off) s.priority := by
  have hset := switch_priority (handle_ends h)
  exact hset

/-- A frame that sets the priority is handled to its end, when it lies in `databuf`. -/
theorem handle_sets {env : Nat → Env} {io : Hio} {db : Databuf} {off : Int} {s : Server}
    (hf : SetsPriority (frameAt db off)) (hin : Within off (pingReach (frameAt db off))) :
    ∃ s', (handle env io db off s).Ends s' ∧ s'.priority = (env s.tick).sendbufAddr := by
  have hreach : reach (env s.tick) io (frameAt db off) (behind db off)
      { s with tick := s.tick + 1 } =
      pingReach (frameAt db off) := if_pos hf.1
  rw [handle, onComm_within (by rwa [hreach]), switch_ping hf.1, onPing, if_pos hf.2]
  exact ⟨_, .inl ⟨db, rfl⟩, rfl⟩

/-! ## Runs -/

/-- At all times: the priority is one of libhv's, and its list is there. -/
def AlwaysInRange (files : FileStore) (es : List Event) : Prop :=
  ∀ pre w, pre <+: es → Runs files pre w →
    (InRange w.server.priority ∧ Indexed w.server.priority) ∧
    ∀ io answers buf s, pre ++ [.read io answers buf] <+: es → InCall io answers buf w s →
      InRange s.priority ∧ Indexed s.priority

/-- Every frame that is reached and sets the priority finds a `sendbuf` with such an
address. -/
def AddressesInRange (files : FileStore) (es : List Event) : Prop :=
  ∀ pre w io answers buf, pre ++ [.read io answers buf] <+: es → Runs files pre w →
    ∀ rx off rx₁ s, append buf w.rx = some rx →
      Reached (callHandle io answers w) rx w.server off rx₁ s → rx₁.bytelen ≠ 0 →
      SetsPriority (frameAt rx₁.databuf off) → Within off (pingReach (frameAt rx₁.databuf off)) →
      InRange (answers (s.tick - w.server.tick)).sendbufAddr

section Runs

variable {files : FileStore} {es pre : List Event} {w w' : HLoop}

/-- What a handler of a call leaves. -/
theorem handled_in_range (hsafe : AddressesInRange files es) {io : Hio} {answers : Nat → Env}
    {buf : List UInt8} (hpre : pre ++ [.read io answers buf] <+: es) (hruns : Runs files pre w)
    {rx rx₁ : Rx} {off : Int} {s s' : Server} (happend : append buf w.rx = some rx)
    (hreach : Reached (callHandle io answers w) rx w.server off rx₁ s) (hne : rx₁.bytelen ≠ 0)
    (hends : (callHandle io answers w rx₁.databuf off s).Ends s') (hin : InRange s.priority) :
    InRange s'.priority := by
  rw [handle_priority hends, priorityAfter]
  split
  · next hsets =>
    have hwithin : Within off (pingReach (frameAt rx₁.databuf off)) := by
      have hinside : callHandle io answers w rx₁.databuf off s ≠ .fault .outOfBounds := by
        intro hfault
        rw [hfault] at hends
        rcases hends with ⟨db, h⟩ | h <;> cases h
      rw [callHandle, handle_inside, reach, if_pos hsets.1] at hinside
      exact hinside
    exact hsafe pre w io answers buf hpre hruns rx off rx₁ s happend hreach hne hsets hwithin
  · exact hin

/-- All through the loop of a call. -/
theorem reached_in_range (hsafe : AddressesInRange files es) {io : Hio} {answers : Nat → Env}
    {buf : List UInt8} (hpre : pre ++ [.read io answers buf] <+: es) (hruns : Runs files pre w)
    {rx rx₁ : Rx} {off : Int} {s : Server} (happend : append buf w.rx = some rx)
    (hreach : Reached (callHandle io answers w) rx w.server off rx₁ s)
    (hin : InRange w.server.priority) :
    InRange s.priority := by
  induction hreach with
  | enter _ _ => exact hin
  | again hreach hne hpass ih =>
    exact handled_in_range hsafe hpre hruns happend hreach hne (ends_of_again hpass) ih

theorem inCall_in_range (hsafe : AddressesInRange files es) {io : Hio} {answers : Nat → Env}
    {buf : List UInt8} (hpre : pre ++ [.read io answers buf] <+: es) (hruns : Runs files pre w)
    (hin : InRange w.server.priority) {s : Server} (h : InCall io answers buf w s) :
    InRange s.priority := by
  cases h with
  | loop happend hreach => exact reached_in_range hsafe hpre hruns happend hreach hin
  | handled happend hreach hne hends =>
    exact handled_in_range hsafe hpre hruns happend hreach hne hends
      (reached_in_range hsafe hpre hruns happend hreach hin)

/-- A call that comes back leaves one of its states, or does nothing. -/
theorem returns_inCall {io : Hio} {answers : Nat → Env} {buf : List UInt8} {rx : Rx} {s : Server}
    (h : Returns (callHandle io answers w) id buf w.rx w.server rx s) :
    s = w.server ∨ InCall io answers buf w s := by
  cases h with
  | waits _ _ _ => exact .inl rfl
  | empty happend hreach _ => exact .inr (.loop happend hreach)
  | stops happend hreach hne hstop he =>
    exact .inr (.handled happend hreach hne (ends_of_stop hstop he))

theorem step_in_range (hsafe : AddressesInRange files es) {ev : Event} (hpre : pre ++ [ev] <+: es)
    (hruns : Runs files pre w) (hstep : ev.Step w w') (hin : InRange w.server.priority) :
    InRange w'.server.priority := by
  cases hstep with
  | ready hpending =>
    rw [eventPending] at hpending
    split at hpending
    · cases hpending
      exact hin
    · split at hpending <;> cases hpending
      exact hin
  | processed => exact hin
  | accept hends =>
    rw [accept_ends hends]
    exact hin
  | close hends =>
    rw [close_ends hends]
    exact hin
  | read hreturns =>
    rcases returns_inCall hreturns with rfl | hcall
    · exact hin
    · exact inCall_in_range hsafe hpre hruns hin hcall

theorem runs_in_range (hsafe : AddressesInRange files es) (hpre : pre <+: es)
    (hruns : Runs files pre w) :
    InRange w.server.priority := by
  induction hruns with
  | start => exact inRange_normal
  | @step pre ev w w' hruns hstep ih =>
    exact step_in_range hsafe hpre hruns hstep (ih ((List.prefix_append pre [ev]).trans hpre))

end Runs

/-- The priority stays in range in just those runs in which every address that it is
set to lies in the range. -/
theorem always_in_range_iff (files : FileStore) (es : List Event) :
    AlwaysInRange files es ↔ AddressesInRange files es := by
  constructor
  · intro hall pre w io answers buf hpre hruns rx off rx₁ s happend hreach hne hsets hin
    obtain ⟨s', hends, hset⟩ := handle_sets hsets hin
    have hcall : InCall io answers buf w s' := .handled happend hreach hne hends
    have hrange :=
      ((hall pre w ((List.prefix_append _ _).trans hpre) hruns).2 io answers buf s' hpre hcall).1
    rwa [hset] at hrange
  · intro hsafe pre w hpre hruns
    have hin := runs_in_range hsafe hpre hruns
    refine ⟨⟨hin, (indexed_iff _).mpr hin⟩, fun io answers buf s hpre' hcall => ?_⟩
    have hin' := inCall_in_range hsafe hpre' hruns hin hcall
    exact ⟨hin', (indexed_iff _).mpr hin'⟩

/-! ## One ping -/

def pingFrame : Frame :=
  setLen (((default : Frame).putU32 NetmtCommand.commonid NETMT_PING).putU32
    subcommonid NETMT_SUCCESS)

theorem pingFrame_sets : SetsPriority pingFrame := by
  constructor <;> simp [pingFrame, setLen]

theorem pingFrame_next (env : Nat → Env) (io : Hio) (s : Server) : next env io s pingFrame =
    some { s with priority := (env s.tick).sendbufAddr, tick := s.tick + 1 } := by
  rw [next, switch_ping pingFrame_sets.1, onPing, if_pos pingFrame_sets.2]

/-- `sendbuf` lies at 94208. -/
def addressed : Nat → Env := fun _ => ⟨0, true, none, 94208⟩

/-- One client sends one ping, and the socket is ready for the next client. -/
def pingEvents : List Event :=
  [.accept ⟨0, 5⟩, .read ⟨0, 5⟩ addressed pingFrame.bytes, .ready]

/-- The server to which the client is connected. -/
def connected : HLoop :=
  ⟨Rx.initial, { NetmtServer.initial .empty with
    clients := [⟨⟨0, 5⟩, default, [], DATABUF, 0, 0⟩] }, none⟩

theorem ping_moves : ∃ w, Runs .empty [.accept ⟨0, 5⟩, .read ⟨0, 5⟩ addressed pingFrame.bytes] w ∧
    w.pending = none ∧ w.server.priority = 94208 := by
  have haccept : Runs .empty [.accept ⟨0, 5⟩] connected := .step .start (.accept (.inl rfl))
  obtain ⟨res, hres⟩ : ∃ res,
    NetmtTcpRecv.tcpRecv (callHandle ⟨0, 5⟩ addressed connected) id pingFrame.bytes
      Rx.initial connected.server = res := ⟨_, rfl⟩
  obtain ⟨hdone, hstate, -⟩ := tcpRecv_next _ ⟨0, 5⟩ holds_initial (wellSized_setLen _)
    (pingFrame_next _ ⟨0, 5⟩ connected.server) res hres
  rw [← hres] at hdone
  have hreturns := returns_of_done hdone
  rw [hres] at hreturns
  refine ⟨_, Runs.step haccept (.read hreturns), rfl, ?_⟩
  rw [hstate]
  rfl

theorem ping_leaves_range :
    (∃ w, Runs .empty [.accept ⟨0, 5⟩, .read ⟨0, 5⟩ addressed pingFrame.bytes] w ∧
      eventPending w = none) ∧
      ¬ AlwaysInRange .empty pingEvents := by
  obtain ⟨w, hruns, hpending, hset⟩ := ping_moves
  have hout : ¬ InRange w.server.priority := by
    rw [hset]
    decide
  constructor
  · refine ⟨w, hruns, ?_⟩
    rw [eventPending, hpending]
    exact if_neg fun h => hout ((indexed_iff _).mp h)
  · intro hall
    exact hout (hall _ _ ⟨[.ready], rfl⟩ hruns).1.1

end NetmtListenPriority
