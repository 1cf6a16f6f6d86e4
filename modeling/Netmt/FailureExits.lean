import Netmt.ReceiveBuffer
import Netmt.Reads

/-!
# Returns from inside the switch

When a file does not open or a write is short, the handler returns from `tcp_recv`.
Such a return skips the step over the frame, the move of what is left to the front of
`databuf`, and behind a short write also the release of `s_mutex`.
-/
namespace NetmtFailureExits

open NetmtCommand NetmtTcpRecv NetmtTransfer NetmtReads NetmtDispatchLoop NetmtReceiveBuffer Systems

/-- The globals of the reassembly and of the handlers, with the bytes that were received
and the frames that were dispatched up to now. -/
structure Log (σ : Type) where
  rx : Rx
  state : σ
  received : List UInt8
  dispatched : List (List UInt8)

def Log.after {σ : Type} (l : Log σ) (r : List UInt8) (res : Result σ) : Log σ :=
  ⟨res.rx, res.state, l.received ++ r, l.dispatched ++ res.dispatched.map Dispatch.comm⟩

/-- The bytes are a stream of well-sized frames, as far as it goes. -/
def WellFramed (bytes : List UInt8) : Prop :=
  ∃ (fs : List Frame) (q : List UInt8), (∀ f ∈ fs, WellSized f) ∧ Partial q ∧ bytes = stream fs ++ q

section Receiver

variable {σ ι : Type} (handles : ι → Handler σ) (enter : σ → σ) (locked : σ → Bool)

/-- `s_mutex` is free, the frames that were dispatched are the first of the stream, each
once, and all that was received behind them lies at the front of `databuf`. -/
structure Consistent (l : Log σ) : Prop where
  unlocked : locked l.state = false
  consumed : ∃ (done : List Frame) (rest : List UInt8), l.received = stream done ++ rest ∧
    l.dispatched = done.map Region.bytes ∧ l.rx.bytelen = rest.length ∧ HasAt l.rx.databuf 0 rest

/-- A frame that is reached in the call fails. -/
def FailsIn (fails : ι → Databuf → Int → σ → Prop) (i : ι) (r : List UInt8) (l : Log σ) : Prop :=
  ∃ rx', append r l.rx = some rx' ∧ ∃ off rx₁ s₁,
    Reached (handles i) rx' (enter l.state) off rx₁ s₁ ∧
    rx₁.bytelen ≠ 0 ∧ fails i rx₁.databuf off s₁

/-- Calls of `tcp_recv` that return, on reads of a well-framed stream for which `ok`
holds, and whatever else changes the other globals and leaves `s_mutex` alone. -/
def calls (ok : ι → List UInt8 → Log σ → Prop) : System (Log σ) where
  start l := ∃ s, locked s = false ∧ l = ⟨Rx.initial, s, [], []⟩
  step l l' := (∃ s, locked s = locked l.state ∧ l' = { l with state := s }) ∨
    ∃ i r, IsRead r ∧ WellFramed (l.received ++ r) ∧ ok i r l ∧
      returns (tcpRecv (handles i) enter r l.rx l.state).exit = true ∧
      l' = l.after r (tcpRecv (handles i) enter r l.rx l.state)

/-- What a receiver keeps as long as no frame fails. -/
structure InStep (l : Log σ) : Prop where
  unlocked : locked l.state = false
  consumed : ∃ (done : List Frame) (q : List UInt8), l.received = stream done ++ q ∧
    l.dispatched = done.map Region.bytes ∧ Holds l.rx q

/-- A handler that fails returns from inside the `switch`, and others leave the lock as
it is. -/
structure Fails (handle : Handler σ) (fails : Databuf → Int → σ → Prop) : Prop where
  islocal : Local handle
  keeps : ∀ db off s db' s', handle db off s = .next db' s' → locked s' = locked s
  leaves : ∀ db off s, locked s = false → ((∃ s', handle db off s = .leave s') ↔ fails db off s)

variable {handles enter locked} {handle : Handler σ} {off : Int} {rx : Rx} {s : σ}

theorem InStep.consistent {l : Log σ} (h : InStep locked l) : Consistent locked l := by
  obtain ⟨done, q, hreceived, hdispatched, hholds⟩ := h.consumed
  exact ⟨h.unlocked, done, q, hreceived, hdispatched, hholds.bytelen, hholds.front⟩

/-! ## Which calls a handler leaves -/

/-- Behind what was reached the loop goes on as if it had started there. -/
theorem exit_of_reached {rx₀ : Rx} {s₀ : σ} (hr : Reached handle rx₀ s₀ off rx s) (fuel : Nat) :
    ∃ fuel', (loop handle fuel 0 rx₀ s₀).exit = (loop handle fuel' off rx s).exit := by
  induction hr with
  | enter _ _ => exact ⟨fuel, rfl⟩
  | again _ hne hpass ih =>
    obtain ⟨fuel', hexit⟩ := ih
    cases fuel' with
    | zero => exact ⟨0, hexit⟩
    | succ n => exact ⟨n, by rw [hexit, loop_again n hne hpass, Result.after_exit]⟩

/-- A loop that is left has reached a frame whose handler leaves it. -/
theorem reached_of_leave {rx₀ : Rx} {s₀ : σ} (fuel : Nat) (hr : Reached handle rx₀ s₀ off rx s)
    (hexit : (loop handle fuel off rx s).exit = .leave) : ∃ off₁ rx₁ s₁,
      Reached handle rx₀ s₀ off₁ rx₁ s₁ ∧ rx₁.bytelen ≠ 0 ∧ ∃ s',
      handle rx₁.databuf off₁ s₁ = .leave s' := by
  induction fuel generalizing off rx s with
  | zero => cases hexit
  | succ fuel ih =>
    by_cases hne : rx.bytelen = 0
    · rw [loop_empty fuel hne] at hexit
      cases hexit
    · cases hpass : pass handle off rx s with
      | again off' rx' s' =>
        rw [loop_again fuel hne hpass, Result.after_exit] at hexit
        exact ih (hr.again hne hpass) hexit
      | stop rx' s' e =>
        rw [loop_stop fuel hne hpass] at hexit
        have he : e = .leave := hexit
        subst he
        refine ⟨off, rx, s, hr, hne, ?_⟩
        cases hh : handle rx.databuf off s with
        | leave t => exact ⟨t, rfl⟩
        | fault x =>
          rw [pass_fault hh] at hpass
          cases hpass
        | next db t =>
          rw [pass_next hh] at hpass
          cases advance_cases hpass

theorem reached_locked {fails : Databuf → Int → σ → Prop} (hf : Fails locked handle fails)
    {rx₀ : Rx} {s₀ : σ} (hr : Reached handle rx₀ s₀ off rx s) : locked s = locked s₀ := by
  induction hr with
  | enter _ _ => rfl
  | @again off₁ off₂ rx₁ rx₂ s₁ s₂ _ _ hpass ih =>
    cases hh : handle rx₁.databuf off₁ s₁ with
    | leave t =>
      rw [pass_leave hh] at hpass
      cases hpass
    | fault x =>
      rw [pass_fault hh] at hpass
      cases hpass
    | next db t =>
      rw [pass_next hh] at hpass
      rw [advance_again_state hpass, hf.keeps _ _ _ _ _ hh, ih]

/-- A call is left exactly when a frame that is reached fails. -/
theorem leave_iff (handles : ι → Handler σ) (enter : σ → σ) (fails : ι → Databuf → Int → σ → Prop)
    (i : ι) (hf : Fails locked (handles i) (fails i)) (henter : ∀ s, locked (enter s) = locked s)
    {r : List UInt8} {l : Log σ} (hunlocked : locked l.state = false)
    (hends : (tcpRecv (handles i) enter r l.rx l.state).exit ≠ .stuck) :
    (tcpRecv (handles i) enter r l.rx l.state).exit = .leave ↔
    FailsIn handles enter fails i r l := by
  have hfree : ∀ rx' off rx₁ s₁, Reached (handles i) rx' (enter l.state) off rx₁ s₁ →
      locked s₁ = false :=
    fun rx' off rx₁ s₁ hr => by rw [reached_locked hf hr, henter, hunlocked]
  constructor
  · intro hexit
    rw [tcpRecv] at hexit
    split at hexit
    · cases hexit
    · next rx' happend =>
      split at hexit
      · cases hexit
      · next len hlen =>
        split at hexit
        · cases hexit
        · next hle =>
          obtain ⟨off, rx₁, s₁, hr, hne, hleave⟩ :=
            reached_of_leave loopFuel (.enter hlen (Int.not_lt.mp hle)) hexit
          exact ⟨rx', happend, off, rx₁, s₁, hr, hne,
            (hf.leaves _ _ _ (hfree _ _ _ _ hr)).mp hleave⟩
  · rintro ⟨rx', happend, off, rx₁, s₁, hr, hne, hfails⟩
    obtain ⟨s', hleave⟩ := (hf.leaves _ _ _ (hfree _ _ _ _ hr)).mpr hfails
    obtain ⟨len, hlen, hle⟩ := hr.complete
    have hcall : tcpRecv (handles i) enter r l.rx l.state = loop (handles i) loopFuel 0 rx'
        (enter l.state) := by
      simp only [tcpRecv, happend, hlen, gt_iff_lt, Int.not_lt.mpr hle, if_false]
    obtain ⟨fuel, hfuel⟩ := exit_of_reached hr loopFuel
    rw [hcall] at hends ⊢
    cases fuel with
    | zero => exact absurd hfuel hends
    | succ n =>
      rw [hfuel, loop_stop n hne (pass_leave hleave)]

/-! ## One call -/

theorem handled_locked {fails : Databuf → Int → σ → Prop} (hf : Fails locked handle fails)
    {fs : List Frame} {s s' : σ} (h : Handled handle fs s s') : locked s' = locked s := by
  induction h with
  | nil s => rfl
  | cons _ hnext _ ih => rw [ih, hf.keeps _ _ _ _ _ hnext]

/-- One call from what a receiver keeps: either no frame failed and it is kept on, or a
failed frame is still counted. -/
theorem call_inStep {fails : ι → Databuf → Int → σ → Prop} {i : ι}
    (hf : Fails locked (handles i) (fails i)) (henter : ∀ s, locked (enter s) = locked s)
    {r : List UInt8} {l : Log σ} (h : InStep locked l) (hr : IsRead r)
    (hframed : WellFramed (l.received ++ r))
    (hreturns : returns (tcpRecv (handles i) enter r l.rx l.state).exit = true) :
    (¬ FailsIn handles enter fails i r l ∧
      InStep locked (l.after r (tcpRecv (handles i) enter r l.rx l.state))) ∨
    (FailsIn handles enter fails i r l ∧
      ¬ Consistent locked (l.after r (tcpRecv (handles i) enter r l.rx l.state))) := by
  obtain ⟨done, q, hreceived, hdispatched, hholds⟩ := h.consumed
  obtain ⟨fs, q', hfs, hq', hstream⟩ := hframed
  obtain ⟨fs₁, fs₂, q₁, rfl, hq₁, hcut, hrest⟩ := stream_cut fs hfs q' hq' _ _ hstream
  -- the frames dispatched up to now are those in front of the cut
  have hsame : done.map Region.bytes = fs₁.map Region.bytes := by
    rw [← blocks_stream done q hholds.incomplete, ← hreceived, hcut, blocks_stream fs₁ q₁ hq₁]
  have hq : q = q₁ := by
    rw [← rest_stream done q hholds.incomplete, ← hreceived, hcut, rest_stream fs₁ q₁ hq₁]
  subst hq
  have hne : r ≠ [] := List.length_pos_iff.mp hr.1
  have hleave := leave_iff handles enter fails i hf henter (r := r) h.unlocked
  have hcall := tcpRecv_stream (handles i) hf.islocal enter hholds hr.2 hne fs₂
    (fun f hmem => hfs f (by simp [hmem])) q' hq' hrest l.state _ rfl
  generalize tcpRecv (handles i) enter r l.rx l.state = res at *
  cases hcall with
  | inl hdone =>
    obtain ⟨hexit, hdisp, hholds', hhandled, hidle⟩ := hdone
    have hends : res.exit ≠ .stuck := by
      rw [hexit]
      exact fun heq => (by cases heq)
    refine Or.inl ⟨fun hfails => ?_, ?_, fs₁ ++ fs₂, q', ?_, ?_, hholds'⟩
    · rw [(hleave hends).mpr hfails] at hexit
      cases hexit
    · change locked res.state = false
      by_cases hz : fs₂ = []
      · rw [hidle hz]
        exact h.unlocked
      · rw [handled_locked hf (hhandled hz), henter]
        exact h.unlocked
    · exact hstream
    · change l.dispatched ++ res.dispatched.map Dispatch.comm = _
      rw [hdispatched, hsame, hdisp, comm_dispatches, List.map_append]
  | inr hstopped =>
    have hexit : res.exit = .leave := by
      obtain ⟨_, _, _, _, _, _, -, -, -, -, -, ⟨-, hexit⟩ | ⟨e, -, hexit⟩⟩ := hstopped
      · exact hexit
      · rw [hexit] at hreturns
        cases hreturns
    have hends : res.exit ≠ .stuck := by
      rw [hexit]
      exact fun heq => (by cases heq)
    refine Or.inr ⟨(hleave hends).mp hexit, fun hcons => ?_⟩
    obtain ⟨gs₁, gs₂, f, db, off, s₁, hsplit, -, -, hdisp, hrx, -⟩ := hstopped
    obtain ⟨done', rest, hreceived', hdispatched', hbytes, -⟩ := hcons.consumed
    have hcount : fs₁.length + (gs₁.length + 1) = done'.length := by
      have hlen := congrArg List.length hdispatched'
      have hbefore := congrArg List.length (hdispatched.trans hsame)
      simp only [Log.after, List.length_append, hdisp, List.length_map,
        List.length_singleton] at hlen hbefore
      omega
    have htotal := congrArg List.length (hstream.symm.trans hreceived')
    have hleft : ((stream (f :: gs₂) ++ q').length : Int) = rest.length := by
      rw [← hbytes, Log.after, hrx]
    rw [hsplit] at htotal
    simp only [List.length_append, length_stream, List.length_cons] at htotal hleft
    omega

theorem call_consistent (handles : ι → Handler σ) (enter : σ → σ)
    (fails : ι → Databuf → Int → σ → Prop) (i : ι) (hf : Fails locked (handles i) (fails i))
    (henter : ∀ s, locked (enter s) = locked s) {r : List UInt8}
    {l : Log σ} (h : InStep locked l) (hr : IsRead r) (hframed : WellFramed (l.received ++ r))
    (hreturns : returns (tcpRecv (handles i) enter r l.rx l.state).exit = true) :
    Consistent locked (l.after r (tcpRecv (handles i) enter r l.rx l.state)) ↔
      ¬ FailsIn handles enter fails i r l := by
  rcases call_inStep hf henter h hr hframed hreturns with ⟨hno, hkept⟩ | ⟨hfails, hbroken⟩
  · exact ⟨fun _ => hno, fun _ => hkept.consistent⟩
  · exact ⟨fun hcons => absurd hcons hbroken, fun hno => absurd hfails hno⟩

/-- What no failing frame disturbs. -/
theorem calls_inStep (handles : ι → Handler σ) (enter : σ → σ)
    (fails : ι → Databuf → Int → σ → Prop) (hf : ∀ i, Fails locked (handles i) (fails i))
    (henter : ∀ s, locked (enter s) = locked s) :
    (calls handles enter locked fun i r l => ¬ FailsIn handles enter fails i r l).Keeps
      (InStep locked) where
  start l hstart := by
    obtain ⟨s, hunlocked, rfl⟩ := hstart
    exact ⟨hunlocked, [], [], rfl, rfl, holds_initial⟩
  step l l' _ h hstep := by
    rcases hstep with ⟨s, hsame, rfl⟩ | ⟨i, r, hr, hframed, hok, hreturns, rfl⟩
    · exact ⟨hsame.trans h.unlocked, h.consumed⟩
    · rcases call_inStep (hf i) henter h hr hframed hreturns with ⟨-, hkept⟩ | ⟨hfails, -⟩
      · exact hkept
      · exact absurd hfails hok

end Receiver

/-! ## The handlers that return -/

/-- `fwrite` is called on a stream, and writes less than it is given. -/
def ShortWrite (files : FileStore) (fp : Option StreamId) (f : Frame) (tail : List UInt8)
    (limit : Option Nat) : Prop :=
  ∃ files' n, fwriteData files fp f tail limit = .ok (files', n) ∧ n < f.i32 dataSize

/-- What fails for a frame of the server: `fopen` of the file, or `fwrite` of a block. -/
inductive ServerFrameFails (e : NetmtServer.Env) (f : Frame) (tail : List UInt8)
    (s : NetmtServer.Server) :
    Prop where
  | fopen {path : List UInt8} : f.u32 commonid = NETMT_GET → f.u32 subcommonid = NETMT_FILE_OPEN →
      cstrAt f tail localfile = some path → e.fopenOk = false → ServerFrameFails e f tail s
  | fwrite : f.u32 commonid = NETMT_GET → f.u32 subcommonid = NETMT_DATA →
      ShortWrite s.files s.fp f tail e.fwriteLimit → ServerFrameFails e f tail s

inductive ClientFrameFails (e : NetmtClient.Env) (f : Frame) (tail : List UInt8)
    (c : NetmtClient.Client) :
    Prop where
  | fopenRead {path : List UInt8} : f.u32 commonid = NETMT_GET → f.u32 subcommonid = NETMT_CLIENT →
      cstrAt f tail remotefile = some path → (e.fopenOk = false ∨ c.files.openRead path = none) →
      ClientFrameFails e f tail c
  | fopenWrite {path : List UInt8} : f.u32 commonid = NETMT_SEND →
      f.u32 subcommonid = NETMT_FILE_OPEN →
      cstrAt f tail remotefile = some path → e.fopenOk = false → ClientFrameFails e f tail c
  | fwrite : f.u32 commonid = NETMT_SEND → f.u32 subcommonid = NETMT_DATA →
      ShortWrite c.files c.fp f tail e.fwriteLimit → ClientFrameFails e f tail c

/-- The frame at `off` is read, and fails. -/
def FailsAt {ε σ : Type} (reads : Databuf → Int → σ → Prop)
    (fails : ε → Frame → List UInt8 → σ → Prop) (env : Nat → ε) (tick : σ → Nat) (db : Databuf)
    (off : Int) (s : σ) : Prop :=
  reads db off s ∧ fails (env (tick s)) (frameAt db off) (behind db off) s

section Server

variable {e : NetmtServer.Env} {io : NetmtServer.Hio} {f : Frame} {tail : List UInt8}
  {s s' : NetmtServer.Server}

theorem server_onGet_leave (hunlocked : s.mutex = false) (hid : f.u32 commonid = NETMT_GET) :
    (∃ s', NetmtServer.onGet e f tail s = .leave s') ↔ ServerFrameFails e f tail s := by
  constructor
  · rintro ⟨s', hleave⟩
    cases NetmtServer.onGet_iff.mp hleave with
    | notOpened hsub hpath hopen => exact .fopen hid hsub hpath hopen
    | short hsub hm hwrite hshort => exact .fwrite hid hsub ⟨_, _, hwrite, hshort⟩
  · intro hfails
    cases hfails with
    | fopen _ hsub hpath hopen => exact ⟨_, NetmtServer.GetStep.run (.notOpened hsub hpath hopen)⟩
    | fwrite _ hsub hwrite =>
      obtain ⟨files, n, hwrite, hshort⟩ := hwrite
      exact ⟨_, NetmtServer.GetStep.run (.short hsub hunlocked hwrite hshort)⟩

theorem server_switch_leave (hunlocked : s.mutex = false) :
    (∃ s', NetmtServer.switch e io f tail s = .leave s') ↔ ServerFrameFails e f tail s := by
  by_cases hget : f.u32 commonid = NETMT_GET
  · rw [← server_onGet_leave hunlocked hget, NetmtServer.switch_get hget]
  · constructor
    · rintro ⟨s', hleave⟩
      rcases NetmtServer.command_cases (f.u32 commonid) with hid | hid | hid | hid | hid | hid
      · rw [NetmtServer.switch_ping hid, NetmtServer.onPing] at hleave
        split at hleave <;> cases hleave
      · rw [NetmtServer.switch_heartbeat hid] at hleave
        simp only [NetmtServer.onHeartbeat] at hleave
        split at hleave
        · split at hleave <;> cases hleave
        · cases hleave
      · rw [NetmtServer.switch_register hid] at hleave
        cases hleave
      · exact absurd hid hget
      · rw [NetmtServer.switch_exec hid] at hleave
        cases NetmtServer.onExec_iff.mp hleave
      · rw [NetmtServer.switch_other hid] at hleave
        cases hleave
    · intro hfails
      cases hfails with
      | fopen hother => exact absurd hother hget
      | fwrite hother => exact absurd hother hget

end Server

theorem ServerFrameFails.of_same {e : NetmtServer.Env} {f : Frame} {tail : List UInt8}
    {s t : NetmtServer.Server} (h : ServerFrameFails e f tail s) (hfiles : t.files = s.files)
    (hfp : t.fp = s.fp) : ServerFrameFails e f tail t := by
  cases h with
  | fopen hid hsub hpath hopen => exact .fopen hid hsub hpath hopen
  | fwrite hid hsub hwrite => exact .fwrite hid hsub (by rwa [hfiles, hfp])

/-- The server's handler, for the files and the lock of a state. -/
theorem server_fails (env : Nat → NetmtServer.Env) (io : NetmtServer.Hio) :
    Fails NetmtServer.Server.mutex (NetmtServer.handle env io)
      (FailsAt (ServerReads (env, io)) ServerFrameFails env NetmtServer.Server.tick) where
  islocal := NetmtServer.handle_local env io
  keeps db off s db' s' h := by
    rw [NetmtServer.handle] at h
    have hsame := NetmtServer.switch_mutex (lift_next (onComm_next h).2).1
    exact hsame
  leaves db off s hunlocked := by
    let t : NetmtServer.Server := { s with tick := s.tick + 1 }
    have hfree : t.mutex = false := hunlocked
    constructor
    · rintro ⟨s', hleave⟩
      rw [NetmtServer.handle] at hleave
      obtain ⟨hreads, hbody⟩ := onComm_leave.mp hleave
      have hfails : ServerFrameFails (env s.tick) (frameAt db off) (behind db off) t :=
        (server_switch_leave hfree).mp ⟨s', hbody⟩
      exact ⟨hreads, hfails.of_same rfl rfl⟩
    · rintro ⟨hreads, hfails⟩
      have hfails' : ServerFrameFails (env s.tick) (frameAt db off) (behind db off) t :=
        hfails.of_same rfl rfl
      obtain ⟨s', hbody⟩ := (server_switch_leave hfree).mpr hfails'
      refine ⟨s', ?_⟩
      rw [NetmtServer.handle]
      exact onComm_leave.mpr ⟨hreads, hbody⟩

section Client

variable {e : NetmtClient.Env} {f : Frame} {tail : List UInt8} {c c' : NetmtClient.Client}

theorem client_onGet_leave (hid : f.u32 commonid = NETMT_GET) :
    (∃ c', NetmtClient.onGet e f tail c = .leave c') ↔ ClientFrameFails e f tail c := by
  have hsend : ¬ f.u32 commonid = NETMT_SEND := by rw [hid]; decide
  -- no stream, whether `fopen` fails or there is no such file
  have hnull : ∀ path, (if e.fopenOk then c.files.openRead path else none) = none ↔
      e.fopenOk = false ∨ c.files.openRead path = none := by
    intro path
    cases e.fopenOk <;> simp
  constructor
  · rintro ⟨c', hleave⟩
    cases NetmtClient.onGet_iff.mp hleave with
    | notOpened hsub hpath hopen => exact .fopenRead hid hsub hpath ((hnull _).mp hopen)
  · intro hfails
    cases hfails with
    | fopenRead _ hsub hpath hopen =>
      exact ⟨_, NetmtClient.GetStep.run (.notOpened hsub hpath ((hnull _).mpr hopen))⟩
    | fopenWrite hother => exact absurd hother hsend
    | fwrite hother => exact absurd hother hsend

theorem client_onSend_leave (hunlocked : c.mutex = false) (hid : f.u32 commonid = NETMT_SEND) :
    (∃ c', NetmtClient.onSend e f tail c = .leave c') ↔ ClientFrameFails e f tail c := by
  have hget : ¬ f.u32 commonid = NETMT_GET := by rw [hid]; decide
  constructor
  · rintro ⟨c', hleave⟩
    cases NetmtClient.onSend_iff.mp hleave with
    | notOpened hsub hpath hopen => exact .fopenWrite hid hsub hpath hopen
    | short hsub hm hwrite hshort => exact .fwrite hid hsub ⟨_, _, hwrite, hshort⟩
  · intro hfails
    cases hfails with
    | fopenRead hother => exact absurd hother hget
    | fopenWrite _ hsub hpath hopen =>
      exact ⟨_, NetmtClient.SendStep.run (.notOpened hsub hpath hopen)⟩
    | fwrite _ hsub hwrite =>
      obtain ⟨files, n, hwrite, hshort⟩ := hwrite
      exact ⟨_, NetmtClient.SendStep.run (.short hsub hunlocked hwrite hshort)⟩

theorem client_onExec_leave : NetmtClient.onExec e f tail c ≠ .leave c' := by
  intro h
  cases NetmtClient.onExec_iff.mp h

theorem client_switch_leave (hunlocked : c.mutex = false) :
    (∃ c', NetmtClient.switch e f tail c = .leave c') ↔ ClientFrameFails e f tail c := by
  by_cases hget : f.u32 commonid = NETMT_GET
  · rw [← client_onGet_leave hget, NetmtClient.switch_get hget]
  · by_cases hsend : f.u32 commonid = NETMT_SEND
    · rw [← client_onSend_leave hunlocked hsend, NetmtClient.switch_send hsend]
    · constructor
      · rintro ⟨c', hleave⟩
        rcases NetmtClient.command_cases (f.u32 commonid) with hid | hid | hid | hid | hid | hid
        · rw [NetmtClient.switch_heartbeat hid] at hleave
          cases NetmtClient.onHeartbeat_iff.mp hleave
        · rw [NetmtClient.switch_register hid, NetmtClient.onRegister] at hleave
          split at hleave <;> cases hleave
        · exact absurd hid hget
        · exact absurd hid hsend
        · rw [NetmtClient.switch_exec hid] at hleave
          exact absurd hleave client_onExec_leave
        · rw [NetmtClient.switch_other hid] at hleave
          cases hleave
      · intro hfails
        cases hfails with
        | fopenRead hother => exact absurd hother hget
        | fopenWrite hother => exact absurd hother hsend
        | fwrite hother => exact absurd hother hsend

end Client

theorem ClientFrameFails.of_same {e : NetmtClient.Env} {f : Frame} {tail : List UInt8}
    {c t : NetmtClient.Client} (h : ClientFrameFails e f tail c) (hfiles : t.files = c.files)
    (hfp : t.fp = c.fp) : ClientFrameFails e f tail t := by
  cases h with
  | fopenRead hid hsub hpath hopen => exact .fopenRead hid hsub hpath (by rwa [hfiles])
  | fopenWrite hid hsub hpath hopen => exact .fopenWrite hid hsub hpath hopen
  | fwrite hid hsub hwrite => exact .fwrite hid hsub (by rwa [hfiles, hfp])

theorem client_fails (env : Nat → NetmtClient.Env) : Fails NetmtClient.Client.mutex
    (NetmtClient.handle env)
      (FailsAt (ClientReads env) ClientFrameFails env NetmtClient.Client.tick) where
  islocal := NetmtClient.handle_local env
  keeps db off c db' c' h := by
    rw [NetmtClient.handle] at h
    have hsame := NetmtClient.switch_mutex (lift_next (onComm_next h).2).1
    exact hsame
  leaves db off c hunlocked := by
    let t : NetmtClient.Client := { c with tick := c.tick + 1 }
    have hfree : t.mutex = false := hunlocked
    constructor
    · rintro ⟨c', hleave⟩
      rw [NetmtClient.handle] at hleave
      obtain ⟨hreads, hbody⟩ := onComm_leave.mp hleave
      have hfails : ClientFrameFails (env c.tick) (frameAt db off) (behind db off) t :=
        (client_switch_leave hfree).mp ⟨c', hbody⟩
      exact ⟨hreads, hfails.of_same rfl rfl⟩
    · rintro ⟨hreads, hfails⟩
      have hfails' : ClientFrameFails (env c.tick) (frameAt db off) (behind db off) t :=
        hfails.of_same rfl rfl
      obtain ⟨c', hbody⟩ := (client_switch_leave hfree).mpr hfails'
      refine ⟨c', ?_⟩
      rw [NetmtClient.handle]
      exact onComm_leave.mpr ⟨hreads, hbody⟩

/-! ## Both programs -/

abbrev serverFails (i : ServerInput) : Databuf → Int → NetmtServer.Server → Prop :=
  FailsAt (ServerReads i) ServerFrameFails i.1 NetmtServer.Server.tick

abbrev clientFails (env : Nat → NetmtClient.Env) : Databuf → Int → NetmtClient.Client → Prop :=
  FailsAt (ClientReads env) ClientFrameFails env NetmtClient.Client.tick

/-- A frame that the server reaches in the call fails. -/
abbrev ServerFailsIn : ServerInput → List UInt8 → Log NetmtServer.Server → Prop :=
  FailsIn serverHandle id serverFails

abbrev ClientFailsIn : (Nat → NetmtClient.Env) → List UInt8 → Log NetmtClient.Client → Prop :=
  FailsIn NetmtClient.handle NetmtClient.enter clientFails

/-- Calls of the server's `tcp_recv`, from any connections and with any answers of
`fopen` and `fwrite`, for which `ok` holds. -/
abbrev serverCalls (ok : ServerInput → List UInt8 → Log NetmtServer.Server → Prop) :
    System (Log NetmtServer.Server) :=
  calls serverHandle id NetmtServer.Server.mutex ok

abbrev clientCalls (ok : (Nat → NetmtClient.Env) → List UInt8 → Log NetmtClient.Client → Prop) :
    System (Log NetmtClient.Client) :=
  calls NetmtClient.handle NetmtClient.enter NetmtClient.Client.mutex ok

/-- As long as no frame has failed, a receiver is consistent, and the next call leaves it
so exactly when no frame fails in it. -/
theorem consistent_iff_no_failure (r : List UInt8) :
    (∀ l, (serverCalls fun i r l => ¬ ServerFailsIn i r l).Reachable l →
      Consistent NetmtServer.Server.mutex l ∧
      ∀ (i : ServerInput) (res : Result NetmtServer.Server),
        IsRead r → WellFramed (l.received ++ r) → tcpRecv (serverHandle i) id r l.rx l.state = res →
        returns res.exit = true →
        (Consistent NetmtServer.Server.mutex (l.after r res) ↔ ¬ ServerFailsIn i r l)) ∧
    ∀ l, (clientCalls fun env r l => ¬ ClientFailsIn env r l).Reachable l →
      Consistent NetmtClient.Client.mutex l ∧
      ∀ (env : Nat → NetmtClient.Env) (res : Result NetmtClient.Client),
        IsRead r → WellFramed (l.received ++ r) →
        tcpRecv (NetmtClient.handle env) NetmtClient.enter r l.rx l.state = res →
        returns res.exit = true →
        (Consistent NetmtClient.Client.mutex (l.after r res) ↔ ¬ ClientFailsIn env r l) := by
  constructor
  · intro l hreach
    have hkept := (calls_inStep serverHandle id serverFails (fun i => server_fails i.1 i.2)
      fun _ => rfl).reachable hreach
    refine ⟨hkept.consistent, fun i res hr hframed hres hreturns => ?_⟩
    subst hres
    exact call_consistent serverHandle id serverFails i (server_fails i.1 i.2)
      (fun _ => rfl) hkept hr hframed
      hreturns
  · intro l hreach
    have hkept := (calls_inStep NetmtClient.handle NetmtClient.enter clientFails client_fails
      fun _ => rfl).reachable hreach
    refine ⟨hkept.consistent, fun env res hr hframed hres hreturns => ?_⟩
    subst hres
    exact call_consistent NetmtClient.handle NetmtClient.enter clientFails env (client_fails env)
      (fun _ => rfl) hkept hr hframed hreturns

section OneFrame

variable {σ : Type} {handle : Handler σ} {enter : σ → σ} {f : Frame}

theorem one_framed (hf : WellSized f) : WellFramed ([] ++ f.bytes) :=
  ⟨[f], [], by simpa using hf, partial_nil, by simp⟩

theorem one_read (f : Frame) : IsRead f.bytes := by
  rw [IsRead, f.length_bytes]
  exact ⟨by decide, by decide⟩

/-- A first read of one frame that is handled to its end. -/
theorem one_frame_done (hl : Local handle) (hf : WellSized f)
    (hnext : ∀ db off s, HasAt db off f.bytes → ∃ db' s', handle db off s = .next db' s') (s : σ) :
    (tcpRecv handle enter f.bytes Rx.initial s).exit = .done := by
  have hread := one_read f
  have hstream :=
    tcpRecv_stream handle hl enter holds_initial hread.2 (List.length_pos_iff.mp hread.1)
    [f] (by simpa using hf) [] partial_nil (by simp) s _ rfl
  cases hstream with
  | inl hdone => exact hdone.1
  | inr hstopped =>
    obtain ⟨-, gs₁, gs₂, g, db, off, s₁, hsplit, -, hat, hno⟩ := hstopped.early
    have hmem : g ∈ [f] := by rw [hsplit]; simp
    rw [List.mem_singleton.mp hmem] at hat
    obtain ⟨db', s', hstep⟩ := hnext db off s₁ hat
    exact absurd hstep (hno db' s')

/-- A first read of one frame that is not. -/
theorem one_frame_leave (hl : Local handle) (hf : WellSized f)
    (hleave : ∀ db off s, HasAt db off f.bytes → ∃ s', handle db off s = .leave s') (s : σ) :
    (tcpRecv handle enter f.bytes Rx.initial s).exit = .leave := by
  have hread := one_read f
  have hstream :=
    tcpRecv_stream handle hl enter holds_initial hread.2 (List.length_pos_iff.mp hread.1)
    [f] (by simpa using hf) [] partial_nil (by simp) s _ rfl
  cases hstream with
  | inl hdone =>
    obtain ⟨-, -, -, hhandled, -⟩ := hdone
    cases hhandled (by simp) with
    | cons hat hstep _ =>
      obtain ⟨s', hl'⟩ := hleave _ _ _ hat
      rw [hl'] at hstep
      cases hstep
  | inr hstopped =>
    obtain ⟨gs₁, gs₂, g, db, off, s₁, hsplit, -, hat, -, -, hend⟩ := hstopped
    have hmem : g ∈ [f] := by rw [hsplit]; simp
    rw [List.mem_singleton.mp hmem] at hat
    obtain ⟨s', hl'⟩ := hleave db off s₁ hat
    rcases hend with ⟨-, hexit⟩ | ⟨e, hfault, -⟩
    · exact hexit
    · rw [hl'] at hfault
      cases hfault

end OneFrame

theorem server_idle_next (env : Nat → NetmtServer.Env) (io : NetmtServer.Hio) (db : Databuf)
    (off : Nat) (s : NetmtServer.Server) (hat : HasAt db off idle.bytes) :
    ∃ db' s', NetmtServer.handle env io db off s = .next db' s' := by
  have hframe := NetmtServer.handle_frame env io db off idle s hat
  rw [server_idle] at hframe
  exact ⟨_, _, hframe⟩

theorem client_idle_next (env : Nat → NetmtClient.Env) (db : Databuf) (off : Nat)
    (c : NetmtClient.Client) (hat : HasAt db off idle.bytes) :
    ∃ db' c', NetmtClient.handle env db off c = .next db' c' := by
  have hframe := NetmtClient.handle_frame env db off idle c hat
  rw [client_idle] at hframe
  exact ⟨_, _, hframe⟩

/-- The globals before the first read. -/
def serverStart : Log NetmtServer.Server :=
  ⟨Rx.initial, NetmtServer.initial FileStore.empty, [], []⟩

def clientStart : Log NetmtClient.Client :=
  ⟨Rx.initial, NetmtClient.initial FileStore.empty, [], []⟩

theorem idle_consistent :
    (∃ res, tcpRecv (NetmtServer.handle NetmtServer.goodEnv ⟨1, 7⟩) id idle.bytes Rx.initial
        serverStart.state = res ∧
        Consistent NetmtServer.Server.mutex (serverStart.after idle.bytes res)) ∧
    ∃ res, tcpRecv (NetmtClient.handle NetmtClient.goodEnv) NetmtClient.enter idle.bytes Rx.initial
        clientStart.state = res ∧
        Consistent NetmtClient.Client.mutex (clientStart.after idle.bytes res) := by
  have hsized : WellSized idle := wellSized_setLen _
  obtain ⟨hserver, hclient⟩ := consistent_iff_no_failure idle.bytes
  generalize NetmtServer.goodEnv = env
  generalize NetmtClient.goodEnv = env'
  generalize (⟨1, 7⟩ : NetmtServer.Hio) = io
  constructor
  · have hexit : (tcpRecv (NetmtServer.handle env io) id idle.bytes
        serverStart.rx serverStart.state).exit = .done :=
      one_frame_done (NetmtServer.handle_local env io) hsized (server_idle_next env io) _
    have hno : ¬ ServerFailsIn (env, io) idle.bytes serverStart := fun hfails => by
      have hleave :=
        (leave_iff serverHandle id serverFails (env, io) (server_fails env io) (fun _ => rfl) rfl
        (by rw [hexit]; decide)).mpr hfails
      rw [hexit] at hleave
      cases hleave
    exact ⟨_, rfl, ((hserver serverStart (.start ⟨_, rfl, rfl⟩)).2 (env, io) _ (one_read idle)
      (one_framed hsized) rfl (by rw [hexit]; rfl)).mpr hno⟩
  · have hexit : (tcpRecv (NetmtClient.handle env') NetmtClient.enter idle.bytes clientStart.rx
        clientStart.state).exit = .done :=
      one_frame_done (NetmtClient.handle_local env') hsized (client_idle_next env') _
    have hno : ¬ ClientFailsIn env' idle.bytes clientStart := fun hfails => by
      have hleave :=
        (leave_iff NetmtClient.handle NetmtClient.enter clientFails env' (client_fails env')
        (fun _ => rfl) rfl (by rw [hexit]; decide)).mpr hfails
      rw [hexit] at hleave
      cases hleave
    exact ⟨_, rfl, ((hclient clientStart (.start ⟨_, rfl, rfl⟩)).2 env' _ (one_read idle)
      (one_framed hsized) rfl (by rw [hexit]; rfl)).mpr hno⟩

/-! ## A file that does not open -/

/-- The claim for both programs, with any answers of `fopen` and `fwrite`. -/
def FailuresConsistent : Prop :=
  (∀ l, (serverCalls fun _ _ _ => True).Reachable l → Consistent NetmtServer.Server.mutex l) ∧
    ∀ l, (clientCalls fun _ _ _ => True).Reachable l → Consistent NetmtClient.Client.mutex l

/-- The frame that opens a transfer, with an empty file name. -/
def opening : Frame :=
  setLen (((default : Frame).putU32 commonid NETMT_GET).putU32 subcommonid NETMT_FILE_OPEN)

theorem opening_path (tail : List UInt8) : cstrAt opening tail localfile ≠ none := by
  have hzeros : Region.slice localfile 1 opening.bytes = [0] := by
    rw [opening, Region.slice_put_other _ _ _ _ _ (by simp) (by simp),
      Region.slice_put_other _ _ _ _ _ (by simp) (by simp),
      Region.slice_put_other _ _ _ _ _ (by simp) (by simp), Region.default_eq, Region.slice_zero]
    rfl
  have hmem : (0 : UInt8) ∈ Region.slice localfile 1 opening.bytes := by
    rw [hzeros]
    exact List.mem_singleton_self _
  rw [cstrAt, if_pos (List.mem_append_left _ (List.mem_of_mem_take hmem))]
  exact Option.some_ne_none _

theorem opening_leave (env : Nat → NetmtServer.Env) (hnull : ∀ n, (env n).fopenOk = false)
    (io : NetmtServer.Hio) (db : Databuf) (off : Nat) (s : NetmtServer.Server)
    (hat : HasAt db off opening.bytes) : ∃ s', NetmtServer.handle env io db off s = .leave s' := by
  have hid : opening.u32 commonid = NETMT_GET := by simp [opening]
  have hsub : opening.u32 subcommonid = NETMT_FILE_OPEN := by simp [opening]
  obtain ⟨path, hpath⟩ := Option.ne_none_iff_exists'.mp (opening_path (behind db off))
  rw [NetmtServer.handle_frame env io db off opening s hat, NetmtServer.switch_get hid,
    NetmtServer.GetStep.run (.notOpened hsub hpath (hnull _))]
  exact ⟨_, rfl⟩

theorem failures_inconsistent : ¬ FailuresConsistent := by
  intro hall
  let env : Nat → NetmtServer.Env := fun _ => ⟨0, false, none, 0⟩
  let io : NetmtServer.Hio := ⟨1, 7⟩
  have hsized : WellSized opening := wellSized_setLen _
  have hexit : (tcpRecv (NetmtServer.handle env io) id opening.bytes serverStart.rx
    serverStart.state).exit =
      .leave := one_frame_leave (NetmtServer.handle_local env io) hsized
    (opening_leave env (fun _ => rfl) io) _
  have hstart : (serverCalls fun _ _ _ => True).Reachable serverStart := .start ⟨_, rfl, rfl⟩
  have hreach :=
    hstart.step (Or.inr ⟨(env, io), opening.bytes, one_read opening, one_framed hsized, trivial,
    by rw [hexit]; rfl, rfl⟩)
  have hfails :=
    (leave_iff serverHandle id serverFails (env, io) (server_fails env io) (fun _ => rfl) rfl
    (by rw [hexit]; decide)).mp hexit
  have hkept : InStep NetmtServer.Server.mutex serverStart := ⟨rfl, [], [], rfl, rfl, holds_initial⟩
  have hiff := call_consistent serverHandle id serverFails (env, io) (server_fails env io)
    (fun _ => rfl) hkept
    (one_read opening) (one_framed hsized) (by rw [hexit]; rfl)
  exact hiff.mp (hall.1 _ hreach) hfails

end NetmtFailureExits
