import Netmt.Reassembly

/-!
# What a connection can do to the others

Every handler of the server looks its entry up by the descriptor that the frame
carries, and file transfers share one stream and one byte count. A connection whose
frames carry no other client's descriptor and which leaves the transfers alone
is invisible to all others, as long as the frames of all come out of the one `databuf`
as they were sent.
-/
namespace NetmtIsolation

open NetmtCommand NetmtTcpRecv NetmtTransfer NetmtReads NetmtServer
open NetmtReassembly (framed_front framed_read)

/-- An entry as the others see it. -/
def seen (c : Hio) (conn : IoT) : Hio × Option IoT :=
  (conn.io, if conn.io = c then none else some conn)

/-- What was written to the other connections. -/
def toOthers (c : Hio) (out : List (Hio × Frame)) : List (Hio × Frame) :=
  out.filter fun p => p.1 ≠ c

@[simp] theorem toOthers_append (c : Hio) (out out' : List (Hio × Frame)) :
    toOthers c (out ++ out') = toOthers c out ++ toOthers c out' := by simp [toOthers]

/-- What a frame, received on `c`, reaches: entries and connections that its descriptor
names, and the connection itself. -/
structure Within (c : Hio) (f : Frame) (s s' : Server) : Prop where
  entries : ∃ g : IoT → IoT, s'.clients = s.clients.map g ∧ ∀ conn, (g conn).io = conn.io ∧
    (conn.io.fd ≠ f.i32 fd → conn.io ≠ c → g conn = conn)
  out : ∃ w, s'.out = s.out ++ w ∧ ∀ p ∈ w, p.1.fd = f.i32 fd ∨
    f.u32 NetmtCommand.commonid = NETMT_HEARTBEAT ∧ p.1.fd = 0

/-- What the event loop calls. A read comes with what the outside world answers for the first
frame that it completes, for the second and so on. -/
inductive Event where
  | accept : Hio → Event
  | close : Hio → Event
  | read : Hio → (Nat → Env) → List UInt8 → Event

/-- The server, with the globals of the reassembly. -/
structure Process where
  rx : Rx
  server : Server

/-- A callback that comes to its end; a `tcp_recv` that a handler ends does not. -/
def Event.step : Event → Process → Option Process
  | .accept io, w => (netmtAccept io w.server).after.map fun s => { w with server := s }
  | .close io, w => (netmtClose io w.server).after.map fun s => { w with server := s }
  | .read io answers buf, w =>
    let res := tcpRecv (fun n => answers (n - w.server.tick)) io buf w.rx w.server
    if res.exit = .done then some ⟨res.rx, res.state⟩ else none

/-- A run whose callbacks come to their ends. -/
def run (es : List Event) (w : Process) : Option Process := es.foldlM (fun w ev => ev.step w) w

def Event.bytesOn (io : Hio) : Event → List UInt8
  | .read io' _ buf => if io' = io then buf else []
  | _ => []

/-- The bytes received on a connection. -/
def bytesOn (io : Hio) (es : List Event) : List UInt8 := es.flatMap (Event.bytesOn io)

/-- What is received on each connection are frames, and no read comes in between the parts of
a frame on another connection. -/
structure Framed (es : List Event) : Prop where
  sizes : ∀ io answers buf, .read io answers buf ∈ es → 1 ≤ buf.length ∧ buf.length ≤ 8192
  frames : ∀ io, ∃ fs q, (∀ f ∈ fs, WellSized f) ∧ Partial q ∧ bytesOn io es = stream fs ++ q
  undisturbed : ∀ pre io answers buf post, es = pre ++ .read io answers buf :: post →
    ∀ io', io' ≠ io → Framing.rest 5168 (bytesOn io' pre) = []

/-- The frames that a read completes behind the events `pre`. -/
def Completes (io : Hio) (pre : List Event) (buf : List UInt8) (fs : List Frame) : Prop :=
  ∃ q, Partial q ∧ Framing.rest 5168 (bytesOn io pre) ++ buf = stream fs ++ q

/-- A frame that is received whole. -/
def Sends (es : List Event) (io : Hio) (f : Frame) : Prop :=
  ∃ pre answers buf post fs, es = pre ++ .read io answers buf :: post ∧
    Completes io pre buf fs ∧ f ∈ fs

/-- The frame carries the descriptor of no other client. -/
def Confined (c : Hio) (f : Frame) (s : Server) : Prop :=
  ∀ conn ∈ s.clients, conn.io ≠ c → conn.io.fd ≠ f.i32 fd ∧
    (f.u32 NetmtCommand.commonid = NETMT_HEARTBEAT → conn.io.fd ≠ 0)

/-- In a run from `w`, all frames on `c` are confined. -/
def ConfinedIn (c : Hio) (es : List Event) (w : Process) : Prop :=
  ∀ pre answers buf post t fs, es = pre ++ .read c answers buf :: post → run pre w = some t →
    Completes c pre buf fs → ∀ f ∈ fs, Confined c f t.server

/-- No connection for which `P` holds transfers a file to the server. -/
def NoGetFrom (P : Hio → Prop) (es : List Event) : Prop :=
  ∀ io f, Sends es io f → P io → f.u32 NetmtCommand.commonid ≠ NETMT_GET

theorem run_step {ev : Event} {w w' : Process} (h : ev.step w = some w') (es : List Event) :
    run (ev :: es) w = run es w' := by
  rw [run, List.foldlM_cons, h]
  rfl

theorem run_cons {ev : Event} {es : List Event} {w t : Process} (h : run (ev :: es) w = some t) :
    ∃ w', ev.step w = some w' ∧ run es w' = some t := by
  rw [run, List.foldlM_cons] at h
  cases hs : ev.step w with
  | none => simp [hs] at h
  | some w' =>
    rw [hs] at h
    exact ⟨w', rfl, h⟩

theorem run_snoc {pre : List Event} {ev : Event} {w₀ w w' : Process} (hrun : run pre w₀ = some w)
    (h : ev.step w = some w') : run (pre ++ [ev]) w₀ = some w' := by
  rw [run, List.foldlM_append]
  change (run pre w₀).bind (fun w => run [ev] w) = some w'
  rw [hrun, Option.bind_some, run_step h]
  rfl

theorem bytesOn_append (io : Hio) (es es' : List Event) :
    bytesOn io (es ++ es') = bytesOn io es ++ bytesOn io es' := by
  rw [bytesOn, List.flatMap_append]
  rfl

theorem bytesOn_cons (io : Hio) (ev : Event) (es : List Event) :
    bytesOn io (ev :: es) = ev.bytesOn io ++ bytesOn io es := List.flatMap_cons

theorem bytesOn_snoc (io : Hio) (pre : List Event) (ev : Event) :
    bytesOn io (pre ++ [ev]) = bytesOn io pre ++ ev.bytesOn io := by
  rw [bytesOn_append, bytesOn_cons]
  exact congrArg _ (List.append_nil _)

theorem Event.bytesOn_same (io : Hio) (answers : Nat → Env) (buf : List UInt8) :
    (Event.read io answers buf).bytesOn io = buf := if_pos rfl

theorem Event.bytesOn_other {io io' : Hio} (h : io' ≠ io) (answers : Nat → Env) (buf : List UInt8) :
    (Event.read io answers buf).bytesOn io' = [] := if_neg (Ne.symm h)

/-! ## One run -/

/-- At most one connection has a frame outstanding, and its part lies in front of `databuf`. -/
def Pending (pre : List Event) (w : Process) : Prop :=
  ∃ io, Holds w.rx (Framing.rest 5168 (bytesOn io pre)) ∧
    ∀ io', io' ≠ io → Framing.rest 5168 (bytesOn io' pre) = []

/-- The connection that is read finds its own part, or nothing. -/
theorem Pending.front {pre : List Event} {w : Process} (h : Pending pre w) {io : Hio}
    (hquiet : ∀ io', io' ≠ io → Framing.rest 5168 (bytesOn io' pre) = []) :
    Holds w.rx (Framing.rest 5168 (bytesOn io pre)) := by
  obtain ⟨o, hholds, hothers⟩ := h
  by_cases ho : o = io
  · rw [← ho]
    exact hholds
  · rw [hothers io (Ne.symm ho), ← hquiet o ho]
    exact hholds

/-- An event without bytes. -/
theorem Pending.quiet {pre : List Event} {w w' : Process} (h : Pending pre w) {ev : Event}
    (hev : ∀ io, ev.bytesOn io = []) (hrx : w'.rx = w.rx) : Pending (pre ++ [ev]) w' := by
  have hbytes : ∀ io, bytesOn io (pre ++ [ev]) = bytesOn io pre := by
    intro io
    rw [bytesOn_snoc, hev, List.append_nil]
  obtain ⟨io, hholds, hothers⟩ := h
  refine ⟨io, ?_, fun io' hio' => ?_⟩
  · rw [hbytes, hrx]
    exact hholds
  · rw [hbytes]
    exact hothers io' hio'

/-- A read that comes to its end handles the frames that it completes. -/
theorem Pending.read {pre : List Event} {w w' : Process} (h : Pending pre w) {io : Hio}
    {answers : Nat → Env} {buf : List UInt8} (hsize : 1 ≤ buf.length ∧ buf.length ≤ 8192)
    (hquiet : ∀ io', io' ≠ io → Framing.rest 5168 (bytesOn io' pre) = []) {fs : List Frame}
    {q : List UInt8} (hfs : ∀ f ∈ fs, WellSized f) (hq : Partial q)
    (he : Framing.rest 5168 (bytesOn io pre) ++ buf = stream fs ++ q)
    (hstep : (Event.read io answers buf).step w = some w') :
    Handled (handle (fun n => answers (n - w.server.tick)) io) fs w.server w'.server ∧
      Pending (pre ++ [.read io answers buf]) w' := by
  let env : Nat → Env := fun n => answers (n - w.server.tick)
  have hdone : (tcpRecv env io buf w.rx w.server).exit = .done ∧
      w' = ⟨(tcpRecv env io buf w.rx w.server).rx, (tcpRecv env io buf w.rx w.server).state⟩ := by
    simp only [Event.step] at hstep
    split at hstep
    · next hexit => exact ⟨hexit, (Option.some.inj hstep).symm⟩
    · cases hstep
  obtain ⟨hexit, rfl⟩ := hdone
  rcases tcpRecv_frames _ (handle_local env io) id (h.front hquiet) hsize.2
    (List.length_pos_iff.mp hsize.1) fs hfs q hq he w.server _ rfl with
    ⟨-, -, hrx, hhandled, hidle⟩ | ⟨hearly, -⟩
  · refine ⟨?_, io, ?_, fun io' hio' => ?_⟩
    · by_cases hz : fs = []
      · have hsame : (tcpRecv env io buf w.rx w.server).state = w.server := hidle hz
        rw [hz, hsame]
        exact .nil _
      · exact hhandled hz
    · rw [bytesOn_snoc, Event.bytesOn_same, Framing.rest_cut (by decide), he, rest_stream _ _ hq]
      exact hrx
    · rw [bytesOn_snoc, Event.bytesOn_other hio', List.append_nil]
      exact hquiet io' hio'
  · have hleft : (tcpRecv env io buf w.rx w.server).exit.early = true := hearly
    rw [hexit] at hleft
    cases hleft

/-! ## The invariant of two runs -/

/-- `SameButOn`, and the same transfer under way where that matters. -/
structure Alike (c : Hio) (transfers : Prop) (s t : Server) : Prop where
  entries : s.clients.map (seen c) = t.clients.map (seen c)
  out : toOthers c s.out = toOthers c t.out
  shared : transfers → s.files = t.files ∧ s.fp = t.fp ∧ s.fsize = t.fsize ∧ s.mutex = t.mutex

theorem Alike.symm {c : Hio} {transfers : Prop} {s t : Server} (h : Alike c transfers s t) :
    Alike c transfers t s where
  entries := h.entries.symm
  out := h.out.symm
  shared hg := by
    obtain ⟨hfiles, hfp, hfsize, hmutex⟩ := h.shared hg
    exact ⟨hfiles.symm, hfp.symm, hfsize.symm, hmutex.symm⟩

theorem Alike.trans {c : Hio} {transfers : Prop} {s t u : Server} (h : Alike c transfers s t)
    (h' : Alike c transfers t u) : Alike c transfers s u where
  entries := h.entries.trans h'.entries
  out := h.out.trans h'.out
  shared hg := by
    obtain ⟨hfiles, hfp, hfsize, hmutex⟩ := h.shared hg
    obtain ⟨hfiles', hfp', hfsize', hmutex'⟩ := h'.shared hg
    exact ⟨hfiles.trans hfiles', hfp.trans hfp', hfsize.trans hfsize', hmutex.trans hmutex'⟩

/-- A confined frame on `c` is not noticed. -/
theorem own_frame {c : Hio} {transfers : Prop} {e : Env} {f : Frame} {tail : List UInt8}
    {s s' : Server} (hs : (switch e c f tail s).Ends s') (hconf : Confined c f s)
    (hget : transfers → f.u32 NetmtCommand.commonid ≠ NETMT_GET) : Alike c transfers s s' := by
  have hchange := switch_change hs
  constructor
  · rw [hchange.clients, List.map_map]
    apply List.map_congr_left
    intro conn hconn
    rw [Function.comp_apply, seen, seen, entryAfter_io]
    by_cases hio : conn.io = c
    · rw [if_pos hio, if_pos hio]
    · rw [if_neg hio, if_neg hio, entryAfter_other (hconf conn hconn hio).1 hio]
  · have hnone : toOthers c (written e f s.fsize s.clients) = [] := by
      rw [toOthers, List.filter_eq_nil_iff]
      intro p hp hne
      obtain ⟨hmem, hfd⟩ := written_mem hp
      obtain ⟨conn, hconn, hio⟩ := List.mem_map.mp hmem
      have hne' : conn.io ≠ c := by
        rw [hio]
        exact of_decide_eq_true hne
      obtain ⟨hother, hzero⟩ := hconf conn hconn hne'
      rw [← hio] at hfd
      rcases hfd with hfd | ⟨hid, hfd⟩
      · exact hother hfd
      · exact hzero hid hfd
    rw [hchange.out, toOthers_append, hnone, List.append_nil]
  · intro hg
    obtain ⟨hfiles, hfp, hfsize, hmutex⟩ := hchange.transfer (hget hg)
    exact ⟨hfiles.symm, hfp.symm, hfsize.symm, hmutex.symm⟩

theorem map_io_of_seen {c : Hio} {l l' : List IoT} (h : l.map (seen c) = l'.map (seen c)) :
    l.map IoT.io = l'.map IoT.io := by
  have hfst := congrArg (List.map Prod.fst) h
  rwa [List.map_map, List.map_map] at hfst

theorem switch_tick {e : Env} {io : Hio} {f : Frame} {tail : List UInt8} {s s' : Server}
    (h : switch e io f tail s = .next s') : s'.tick = s.tick := by
  rcases command_cases (f.u32 NetmtCommand.commonid) with hid | hid | hid | hid | hid | hid
  · rw [switch_ping hid, onPing] at h
    split at h <;> cases h <;> rfl
  · rw [switch_heartbeat hid] at h
    simp only [onHeartbeat] at h
    split at h
    · split at h <;> cases h <;> rfl
    · cases h
      rfl
  · rw [switch_register hid] at h
    cases h
    rfl
  · rw [switch_get hid] at h
    cases onGet_iff.mp h <;> rfl
  · rw [switch_exec hid] at h
    cases onExec_iff.mp h <;> rfl
  · rw [switch_other hid] at h
    cases h
    rfl

/-- What a whole frame in `databuf` does. -/
theorem handle_switch {env : Nat → Env} {io : Hio} {db db' : Databuf} {o : Nat} {f : Frame}
    {s s' : Server} (hat : HasAt db o f.bytes) (h : handle env io db o s = .next db' s') :
    switch (env s.tick) io f (behind db o) { s with tick := s.tick + 1 } = .next s' ∧
      s'.tick = s.tick + 1 := by
  rw [handle_frame env io db o f s hat] at h
  have hswitch := (lift_next h).1
  exact ⟨hswitch, switch_tick hswitch⟩

theorem Confined.of_ios {c : Hio} {f : Frame} {s s' : Server} (h : Confined c f s)
    (hios : s'.clients.map IoT.io = s.clients.map IoT.io) : Confined c f s' := by
  intro conn hconn hne
  have hmem : conn.io ∈ s.clients.map IoT.io := hios ▸ List.mem_map_of_mem hconn
  obtain ⟨old, hold, hio⟩ := List.mem_map.mp hmem
  rw [← hio] at hne ⊢
  exact h old hold hne

/-- Confined frames on `c` are not noticed. -/
theorem own_frames {c : Hio} {transfers : Prop} {env : Nat → Env} {fs : List Frame} {s s' : Server}
    (h : Handled (handle env c) fs s s') (hconf : ∀ f ∈ fs, Confined c f s)
    (hget : transfers → ∀ f ∈ fs, f.u32 NetmtCommand.commonid ≠ NETMT_GET) :
    Alike c transfers s s' := by
  induction h with
  | nil s => exact ⟨rfl, rfl, fun _ => ⟨rfl, rfl, rfl, rfl⟩⟩
  | @cons f fs db db' off s s₁ s₂ hat hnext _ ih =>
    obtain ⟨hswitch, -⟩ := handle_switch hat hnext
    have hticked : Confined c f { s with tick := s.tick + 1 } := hconf f List.mem_cons_self
    have hone : Alike c transfers { s with tick := s.tick + 1 } s₁ :=
      own_frame (.inl hswitch) hticked
      fun hg => hget hg f List.mem_cons_self
    have hone' : Alike c transfers s s₁ := ⟨hone.entries, hone.out, hone.shared⟩
    have hios : s₁.clients.map IoT.io = s.clients.map IoT.io := (map_io_of_seen hone.entries).symm
    exact hone'.trans (ih (fun g hg => (hconf g (List.mem_cons_of_mem _ hg)).of_ios hios)
      fun hg g hmem => hget hg g (List.mem_cons_of_mem _ hmem))

/-- A run behind the events `pre`, with what it still has to do and what is asked of it. -/
structure Course (c : Hio) (w₀ : Process) (pre es : List Event) (w : Process) : Prop where
  reached : run pre w₀ = some w
  framed : Framed (pre ++ es)
  pending : Pending pre w
  confined : ConfinedIn c (pre ++ es) w₀

section Course

variable {c io : Hio} {w₀ w w' : Process} {pre es : List Event} {answers : Nat → Env}
  {buf : List UInt8}

theorem Course.next {ev : Event} (h : Course c w₀ pre (ev :: es) w) (hstep : ev.step w = some w')
    (hpending : Pending (pre ++ [ev]) w') : Course c w₀ (pre ++ [ev]) es w' where
  reached := run_snoc h.reached hstep
  framed := by
    rw [List.append_assoc, List.singleton_append]
    exact h.framed
  pending := hpending
  confined := by
    rw [List.append_assoc, List.singleton_append]
    exact h.confined

/-- What the read completes. -/
theorem Course.completes (h : Course c w₀ pre (.read io answers buf :: es) w) :
    ∃ fs q, (∀ f ∈ fs, WellSized f) ∧ Partial q ∧
      Framing.rest 5168 (bytesOn io pre) ++ buf = stream fs ++ q := by
  have hframed := h.framed.frames io
  rw [bytesOn_append, bytesOn_cons, Event.bytesOn_same, ← List.append_assoc] at hframed
  obtain ⟨fs, q, hfs, hq, -, he⟩ := framed_read _ _ (framed_front _ _ hframed)
  exact ⟨fs, q, hfs, hq, he⟩

theorem Course.read (h : Course c w₀ pre (.read io answers buf :: es) w)
    (hstep : (Event.read io answers buf).step w = some w') {fs : List Frame} {q : List UInt8}
    (hfs : ∀ f ∈ fs, WellSized f) (hq : Partial q)
    (he : Framing.rest 5168 (bytesOn io pre) ++ buf = stream fs ++ q) :
    Handled (handle (fun n => answers (n - w.server.tick)) io) fs w.server w'.server ∧
      Course c w₀ (pre ++ [.read io answers buf]) es w' := by
  obtain ⟨hhandled, hpending⟩ := h.pending.read
    (h.framed.sizes io answers buf (List.mem_append_right _ List.mem_cons_self))
    (h.framed.undisturbed pre io answers buf es rfl) hfs hq he hstep
  exact ⟨hhandled, h.next hstep hpending⟩

/-- A read on `c` itself. -/
theorem Course.own {transfers : Prop} (h : Course c w₀ pre (.read c answers buf :: es) w)
    (hstep : (Event.read c answers buf).step w = some w')
    (hget : transfers → NoGetFrom (· = c) (pre ++ .read c answers buf :: es)) :
    Alike c transfers w.server w'.server ∧ Course c w₀ (pre ++ [.read c answers buf]) es w' := by
  obtain ⟨fs, q, hfs, hq, he⟩ := h.completes
  obtain ⟨hhandled, hcourse⟩ := h.read hstep hfs hq he
  refine ⟨own_frames hhandled ?_ fun hg f hf => ?_, hcourse⟩
  · exact h.confined pre answers buf es w fs rfl h.reached ⟨q, hq, he⟩
  · exact hget hg c f ⟨pre, answers, buf, es, fs, rfl, ⟨q, hq, he⟩, hf⟩ rfl

end Course

/-- Every read is one frame. -/
def Whole (es : List Event) : Prop :=
  ∀ io answers buf, .read io answers buf ∈ es → ∃ f : Frame, WellSized f ∧ buf = f.bytes

theorem Whole.stream {es : List Event} (h : Whole es) (io : Hio) :
    ∃ fs, (∀ f ∈ fs, WellSized f) ∧ bytesOn io es = stream fs := by
  induction es with
  | nil => exact ⟨[], fun f hf => absurd hf List.not_mem_nil, rfl⟩
  | cons ev es ih =>
    obtain ⟨fs, hfs, he⟩ := ih fun io answers buf hmem =>
      h io answers buf (List.mem_cons_of_mem _ hmem)
    rw [bytesOn_cons, he]
    cases ev with
    | accept _ => exact ⟨fs, hfs, rfl⟩
    | close _ => exact ⟨fs, hfs, rfl⟩
    | read io' answers buf =>
      by_cases hio : io' = io
      · obtain ⟨f, hf, rfl⟩ := h io' answers buf List.mem_cons_self
        rw [hio, Event.bytesOn_same]
        exact ⟨f :: fs, List.forall_mem_cons.mpr ⟨hf, hfs⟩, (stream_cons f fs).symm⟩
      · rw [Event.bytesOn_other (Ne.symm hio)]
        exact ⟨fs, hfs, rfl⟩

/-- Nothing is outstanding between them. -/
theorem Whole.rest {es : List Event} (h : Whole es) (io : Hio) :
    Framing.rest 5168 (bytesOn io es) = [] := by
  obtain ⟨fs, -, he⟩ := h.stream io
  rw [he, ← List.append_nil (NetmtTcpRecv.stream fs), rest_stream _ _ partial_nil]

theorem Whole.front {pre post : List Event} (h : Whole (pre ++ post)) : Whole pre :=
  fun io answers buf hmem => h io answers buf (List.mem_append_left _ hmem)

theorem Whole.framed {es : List Event} (h : Whole es) : Framed es where
  sizes io answers buf hmem := by
    obtain ⟨f, -, rfl⟩ := h io answers buf hmem
    rw [f.length_bytes]
    decide
  frames io := by
    obtain ⟨fs, hfs, he⟩ := h.stream io
    exact ⟨fs, [], hfs, partial_nil, by rw [he, List.append_nil]⟩
  undisturbed pre io answers buf post he io' _ := by
    subst he
    exact h.front.rest io'

/-- Such a read completes its frame. -/
theorem Whole.completes {pre : List Event} (h : Whole pre) {io : Hio} {f : Frame} {fs : List Frame}
    (hc : Completes io pre f.bytes fs) : ∀ g ∈ fs, g = f := by
  obtain ⟨q, hq, he⟩ := hc
  rw [h.rest, List.nil_append] at he
  intro g hg
  have hlen := congrArg List.length he
  have hlt := hq.1
  rw [f.length_bytes, List.length_append, length_stream] at hlen
  have hone : fs.length = 1 := by omega
  obtain ⟨a, rfl⟩ := List.length_eq_one_iff.mp hone
  obtain rfl : q = [] := List.length_eq_zero_iff.mp (by omega)
  rw [stream_cons, stream_nil, List.append_nil, List.append_nil] at he
  rw [List.mem_singleton.mp hg]
  exact Region.ext he.symm

def first : Hio := ⟨1, 7⟩
def second : Hio := ⟨2, 8⟩

/-- Any record but the one that a new entry has. -/
def someRecord : Region 200 := (default : Region 200).put 0 [1]

/-- A registration that names the entry with descriptor `k`. -/
def registration (k : Int) : Frame :=
  (((setLen default).putU32 commonid NETMT_REGISTER).putI32 fd k).put netmtclient someRecord.bytes

def root : CString := slash

end NetmtIsolation
