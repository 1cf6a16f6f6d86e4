import Netmt.Client
import Netmt.Server
import Netmt.Reads

/-!
# Reassembly in the two programs

The client has one connection, so its reads are the cut of one stream. The
server has one `databuf` for all of its connections, and a run of it is a
sequence of accepts, closes and reads on any of them.
-/
namespace NetmtReassembly

open NetmtCommand NetmtTcpRecv NetmtReads

/-! ## The client -/

/-- However the stream is cut, the client handles its frames in order, each in the
call that delivers its last byte, and keeps the incomplete frame in front. -/
theorem client_reassembles (env : Nat → NetmtClient.Env) (c : NetmtClient.Client)
    (fs : List Frame) (hfs : ∀ f ∈ fs, WellSized f) (q : List UInt8) (hq : Partial q)
    (reads : List (List UInt8)) (hreads : ∀ r ∈ reads, 1 ≤ r.length ∧ r.length ≤ 8192)
    (he : reads.flatten = stream fs ++ q)
    (run : Run NetmtClient.Client)
    (hrun : recvAll (NetmtClient.handle env) NetmtClient.enter reads Rx.initial c = run)
    (hearly : ∀ call ∈ run.calls, call.exit.early = false) :
    run.calls.length = reads.length ∧
    run.calls.flatMap Call.frames = fs.map Region.bytes ∧
    (∀ k, (run.calls.take k).flatMap Call.frames =
      (fs.map Region.bytes).take ((reads.take k).flatten.length / commandSize)) ∧
    (∀ call ∈ run.calls, call.Bounded) ∧
    run.rx.bytelen = q.length ∧ run.rx.databuf.bytes.take q.length = q := by
  rcases recvAll_frames (I := fun _ _ => True) (NetmtClient.handle_local env) (fun _ _ h => h)
    (fun _ _ _ _ _ _ _ _ _ _ => trivial) reads hreads fs hfs q hq holds_initial he [] c trivial run
    hrun with ⟨hrec, -⟩ | ⟨⟨call, hmem, hleft⟩, -⟩
  · have hblocks := blocks_stream fs q hq
    have hlen : run.calls.length = reads.length := by
      have h := congrArg List.length hrec.frames
      rwa [List.length_map, Framing.length_received] at h
    have hprefix : ∀ k, (run.calls.take k).flatMap Call.frames =
        (fs.map Region.bytes).take ((reads.take k).flatten.length / commandSize) := by
      intro k
      have hcut : (reads.take k).flatten ++ (reads.drop k).flatten = reads.flatten := by
        rw [← List.flatten_append, List.take_append_drop]
      have htake : (reads.take k).flatten = (stream fs ++ q).take
          (reads.take k).flatten.length := by
        rw [← he, ← hcut, List.take_left]
      have hle := congrArg List.length hcut
      rw [List.length_append, he] at hle
      rw [List.flatMap_def, List.map_take, hrec.frames, Framing.take_received,
        Framing.flatten_received (by decide) [] (by decide), List.nil_append, htake,
        Framing.blocks_take (by decide) _ _ (by omega), hblocks, ← htake, commandSize]
    have hall := hprefix run.calls.length
    rw [List.take_length, hlen, List.take_length, he] at hall
    refine ⟨hlen, ?_, hprefix, hrec.bounded, hrec.holds.bytelen, ?_⟩
    · rw [hall]
      apply List.take_of_length_le
      rw [List.length_map, List.length_append, length_stream, commandSize]
      omega
    · exact slice_of_hasAt _ 0 q hrec.holds.front
  · rw [hearly call hmem] at hleft
    cases hleft

/-- A frame that no `case` of the `switch` takes. -/
def idleFrame : Frame := setLen default

theorem wellSized_idleFrame : WellSized idleFrame := wellSized_setLen _

theorem partial_first_byte : Partial [0x30] := by
  refine ⟨by decide, idleFrame, wellSized_idleFrame, idleFrame.bytes.drop 1, ?_⟩
  have h := header_bytes idleFrame wellSized_idleFrame
  have hone : idleFrame.bytes.take 1 = [0x30] := by
    rw [← Nat.min_eq_left (by decide : 1 ≤ 4), ← List.take_take, h]
    rfl
  rw [← hone, List.take_append_drop]

theorem client_skips_idle (env : Nat → NetmtClient.Env) (db : Databuf) (o : Nat)
    (c : NetmtClient.Client) (h : HasAt db o idleFrame.bytes) :
    ∃ db' c', NetmtClient.handle env db o c = .next db' c' := by
  have hid : idleFrame.u32 commonid = 0 := by simp [idleFrame]
  rw [NetmtClient.handle_frame env db o idleFrame c h, NetmtClient.switch, hid]
  exact ⟨_, _, rfl⟩

/-- A header of which three bytes arrive first, and another of which one byte is
left at the end. -/
theorem client_reassembles_split_header :
    ∃ run, recvAll (NetmtClient.handle NetmtClient.goodEnv) NetmtClient.enter
        [idleFrame.bytes.take 3, idleFrame.bytes.drop 3 ++ [0x30]] Rx.initial
        (NetmtClient.initial FileStore.empty) = run ∧
      run.calls.flatMap Call.frames = [idleFrame.bytes] ∧ run.rx.bytelen = 1 := by
  have hws : ∀ f ∈ [idleFrame], WellSized f := by
    intro f hf
    rw [List.mem_singleton.mp hf]
    exact wellSized_idleFrame
  have hlen := idleFrame.length_bytes
  have he : idleFrame.bytes.take 3 ++ (idleFrame.bytes.drop 3 ++ [0x30]) =
      stream [idleFrame] ++ [0x30] := by
    rw [← List.append_assoc, List.take_append_drop, stream_cons, stream_nil, List.append_nil]
  have h₁ : (idleFrame.bytes.take 3).length = 3 := by rw [List.length_take, hlen]; rfl
  have h₂ : (idleFrame.bytes.drop 3 ++ [0x30]).length = 5166 := by
    rw [List.length_append, List.length_drop, hlen]; rfl
  generalize idleFrame.bytes.take 3 = r₁ at he h₁ ⊢
  generalize idleFrame.bytes.drop 3 ++ [0x30] = r₂ at he h₂ ⊢
  have he' : [r₁, r₂].flatten = stream [idleFrame] ++ [0x30] := by
    rw [← he, List.flatten_cons, List.flatten_cons, List.flatten_nil, List.append_nil]
  have hreads : ∀ r ∈ [r₁, r₂], 1 ≤ r.length ∧ r.length ≤ 8192 := by
    intro r hr
    cases List.mem_cons.mp hr with
    | inl hr =>
      rw [hr]; omega
    | inr hr =>
      rw [List.mem_singleton.mp hr]; omega
  generalize NetmtClient.goodEnv = env
  generalize NetmtClient.initial FileStore.empty = c
  generalize hrun : recvAll (NetmtClient.handle env) NetmtClient.enter [r₁, r₂] Rx.initial c = run
  have hstep : ∀ d f todo db off s, [idleFrame] = d ++ f :: todo → True → HasAt db off f.bytes →
      ∃ db' s', NetmtClient.handle env db off s = .next db' s' ∧ True := by
    intro d f todo db off s hsplit _ hat
    have hmem : f ∈ [idleFrame] := by rw [hsplit]; simp
    rw [List.mem_singleton.mp hmem] at hat
    obtain ⟨db', c', hn⟩ := client_skips_idle env db off s hat
    exact ⟨db', c', hn, trivial⟩
  have hcomplete := recvAll_complete (I := fun _ _ => True) (NetmtClient.handle_local env)
    (fun _ _ h => h) [r₁, r₂] hreads
    [idleFrame] hws hstep [0x30] partial_first_byte holds_initial he' c trivial run hrun
  have hearly : ∀ call ∈ run.calls, call.exit.early = false := by
    intro call hcall
    exact congrArg Exit.early (hcomplete.1.done call hcall)
  obtain ⟨-, hframes, -, -, hrest, -⟩ := client_reassembles env c [idleFrame] hws [0x30]
    partial_first_byte [r₁, r₂] hreads he' run hrun hearly
  exact ⟨run, rfl, hframes, hrest⟩

/-! ## The server -/

/-- The callbacks that the event loop makes. -/
inductive Event where
  | accept : NetmtServer.Hio → Event
  | close : NetmtServer.Hio → Event
  | read : NetmtServer.Hio → List UInt8 → Event

/-- One `tcp_recv` of the server; `sources` names, for each frame dispatched, the
connection that each of its bytes came from. -/
structure ServerCall where
  conn : Nat
  call : Call
  sources : List (List Nat)

/-- The server process, with the connection that each byte in front of `databuf`
came from. -/
structure Process where
  rx : Rx
  server : NetmtServer.Server
  owners : List Nat
  calls : List ServerCall

def Process.initial (files : FileStore) : Process :=
  ⟨Rx.initial, NetmtServer.initial files, [], []⟩

/-- A `tcp_recv` that came to its end, or left early. -/
def recvCall (env : Nat → NetmtServer.Env) (io : NetmtServer.Hio) (buf : List UInt8)
    (w : Process) : Process :=
  let res := NetmtServer.tcpRecv env io buf w.rx w.server
  let owners := w.owners ++ List.replicate buf.length io.conn
  { rx := res.rx
    server := res.state
    -- a `return` from inside the `switch` leaves the bytes where they are
    owners := if res.exit = .done then owners.drop (owners.length - res.rx.bytelen.toNat)
      else owners.take res.rx.bytelen.toNat
    calls := w.calls ++ [⟨io.conn, callOf res,
      res.dispatched.map fun d => (owners.drop d.off.toNat).take commandSize⟩] }

theorem recvCall_rx (env : Nat → NetmtServer.Env) (io : NetmtServer.Hio) (buf : List UInt8)
    (w : Process) :
    (recvCall env io buf w).rx = (NetmtServer.tcpRecv env io buf w.rx w.server).rx := rfl

theorem recvCall_calls (env : Nat → NetmtServer.Env) (io : NetmtServer.Hio) (buf : List UInt8)
    (w : Process) : ∃ src, (recvCall env io buf w).calls =
      w.calls ++ [⟨io.conn, callOf (NetmtServer.tcpRecv env io buf w.rx w.server), src⟩] := ⟨_, rfl⟩

/-- One callback; `false` when the process does not come back from it. -/
def step (env : Nat → NetmtServer.Env) : Event → Process → Process × Bool
  | .accept io, w =>
    match NetmtServer.netmtAccept io w.server with
    | .next s => ({ w with server := s }, true)
    | _ => (w, false)
  | .close io, w =>
    match NetmtServer.netmtClose io w.server with
    | .next s => ({ w with server := s }, true)
    | _ => (w, false)
  | .read io buf, w =>
    (recvCall env io buf w, returns (NetmtServer.tcpRecv env io buf w.rx w.server).exit)

def serve (env : Nat → NetmtServer.Env) : List Event → Process → Process
  | [], w => w
  | ev :: evs, w =>
    let r := step env ev w
    if r.2 then serve env evs r.1 else r.1

/-- The bytes received on a connection. -/
def bytesOn (c : Nat) (evs : List Event) : List UInt8 :=
  evs.flatMap fun
    | .read io buf => if io.conn = c then buf else []
    | _ => []

/-- What the calls for a connection dispatched. -/
def framesOn (c : Nat) (calls : List ServerCall) : List (List UInt8) :=
  (calls.filter fun sc => sc.conn = c).flatMap fun sc => sc.call.frames

/-- Every connection has its complete frames dispatched, in order, each made of
its own bytes. -/
def Reassembled (evs : List Event) (w : Process) : Prop :=
  ∀ c, framesOn c w.calls = Framing.blocks commandSize (bytesOn c evs) ∧
    ∀ sc ∈ w.calls, sc.conn = c → ∀ src ∈ sc.sources, src = List.replicate commandSize c

/-- The bytes on each connection are whole frames and the front part of one. -/
def FramedEvents (evs : List Event) : Prop :=
  ∀ c, ∃ fs q, (∀ f ∈ fs, WellSized f) ∧ Partial q ∧ bytesOn c evs = stream fs ++ q

def ReadSizes (evs : List Event) : Prop :=
  ∀ io buf, Event.read io buf ∈ evs → 1 ≤ buf.length ∧ buf.length ≤ 8192

/-- What the event loop guarantees: `used` connections do not come back, open ones
have different descriptors, and only open ones are read and closed. -/
def Orderly : List NetmtServer.Hio → List Nat → List Event → Prop
  | _, _, [] => True
  | opened, used, .accept io :: evs => io.conn ∉ used ∧ (∀ o ∈ opened, o.fd ≠ io.fd) ∧
      Orderly (io :: opened) (io.conn :: used) evs
  | opened, used, .close io :: evs => io ∈ opened ∧ Orderly (opened.erase io) used evs
  | opened, used, .read io _ :: evs => io ∈ opened ∧ Orderly opened used evs

/-- No connection is read while another, open or closed, has an incomplete frame
outstanding. -/
def Undisturbed (evs : List Event) : Prop :=
  ∀ pre io buf post, evs = pre ++ .read io buf :: post →
    ∀ c, c ≠ io.conn → Framing.rest commandSize (bytesOn c pre) = []

@[simp] theorem bytesOn_append (c : Nat) (evs evs' : List Event) :
    bytesOn c (evs ++ evs') = bytesOn c evs ++ bytesOn c evs' := by simp [bytesOn]

theorem bytesOn_read (c : Nat) (io : NetmtServer.Hio) (buf : List UInt8) :
    bytesOn c [.read io buf] = if io.conn = c then buf else [] := by simp [bytesOn]

@[simp] theorem framesOn_append (c : Nat) (calls calls' : List ServerCall) :
    framesOn c (calls ++ calls') = framesOn c calls ++ framesOn c calls' := by simp [framesOn]

/-- At any point of a framed stream: what was received is framed, too. -/
theorem framed_front (u v : List UInt8)
    (h : ∃ fs q, (∀ f ∈ fs, WellSized f) ∧ Partial q ∧ u ++ v = stream fs ++ q) :
    ∃ fs q, (∀ f ∈ fs, WellSized f) ∧ Partial q ∧ u = stream fs ++ q := by
  obtain ⟨fs, q, hfs, hq, he⟩ := h
  obtain ⟨fs₁, fs₂, q₁, rfl, hq₁, hu, -⟩ := stream_cut fs hfs q hq u v he
  exact ⟨fs₁, q₁, fun f hf => hfs f (by simp [hf]), hq₁, hu⟩

/-- What the next read of a framed stream completes. -/
theorem framed_read (u r : List UInt8)
    (h : ∃ fs q, (∀ f ∈ fs, WellSized f) ∧ Partial q ∧ u ++ r = stream fs ++ q) :
    ∃ fs q, (∀ f ∈ fs, WellSized f) ∧ Partial q ∧ Partial (Framing.rest 5168 u) ∧
      Framing.rest 5168 u ++ r = stream fs ++ q := by
  obtain ⟨fs, q, hfs, hq, he⟩ := h
  obtain ⟨fs₁, fs₂, q₁, rfl, hq₁, hu, hr⟩ := stream_cut fs hfs q hq u r he
  refine ⟨fs₂, q, fun f hf => hfs f (by simp [hf]), hq, ?_, ?_⟩
  · rw [hu, rest_stream _ _ hq₁]
    exact hq₁
  · rw [hu, rest_stream _ _ hq₁, hr]

/-- Between two callbacks: at most one connection has an incomplete frame, and
that is what lies in front of `databuf`. -/
structure Between (evs : List Event) (w : Process) : Prop where
  reassembled : Reassembled evs w
  unlocked : w.server.mutex = false
  pending : ∃ c, Holds w.rx (Framing.rest 5168 (bytesOn c evs)) ∧
    w.owners = List.replicate (Framing.rest 5168 (bytesOn c evs)).length c ∧
    ∀ c', c' ≠ c → Framing.rest 5168 (bytesOn c' evs) = []

theorem between_initial (files : FileStore) : Between [] (Process.initial files) := by
  have hrest : Framing.rest 5168 ([] : List UInt8) = [] := Framing.rest_short (by decide)
  have hblocks : Framing.blocks 5168 ([] : List UInt8) = [] := Framing.blocks_short (by decide)
  refine ⟨fun c => ⟨hblocks.symm, fun sc hsc => by cases hsc⟩, rfl, 0, ?_, ?_, ?_⟩
  · change Holds _ (Framing.rest 5168 [])
    rw [hrest]
    exact holds_initial
  · change [] = List.replicate (Framing.rest 5168 ([] : List UInt8)).length 0
    rw [hrest]
    rfl
  · intro c _
    exact hrest

/-- An event without bytes. -/
theorem Between.quiet {evs : List Event} {w : Process} (h : Between evs w) (ev : Event)
    (hev : ∀ c, bytesOn c [ev] = []) (s : NetmtServer.Server) (hs : s.mutex = false) :
    Between (evs ++ [ev]) { w with server := s } := by
  have hbytes : ∀ c, bytesOn c (evs ++ [ev]) = bytesOn c evs := by
    intro c
    rw [bytesOn_append, hev, List.append_nil]
  obtain ⟨c, hholds, howners, hothers⟩ := h.pending
  refine ⟨fun c => ?_, hs, c, ?_, ?_, ?_⟩
  · rw [hbytes]
    exact h.reassembled c
  · rw [hbytes]
    exact hholds
  · rw [hbytes]
    exact howners
  · intro c' hc'
    rw [hbytes]
    exact hothers c' hc'

/-- Offsets of the frames of one call: all their bytes are the connection's. -/
theorem sources_dispatches (c k o n : Nat) (fs : List Frame) (hn : o + 5168 * fs.length ≤ n)
    (d : Dispatch) (hd : d ∈ dispatches k o fs) :
    ((List.replicate n c).drop d.off.toNat).take commandSize = List.replicate commandSize c := by
  induction fs generalizing o with
  | nil => cases hd
  | cons f fs ih =>
    rw [List.length_cons] at hn
    rcases List.mem_cons.mp hd with rfl | hd
    · simp only [Int.toNat_natCast, List.drop_replicate, List.take_replicate, commandSize]
      congr 1
      omega
    · exact ih (o + 5168) (by omega) hd

/-- A call of one connection that dispatches the frames its read completes, each from its
own bytes. -/
theorem Reassembled.call {evs : List Event} {w w' : Process} (h : Reassembled evs w)
    {io : NetmtServer.Hio} {buf : List UInt8} {sc : ServerCall}
    (hcalls : w'.calls = w.calls ++ [sc]) (hconn : sc.conn = io.conn)
    (hframes : Framing.blocks commandSize (bytesOn io.conn evs ++ buf) =
      Framing.blocks commandSize (bytesOn io.conn evs) ++ sc.call.frames)
    (hsources : ∀ src ∈ sc.sources, src = List.replicate commandSize io.conn) :
    Reassembled (evs ++ [.read io buf]) w' := by
  intro c
  obtain ⟨hfr, hsrc⟩ := h c
  rw [hcalls, framesOn_append, bytesOn_append, bytesOn_read, hfr]
  by_cases hc : io.conn = c
  · subst hc
    constructor
    · have hnew : framesOn io.conn [sc] = sc.call.frames := by simp [framesOn, hconn]
      rw [hnew, if_pos rfl, hframes]
    · intro sc' hsc' hconn' src hmem
      rcases List.mem_append.mp hsc' with hold | hnew
      · exact hsrc sc' hold hconn' src hmem
      · rw [List.mem_singleton] at hnew
        subst hnew
        exact hsources src hmem
  · constructor
    · have hnew : framesOn c [sc] = [] := by simp [framesOn, hconn, hc]
      rw [hnew, if_neg hc, List.append_nil, List.append_nil]
    · intro sc' hsc' hconn' src hmem
      rcases List.mem_append.mp hsc' with hold | hnew
      · exact hsrc sc' hold hconn' src hmem
      · rw [List.mem_singleton] at hnew
        subst hnew
        exact absurd (hconn.symm.trans hconn') hc

/-- A read, while no other connection has an incomplete frame outstanding. -/
theorem Between.read {env : Nat → NetmtServer.Env} {evs : List Event} {w : Process}
    (h : Between evs w) (io : NetmtServer.Hio) (buf : List UInt8)
    (hsize : 1 ≤ buf.length ∧ buf.length ≤ 8192)
    (hframed : ∃ fs q, (∀ f ∈ fs, WellSized f) ∧ Partial q ∧
      bytesOn io.conn evs ++ buf = stream fs ++ q)
    (hquiet : ∀ c, c ≠ io.conn → Framing.rest 5168 (bytesOn c evs) = [])
    (hearly : (NetmtServer.tcpRecv env io buf w.rx w.server).exit.early = false) :
    (NetmtServer.tcpRecv env io buf w.rx w.server).exit = .done ∧
      Between (evs ++ [.read io buf]) (recvCall env io buf w) := by
  obtain ⟨fs, q, hfs, hq, hp, he⟩ := framed_read _ _ hframed
  obtain ⟨c, hholds, howners, hothers⟩ := h.pending
  have hfront : Holds w.rx (Framing.rest 5168 (bytesOn io.conn evs)) ∧
      w.owners = List.replicate (Framing.rest 5168 (bytesOn io.conn evs)).length io.conn := by
    by_cases hc : c = io.conn
    · subst hc
      exact ⟨hholds, howners⟩
    · have hmine := hothers io.conn (Ne.symm hc)
      rw [hquiet c hc] at hholds howners
      rw [hmine]
      exact ⟨hholds, howners⟩
  generalize hp' : Framing.rest 5168 (bytesOn io.conn evs) = p at *
  generalize hres : NetmtServer.tcpRecv env io buf w.rx w.server = res at *
  rcases tcpRecv_frames _ (NetmtServer.handle_local env io) id hfront.1 hsize.2
    (List.length_pos_iff.mp hsize.1) fs hfs q hq he w.server res hres with
    ⟨hdone, hd, hrx, hhandled, hidle⟩ | ⟨hleft, -⟩
  · refine ⟨hdone, ?_⟩
    have hlen : p.length + buf.length = 5168 * fs.length + q.length := by
      have hl := congrArg List.length he
      rwa [List.length_append, List.length_append, length_stream] at hl
    have hown : w.owners ++ List.replicate buf.length io.conn =
        List.replicate (5168 * fs.length + q.length) io.conn := by
      rw [hfront.2, List.replicate_append_replicate, hlen]
    have hbytes : bytesOn io.conn (evs ++ [.read io buf]) = bytesOn io.conn evs ++ buf := by
      rw [bytesOn_append, bytesOn_read, if_pos rfl]
    have hbytes' : ∀ c, c ≠ io.conn → bytesOn c (evs ++ [.read io buf]) = bytesOn c evs := by
      intro c hc
      rw [bytesOn_append, bytesOn_read, if_neg (Ne.symm hc), List.append_nil]
    have hrest : Framing.rest 5168 (bytesOn io.conn evs ++ buf) = q := by
      rw [Framing.rest_cut (by decide), hp', he, rest_stream _ _ hq]
    have hcalls : (recvCall env io buf w).calls = w.calls ++ [⟨io.conn, callOf res,
        res.dispatched.map fun d => ((List.replicate (5168 * fs.length + q.length) io.conn).drop
          d.off.toNat).take commandSize⟩] := by
      simp only [recvCall, hres, hown]
    have hframes := callOf_frames hd
    constructor
    · refine h.reassembled.call hcalls rfl ?_ fun src hmem => ?_
      · rw [hframes, commandSize, Framing.blocks_cut (by decide), hp', he, blocks_stream _ _ hq]
      · obtain ⟨d, hdm, rfl⟩ := List.mem_map.mp hmem
        rw [hd] at hdm
        exact sources_dispatches _ _ 0 _ fs (by omega) d hdm
    · change (NetmtServer.tcpRecv env io buf w.rx w.server).state.mutex = false
      rw [hres]
      by_cases hz : fs = []
      · rw [hidle hz]
        exact h.unlocked
      · exact handled_invariant (I := fun _ s => s.mutex = false)
          (fun _ f db db' off s s' hI hat hn => by rw [NetmtServer.handle_mutex hat hn]; exact hI)
          (hhandled hz) [] h.unlocked
    · refine ⟨io.conn, ?_, ?_, ?_⟩
      · rw [hbytes, hrest]
        change Holds (NetmtServer.tcpRecv env io buf w.rx w.server).rx q
        rw [hres]
        exact hrx
      · rw [hbytes, hrest]
        simp only [recvCall, hres, hdone, if_true, hown, hrx.bytelen, Int.toNat_natCast,
          List.length_replicate, List.drop_replicate]
        congr 1
        omega
      · intro c hc
        rw [hbytes' c hc]
        exact hquiet c hc
  · rw [hearly] at hleft
    cases hleft

/-- A frame that arrives whole, with nothing in front of it. -/
theorem step_frame (env : Nat → NetmtServer.Env) (io : NetmtServer.Hio) {w : Process}
    (hrx : Holds w.rx []) {f : Frame} (hf : WellSized f) {s' : NetmtServer.Server}
    (hn : NetmtServer.next env io w.server f = some s') :
    (step env (.read io f.bytes) w).2 = true ∧ (step env (.read io f.bytes) w).1.server = s' ∧
      Holds (step env (.read io f.bytes) w).1.rx [] := by
  have hspec := NetmtServer.tcpRecv_next env io hrx hf hn _ rfl
  simp only [step, recvCall]
  generalize NetmtServer.tcpRecv env io f.bytes w.rx w.server = res at hspec
  obtain ⟨hdone, hstate, hholds⟩ := hspec
  refine ⟨?_, hstate, hholds⟩
  rw [hdone]
  rfl

theorem serve_accept (env : Nat → NetmtServer.Env) (io : NetmtServer.Hio) (evs : List Event)
    (w : Process) (h : w.server.mutex = false) :
    serve env (.accept io :: evs) w = serve env evs { w with server :=
      { w.server with clients := ⟨io, default, [], DATABUF, 0, 0⟩ :: w.server.clients } } := by
  simp only [serve, step, NetmtServer.netmtAccept_eq io w.server h, if_true]

theorem serve_read (env : Nat → NetmtServer.Env) (io : NetmtServer.Hio) (buf : List UInt8)
    (evs : List Event) (w : Process)
    (h : (NetmtServer.tcpRecv env io buf w.rx w.server).exit = .done) :
    serve env (.read io buf :: evs) w = serve env evs (recvCall env io buf w) := by
  simp only [serve, step, h, returns, if_true]

theorem calls_step (env : Nat → NetmtServer.Env) (ev : Event) (w : Process) :
    w.calls <+: (step env ev w).1.calls := by
  cases ev with
  | accept io =>
    simp only [step]
    split <;> exact List.prefix_refl _
  | close io =>
    simp only [step]
    split <;> exact List.prefix_refl _
  | read io buf => exact List.prefix_append _ _

theorem calls_serve (env : Nat → NetmtServer.Env) (evs : List Event) (w : Process) :
    w.calls <+: (serve env evs w).calls := by
  induction evs generalizing w with
  | nil => exact List.prefix_refl _
  | cons ev evs ih =>
    simp only [serve]
    split
    · exact (calls_step env ev w).trans (ih _)
    · exact calls_step env ev w

/-- One callback of an undisturbed run. -/
theorem step_between {env : Nat → NetmtServer.Env} {pre : List Event} {w : Process}
    (h : Between pre w) (ev : Event) (post : List Event)
    (hsize : ReadSizes (pre ++ ev :: post)) (hframed : FramedEvents (pre ++ ev :: post))
    (hquiet : Undisturbed (pre ++ ev :: post))
    (hearly : ∀ sc ∈ (step env ev w).1.calls, sc.call.exit.early = false) :
    (step env ev w).2 = true ∧ Between (pre ++ [ev]) (step env ev w).1 := by
  cases ev with
  | accept io =>
    simp only [step, NetmtServer.netmtAccept_eq io w.server h.unlocked]
    exact ⟨trivial, h.quiet _ (fun _ => rfl) _ h.unlocked⟩
  | close io =>
    simp only [step, NetmtServer.netmtClose_eq io w.server h.unlocked]
    exact ⟨trivial, h.quiet _ (fun _ => rfl) _ h.unlocked⟩
  | read io buf =>
    have hf := hframed io.conn
    have hsplit : bytesOn io.conn (pre ++ .read io buf :: post) =
        (bytesOn io.conn pre ++ buf) ++ bytesOn io.conn post := by
      rw [← List.singleton_append, bytesOn_append, bytesOn_append, bytesOn_read, if_pos rfl,
        List.append_assoc]
    rw [hsplit] at hf
    have hmine := hearly ⟨io.conn, callOf (NetmtServer.tcpRecv env io buf w.rx w.server), _⟩
      (List.mem_append_right _ (List.mem_singleton_self _))
    obtain ⟨hdone, hb⟩ := h.read io buf (hsize io buf (by simp)) (framed_front _ _ hf)
      (hquiet pre io buf post rfl) hmine
    refine ⟨?_, hb⟩
    change returns (NetmtServer.tcpRecv env io buf w.rx w.server).exit = true
    rw [hdone]
    rfl

/-- Every run of the server is reassembled, without the last of the conditions above. -/
def ReassemblesAlways : Prop :=
  ∀ (env : Nat → NetmtServer.Env) (files : FileStore) (evs : List Event), Orderly [] [] evs →
    ReadSizes evs → FramedEvents evs →
    (∀ sc ∈ (serve env evs (Process.initial files)).calls, sc.call.exit.early = false) →
    Reassembled evs (serve env evs (Process.initial files))

theorem server_skips_idle (env : Nat → NetmtServer.Env) (io : NetmtServer.Hio) (db : Databuf)
    (o : Nat) (s : NetmtServer.Server) (h : HasAt db o idleFrame.bytes) :
    ∃ db' s', NetmtServer.handle env io db o s = .next db' s' := by
  have hid : idleFrame.u32 commonid = 0 := by simp [idleFrame]
  rw [NetmtServer.handle_frame env io db o idleFrame s h, NetmtServer.switch, hid]
  exact ⟨_, _, rfl⟩

theorem recv_idle (env : Nat → NetmtServer.Env) (io : NetmtServer.Hio) {rx : Rx} {p r : List UInt8}
    (h : Holds rx p) (hr : 1 ≤ r.length ∧ r.length ≤ 8192) (fs : List Frame)
    (hfs : ∀ f ∈ fs, f = idleFrame) (q : List UInt8) (hq : Partial q)
    (he : p ++ r = stream fs ++ q) (s : NetmtServer.Server) :
    (NetmtServer.tcpRecv env io r rx s).exit = .done ∧
      Holds (NetmtServer.tcpRecv env io r rx s).rx q := by
  generalize hres : NetmtServer.tcpRecv env io r rx s = res
  rcases tcpRecv_frames _ (NetmtServer.handle_local env io) id h hr.2
    (List.length_pos_iff.mp hr.1) fs
    (fun f hf => hfs f hf ▸ wellSized_idleFrame) q hq he s res hres with
    ⟨hdone, -, hrx, -⟩ | ⟨-, fs₁, fs₂, f, db, off, s₁, hsplit, -, hat, hn⟩
  · exact ⟨hdone, hrx⟩
  · rw [hfs f (by rw [hsplit]; simp)] at hat
    obtain ⟨db', s', hnext⟩ := server_skips_idle env io db off s₁ hat
    exact absurd hnext (hn db' s')

/-- The length field read when a whole frame is appended to the first byte of
another: it is made of bytes of both. -/
theorem append_mixed {rx : Rx} (h : Holds rx [0x30]) :
    ∃ db, append idleFrame.bytes rx = some ⟨db, 5169⟩ ∧ db.loadI32 0 = some 1323056 := by
  have hstore :=
    Region.store_eq rx.databuf 1 idleFrame.bytes (by rw [idleFrame.length_bytes]; omega)
  have hlen : rx.bytelen = 1 := h.bytelen
  have hat := hasAt_store hstore
  have hfirst := (h.front.store_behind hstore (le_refl _)) 0 (by decide)
  have hsum : append idleFrame.bytes rx =
      some ⟨⟨Region.patch 1 idleFrame.bytes rx.databuf.bytes, by simp⟩, 5169⟩ := by
    have hs : rx.databuf.store 1 idleFrame.bytes =
        some ⟨Region.patch 1 idleFrame.bytes rx.databuf.bytes, by simp⟩ := hstore
    rw [append, if_neg (by rw [hlen]; decide), hlen, hs, idleFrame.length_bytes]
    rfl
  refine ⟨_, hsum, ?_⟩
  generalize (⟨Region.patch 1 idleFrame.bytes rx.databuf.bytes, by simp⟩ : Databuf) =
    db at hat hfirst
  have hget : ∀ i b, i < 4 → [0x30, 0x14, 0, 0][i]? = some b → db.bytes[0 + (1 + i)]? = some b := by
    intro i b hi hb
    rw [Nat.zero_add, hat i (by rw [idleFrame.length_bytes]; omega),
      header_byte idleFrame wellSized_idleFrame i hi, hb]
  have hload := loadI32_of_bytes db 0 0x30 0x30 0x14 0 hfirst (hget 0 _ (by decide) rfl)
    (hget 1 _ (by decide) rfl) (hget 2 _ (by decide) rfl)
  have hvalue : Region.i32OfBytes [0x30, 0x30, 0x14, 0] = 1323056 := by decide
  rw [hvalue] at hload
  exact hload

/-- One byte of a frame on the first connection, then a whole frame on the second. -/
def mixedEvents : List Event :=
  [.accept ⟨1, 7⟩, .accept ⟨2, 8⟩, .read ⟨1, 7⟩ [0x30], .read ⟨2, 8⟩ idleFrame.bytes]

/-- Nothing is dispatched for the second connection. -/
theorem mixed_reads (env : Nat → NetmtServer.Env) (w : Process) (hrx : w.rx = Rx.initial)
    (hc : w.calls = []) :
    ∃ call₁ call₂ src₁ src₂,
    (serve env [.read ⟨1, 7⟩ [0x30], .read ⟨2, 8⟩ idleFrame.bytes] w).calls =
      [⟨1, call₁, src₁⟩, ⟨2, call₂, src₂⟩] ∧ call₁.exit = .done ∧ call₂.exit = .done ∧
      call₂.dispatched = [] := by
  have hinit : Holds w.rx [] := hrx ▸ holds_initial
  obtain ⟨hdone, hone⟩ := recv_idle env ⟨1, 7⟩ hinit (r := [0x30]) (by decide) []
    (fun f hf => by cases hf) [0x30] partial_first_byte rfl w.server
  rw [serve_read _ _ _ _ _ hdone]
  generalize hw' : recvCall env ⟨1, 7⟩ [0x30] w = w'
  have hrx' : w'.rx = (NetmtServer.tcpRecv env ⟨1, 7⟩ [0x30] w.rx w.server).rx := by
    rw [← hw', recvCall_rx]
  obtain ⟨src, hcalls⟩ := recvCall_calls env ⟨1, 7⟩ [0x30] w
  rw [hw', hc, List.nil_append] at hcalls
  rw [← hrx'] at hone
  obtain ⟨db, happ, hload⟩ := append_mixed hone
  have hwaits : NetmtServer.tcpRecv env ⟨2, 8⟩ idleFrame.bytes w'.rx w'.server =
      ⟨⟨db, 5169⟩, w'.server, [], .done⟩ :=
        tcpRecv_waits happ hload (show (5169 : Int) < 1323056 by decide)
  rw [serve_read _ _ _ _ _ (by rw [hwaits])]
  obtain ⟨src', hcalls'⟩ := recvCall_calls env ⟨2, 8⟩ idleFrame.bytes w'
  rw [hwaits, hcalls] at hcalls'
  exact ⟨_, ⟨[], .done, 5169⟩, src, src', hcalls', hdone, rfl, rfl⟩

theorem mixedEvents_calls (env : Nat → NetmtServer.Env) :
    ∃ call₁ call₂ src₁ src₂, (serve env mixedEvents (Process.initial FileStore.empty)).calls =
      [⟨1, call₁, src₁⟩, ⟨2, call₂, src₂⟩] ∧ call₁.exit = .done ∧ call₂.exit = .done ∧
      call₂.dispatched = [] := by
  rw [mixedEvents, serve_accept _ _ _ _ rfl, serve_accept _ _ _ _ rfl]
  exact mixed_reads env _ rfl rfl

theorem bytesOn_mixedEvents (c : Nat) :
    bytesOn c mixedEvents = if c = 1 then [0x30] else if c = 2 then idleFrame.bytes else [] := by
  rcases eq_or_ne c 1 with rfl | h₁
  · simp [bytesOn, mixedEvents]
  · rcases eq_or_ne c 2 with rfl | h₂
    · simp [bytesOn, mixedEvents]
    · simp [bytesOn, mixedEvents, h₁, h₂, h₁.symm, h₂.symm]

theorem frames_of_connections_mix : ¬ ReassemblesAlways := by
  intro h
  let env : Nat → NetmtServer.Env := fun _ => ⟨0, true, none, 0⟩
  obtain ⟨call₁, call₂, src₁, src₂, hcalls, h₁, h₂, hnone⟩ := mixedEvents_calls env
  have horderly : Orderly [] [] mixedEvents := by simp [Orderly, mixedEvents]
  have hsizes : ReadSizes mixedEvents := by
    intro io buf hmem
    simp only [mixedEvents, List.mem_cons, reduceCtorEq, Event.read.injEq, List.not_mem_nil,
      or_false, false_or] at hmem
    rcases hmem with ⟨-, rfl⟩ | ⟨-, hbuf⟩
    · decide
    · rw [hbuf, idleFrame.length_bytes]
      decide
  have hframed : FramedEvents mixedEvents := by
    intro c
    rw [bytesOn_mixedEvents]
    split
    · exact ⟨[], [0x30], fun f hf => (by cases hf), partial_first_byte, rfl⟩
    · split
      · refine ⟨[idleFrame], [], fun f hf => ?_, partial_nil, by simp⟩
        rw [List.mem_singleton.mp hf]
        exact wellSized_idleFrame
      · exact ⟨[], [], fun f hf => (by cases hf), partial_nil, rfl⟩
  have hearly : ∀ sc ∈ (serve env mixedEvents (Process.initial FileStore.empty)).calls,
      sc.call.exit.early = false := by
    intro sc hsc
    rw [hcalls] at hsc
    rcases List.mem_cons.mp hsc with rfl | hsc
    · exact congrArg Exit.early h₁
    · rw [List.mem_singleton.mp hsc]
      exact congrArg Exit.early h₂
  have htwo := (h env FileStore.empty mixedEvents horderly hsizes hframed hearly 2).1
  have hblocks := blocks_stream [idleFrame] [] partial_nil
  rw [List.append_nil, stream_cons, stream_nil, List.append_nil] at hblocks
  rw [hcalls, bytesOn_mixedEvents, if_neg (by decide), if_pos rfl, commandSize, hblocks] at htwo
  simp [framesOn, Call.frames, hnone] at htwo

/-- In a run that never reads a connection while another has an incomplete frame
outstanding, every connection gets its own frames. -/
theorem serve_reassembles (env : Nat → NetmtServer.Env) (files : FileStore) (evs : List Event)
    (hsize : ReadSizes evs) (hframed : FramedEvents evs) (hquiet : Undisturbed evs)
    (hearly : ∀ sc ∈ (serve env evs (Process.initial files)).calls, sc.call.exit.early = false) :
    Reassembled evs (serve env evs (Process.initial files)) := by
  suffices hall : ∀ (post pre : List Event) (w : Process), evs = pre ++ post → Between pre w →
      (∀ sc ∈ (serve env post w).calls, sc.call.exit.early = false) →
      Between evs (serve env post w) from
    (hall evs [] _ rfl (between_initial files) hearly).reassembled
  intro post
  induction post with
  | nil =>
    intro pre w he hb _
    rw [List.append_nil] at he
    rw [he]
    exact hb
  | cons ev post ih =>
    intro pre w he hb hcalls
    have hstep : ∀ sc ∈ (step env ev w).1.calls, sc.call.exit.early = false := by
      intro sc hsc
      apply hcalls sc
      simp only [serve]
      split
      · exact (calls_serve env post _).subset hsc
      · exact hsc
    obtain ⟨hgo, hb'⟩ := step_between hb ev post (he ▸ hsize) (he ▸ hframed) (he ▸ hquiet) hstep
    simp only [serve, hgo, if_true] at hcalls ⊢
    exact ih (pre ++ [ev]) _ (by rw [he, List.append_assoc, List.singleton_append]) hb' hcalls

/-- A whole frame on the first connection, then the first byte of one on the second. -/
def turnEvents : List Event :=
  [.accept ⟨1, 7⟩, .accept ⟨2, 8⟩, .read ⟨1, 7⟩ idleFrame.bytes, .read ⟨2, 8⟩ [0x30]]

theorem turnEvents_calls (env : Nat → NetmtServer.Env) :
    ∀ sc ∈ (serve env turnEvents (Process.initial FileStore.empty)).calls,
      sc.call.exit.early = false := by
  rw [turnEvents, serve_accept _ _ _ _ rfl, serve_accept _ _ _ _ rfl]
  generalize hw : Process.mk _ _ _ _ = w
  have hinit : Holds w.rx [] := by rw [← hw]; exact holds_initial
  have hnone : w.calls = [] := by rw [← hw]; rfl
  have hsize : 1 ≤ idleFrame.bytes.length ∧ idleFrame.bytes.length ≤ 8192 := by
    rw [idleFrame.length_bytes]; decide
  obtain ⟨hone, hrx⟩ := recv_idle env ⟨1, 7⟩ hinit hsize [idleFrame]
    (fun f hf => List.mem_singleton.mp hf) [] partial_nil (by simp) w.server
  rw [← recvCall_rx] at hrx
  rw [serve_read _ _ _ _ _ hone]
  obtain ⟨htwo, -⟩ := recv_idle env ⟨2, 8⟩ hrx (r := [0x30]) (by decide) []
    (fun f hf => by cases hf) [0x30] partial_first_byte rfl
    (recvCall env ⟨1, 7⟩ idleFrame.bytes w).server
  rw [serve_read _ _ _ _ _ htwo]
  obtain ⟨src₁, hcalls₁⟩ := recvCall_calls env ⟨1, 7⟩ idleFrame.bytes w
  obtain ⟨src₂, hcalls₂⟩ := recvCall_calls env ⟨2, 8⟩ [0x30]
    (recvCall env ⟨1, 7⟩ idleFrame.bytes w)
  intro sc hsc
  rw [serve, hcalls₂, hcalls₁, hnone, List.nil_append, List.singleton_append] at hsc
  rcases List.mem_cons.mp hsc with rfl | hsc
  · rw [callOf_exit, hone]
    rfl
  · rw [List.mem_singleton.mp hsc, callOf_exit, htwo]
    rfl

theorem turnEvents_reassembled :
    Reassembled turnEvents
      (serve NetmtServer.goodEnv turnEvents (Process.initial FileStore.empty)) := by
  have hrest : Framing.rest 5168 idleFrame.bytes = [] := by
    have h := rest_stream [idleFrame] [] partial_nil
    rwa [List.append_nil, stream_cons, stream_nil, List.append_nil] at h
  have hnil : Framing.rest 5168 ([] : List UInt8) = [] := Framing.rest_short (by decide)
  apply serve_reassembles NetmtServer.goodEnv FileStore.empty turnEvents
  · intro io buf hmem
    simp only [turnEvents, List.mem_cons, reduceCtorEq, Event.read.injEq, List.not_mem_nil,
      or_false, false_or] at hmem
    rcases hmem with ⟨-, hbuf⟩ | ⟨-, rfl⟩
    · rw [hbuf, idleFrame.length_bytes]
      decide
    · decide
  · intro c
    rcases eq_or_ne c 1 with rfl | h₁
    · refine ⟨[idleFrame], [], fun f hf => ?_, partial_nil, by simp [bytesOn, turnEvents]⟩
      rw [List.mem_singleton.mp hf]
      exact wellSized_idleFrame
    · rcases eq_or_ne c 2 with rfl | h₂
      · exact ⟨[], [0x30], fun f hf => (by cases hf),
          partial_first_byte, by simp [bytesOn, turnEvents]⟩
      · exact ⟨[], [], fun f hf => (by cases hf), partial_nil,
          by simp [bytesOn, turnEvents, h₁.symm, h₂.symm]⟩
  · intro pre io buf post he c hc
    rcases pre with _ | ⟨e₁, _ | ⟨e₂, _ | ⟨e₃, _ | ⟨e₄, pre⟩⟩⟩⟩
    · simp [turnEvents] at he
    · simp [turnEvents] at he
    · simp only [turnEvents, List.cons_append, List.nil_append, List.cons.injEq] at he
      obtain ⟨rfl, rfl, -⟩ := he
      exact hnil
    · simp only [turnEvents, List.cons_append, List.nil_append, List.cons.injEq,
        Event.read.injEq] at he
      obtain ⟨rfl, rfl, rfl, -⟩ := he
      by_cases h₁ : c = 1
      · simp [bytesOn, h₁, hrest]
      · simp [bytesOn, Ne.symm h₁, hnil]
    · simp [turnEvents] at he
  · exact turnEvents_calls NetmtServer.goodEnv

end NetmtReassembly
