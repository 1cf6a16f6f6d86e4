import Netmt.WriteStream
import Netmt.Reads
import Netmt.Client
import Netmt.Server

/-!
# From `hio_write` to the handlers

The two ends of a connection together. The sender's loop takes frames over, in calls on
its own thread, and puts their bytes on the wire as the kernel lets it; the receiver's
`tcp_recv` gets them in reads cut anywhere. What the receiver dispatches is what was
handed to `hio_write`, each frame once and in order, as far as its bytes came.
-/
namespace NetmtDelivery

open NetmtCommand NetmtTcpRecv NetmtReads NetmtQueue NetmtNio NetmtWriteStream

def HLOOP_READ_BUFSIZE : Nat := 8192

/-- The sender's loop, and the reads that the receiver has made of the wire. -/
structure Link where
  loop : Loop
  reads : List (List UInt8)

inductive Move where
  | sender (ev : Event)
  | receiver (len : Nat)

/-- The wire of the connection at `fd`. -/
def wireAt (fd : Nat) (L : Loop) : List UInt8 :=
  match L.ios[fd]? with
  | some (some c) => c.wire
  | _ => []

/-- What `read` finds; without a byte there, `nio_read` is not called. -/
def Link.arrived (fd len : Nat) (l : Link) : List UInt8 :=
  ((wireAt fd l.loop).drop l.reads.flatten.length).take (min len HLOOP_READ_BUFSIZE)

def Link.read (chunk : List UInt8) (l : Link) : Link :=
  if chunk = [] then l else { l with reads := l.reads ++ [chunk] }

def Move.step (fd : Nat) : Move → Link → Option Link
  | .sender ev, l => (ev.step l.loop).map fun L => { l with loop := L }
  | .receiver len, l => some (l.read (l.arrived fd len))

def go (fd : Nat) (ms : List Move) (l : Link) : Option Link := ms.foldlM (fun l m => m.step fd l) l

theorem go_cons (fd : Nat) (m : Move) (ms : List Move) (l : Link) :
    go fd (m :: ms) l = (m.step fd l).bind (go fd ms) := List.foldlM_cons

/-- The descriptor stays with its connection, and what is written to it are frames. -/
def Framed (fd : Nat) : Event → Prop
  | .get fd' => fd' ≠ fd
  | .act fd' (.write buf _) => fd' = fd → ∃ f : Frame, WellSized f ∧ buf = f.bytes
  | .act _ _ => True

def Move.Framed (fd : Nat) : Move → Prop
  | .sender ev => NetmtDelivery.Framed fd ev
  | .receiver _ => True

/-- What is handed to `hio_write` at the descriptor. -/
def written (fd : Nat) : Move → List (List UInt8)
  | .sender (.act fd' (.write buf _)) => if fd' = fd then [buf] else []
  | _ => []

theorem stream_append (fs gs : List Frame) : stream (fs ++ gs) = stream fs ++ stream gs := by
  rw [stream, List.map_append, List.flatten_append]
  rfl

/-! ## What is taken over -/

/-- An open connection that does not take a buffer over closes. -/
theorem hioWrite_refused {s s' : Sock} {bufs : List OffsetBuf} (h : Open s.toConn bufs)
    {buf : List UInt8} {answer : Answer} {r : Int} (hwrite : hioWrite buf answer s = some (r, s'))
    (hr : r < 0) : s'.closed = true := by
  have hopen : ¬ s.closed = true := by
    rw [h.isOpen]
    exact Bool.false_ne_true
  have htaken : ∀ {n : Nat} {o : Option Sock}, o.map (fun s => ((n : Int), s)) = some (r, s') →
      s'.closed = true := by
    intro n o ho
    obtain ⟨s₁, -, heq⟩ := Option.map_eq_some_iff.mp ho
    have hn := congrArg Prod.fst heq
    simp only at hn
    omega
  rw [hioWrite, if_neg hopen] at hwrite
  split at hwrite
  · next hempty =>
    have hnil := h.queue.empty_iff.mp hempty
    cases answer with
    | failed errno =>
      obtain ⟨s₁, hclosed, -, -, -, hdead⟩ := hioClose_spec (h.failed errno)
      rw [if_neg fun hwait => hwait.1 hnil] at hdead
      rw [tryWrite, hclosed, Option.map_some] at hwrite
      obtain rfl := (Prod.mk.inj (Option.some.inj hwrite)).2
      exact hdead.closed
    | again => exact htaken (n := 0) hwrite
    | took more =>
      simp only [tryWrite] at hwrite
      split at hwrite
      · exact htaken (n := 0) hwrite
      · split at hwrite
        · exact htaken (o := some _) hwrite
        · exact htaken hwrite
  · exact htaken (n := 0) hwrite

def wrote : Act → List UInt8
  | .write buf _ => buf
  | _ => []

/-- While a connection stays open, all that is handed to it is taken over. -/
theorem act_takes {a : Act} {s s' : Sock} (h : Carries s.toConn s.accepted)
    (hstep : a.step s = some s') (hopen' : s'.closed = false) :
    s.closed = false ∧ s'.accepted = s.accepted ++ wrote a := by
  rcases h with ⟨bufs, hopen, hwait, hsent⟩ | ⟨hdead, -⟩
  · refine ⟨hopen.isOpen, ?_⟩
    obtain ⟨s₁, hstep₁, hacts⟩ := open_acts a hopen hwait hsent
    obtain rfl := Option.some.inj (hstep.symm.trans hstep₁)
    obtain ⟨taken, htaken, hsome⟩ := hacts.accepted
    cases a with
    | write buf answer =>
      obtain ⟨r, s₁, hwrite, hends⟩ := hioWrite_ends hopen hwait buf answer
      rw [Act.step, writeAct, hwrite, Option.map_some] at hstep
      obtain rfl := Option.some.inj hstep
      have hr : 0 ≤ r := by
        by_contra hneg
        rw [record, hioWrite_refused hopen hwrite (by omega)] at hopen'
        cases hopen'
      rw [record, hends.accepted, if_pos hr]
      rfl
    | readStart | readStop | close | eof | readFailed | timeout | writable =>
      rcases hsome with rfl | ⟨answer, hact⟩
      · exact htaken
      · cases hact
  · obtain ⟨s₁, hstep₁, hdead₁, -⟩ := act_dead a hdead
    obtain rfl := Option.some.inj (hstep.symm.trans hstep₁)
    exact absurd (hopen'.symm.trans hdead₁.closed) (by decide)

/-! ## The link -/

/-- The connection took the frames `fs` over, and the reads are the front of its wire. -/
structure Linked (fd : Nat) (l : Link) (c : Conn) (fs : List Frame) : Prop where
  conn : l.loop.ios[fd]? = some (some c)
  sound : l.loop.Sound
  sized : ∀ f ∈ fs, WellSized f
  accepted : c.accepted = stream fs
  reads : l.reads.flatten <+: c.wire
  lengths : ∀ r ∈ l.reads, 1 ≤ r.length ∧ r.length ≤ 8192

/-- Of the buffers handed over, `new` were taken: all, as long as the connection is open. -/
structure Takes (c c' : Conn) (new : List Frame) (handed : List (List UInt8)) : Prop where
  some : (new.map Region.bytes).Sublist handed
  all : c'.closed = false → c.closed = false ∧ new.map Region.bytes = handed

theorem Takes.none (c : Conn) : Takes c c [] [] := ⟨List.Sublist.refl [], fun h => ⟨h, rfl⟩⟩

theorem Takes.trans {c c₁ c₂ : Conn} {new new' : List Frame} {handed handed' : List (List UInt8)}
    (h : Takes c c₁ new handed) (h' : Takes c₁ c₂ new' handed') :
    Takes c c₂ (new ++ new') (handed ++ handed') where
  some := by
    rw [List.map_append]
    exact h.some.append h'.some
  all hopen := by
    obtain ⟨hopen₁, hall'⟩ := h'.all hopen
    obtain ⟨hopen₀, hall⟩ := h.all hopen₁
    exact ⟨hopen₀, by rw [List.map_append, hall, hall']⟩

/-- The wire never holds more than was taken over. -/
theorem Linked.wire {fd : Nat} {l : Link} {c : Conn} {fs : List Frame} (h : Linked fd l c fs) :
    c.wire <+: stream fs := by
  rw [← h.accepted]
  rcases h.sound.carries fd c h.conn with ⟨bufs, -, -, hsent⟩ | ⟨-, hwire⟩
  · exact ⟨_, hsent⟩
  · exact hwire

theorem wireAt_eq {fd : Nat} {L : Loop} {c : Conn} (h : L.ios[fd]? = some (some c)) :
    wireAt fd L = c.wire := by
  rw [wireAt, h]

/-- A read takes what comes next on the wire. -/
theorem read_linked {fd : Nat} {l : Link} {c : Conn} {fs : List Frame}
    (h : Linked fd l c fs) (len : Nat) :
    Linked fd (l.read (l.arrived fd len)) c fs := by
  generalize hchunk : l.arrived fd len = chunk
  rw [Link.arrived, wireAt_eq h.conn] at hchunk
  rw [Link.read]
  split
  · exact h
  · next hsome =>
    refine ⟨h.conn, h.sound, h.sized, h.accepted, ?_, ?_⟩
    · obtain ⟨rest, hrest⟩ := h.reads
      rw [← hrest, List.drop_left] at hchunk
      rw [List.flatten_append, List.flatten_cons, List.flatten_nil,
        List.append_nil, ← hrest, ← hchunk]
      exact (List.prefix_append_right_inj _).mpr (List.take_prefix _ _)
    · intro r hr
      rcases List.mem_append.mp hr with hr | hr
      · exact h.lengths r hr
      · rw [List.mem_singleton] at hr
        subst hr
        refine ⟨List.length_pos_of_ne_nil hsome, ?_⟩
        rw [← hchunk, List.length_take, HLOOP_READ_BUFSIZE]
        omega

/-- What happens at the descriptor: at most one frame more is taken over. -/
theorem act_linked {fd : Nat} {l : Link} {c : Conn} {fs : List Frame} (h : Linked fd l c fs)
    {a : Act} (hframed : Framed fd (.act fd a)) :
    ∃ L c' new, Event.step (.act fd a) l.loop = some L ∧
    Linked fd { l with loop := L } c' (fs ++ new) ∧
      Takes c c' new (written fd (.sender (.act fd a))) := by
  obtain ⟨L, hstep, hsound⟩ := step_sound h.sound (.act fd a)
  have hcarries := h.sound.carries fd c h.conn
  obtain ⟨s', hact, hacts⟩ := act_acts a (s := ⟨c, l.loop.counters⟩) hcarries
  have hall := act_takes (s := ⟨c, l.loop.counters⟩) hcarries hact
  have hL : L = ⟨l.loop.ios.set fd (some s'.toConn), s'.toCounters⟩ := by
    simp only [Event.step, h.conn, hact, Option.map_some, Option.some.injEq] at hstep
    exact hstep.symm
  have hconn : L.ios[fd]? = some (some s'.toConn) := by
    rw [hL]
    exact List.getElem?_set_self (List.getElem?_eq_some_iff.mp h.conn).1
  have hreads : l.reads.flatten <+: s'.wire := h.reads.trans hacts.wire
  obtain ⟨taken, htaken, hnone | ⟨answer, rfl⟩⟩ := hacts.accepted
  · subst hnone
    rw [List.append_nil] at htaken
    refine ⟨L, s'.toConn, [], hstep, ?_, ⟨List.nil_sublist _, fun hopen => ⟨(hall hopen).1, ?_⟩⟩⟩
    · rw [List.append_nil]
      exact ⟨hconn, hsound, h.sized, htaken.trans h.accepted, hreads, h.lengths⟩
    · cases a with
      | write buf answer =>
        -- a frame has bytes, so it was refused, and the connection is closed
        obtain ⟨f, -, rfl⟩ := hframed rfl
        have hgrown := congrArg List.length ((hall hopen).2.symm.trans htaken)
        rw [List.length_append, wrote, f.length_bytes] at hgrown
        omega
      | readStart | readStop | close | eof | readFailed | timeout | writable => rfl
  · obtain ⟨f, hsize, rfl⟩ := hframed rfl
    have hhanded : written fd (.sender (.act fd (.write f.bytes answer))) = [f.bytes] := if_pos rfl
    refine ⟨L, s'.toConn, [f], hstep, ⟨hconn, hsound, ?_, ?_, hreads, h.lengths⟩,
      ⟨?_, fun hopen => ⟨(hall hopen).1, ?_⟩⟩⟩
    · intro g hg
      rcases List.mem_append.mp hg with hg | hg
      · exact h.sized g hg
      · rw [List.mem_singleton.mp hg]
        exact hsize
    · rw [htaken, stream_append, stream_cons, stream_nil, List.append_nil]
      exact congrArg (· ++ f.bytes) h.accepted
    · rw [hhanded]
      exact List.Sublist.refl _
    · rw [hhanded]
      rfl

theorem move_linked {fd : Nat} {l : Link} {c : Conn} {fs : List Frame} (h : Linked fd l c fs)
    {m : Move} (hframed : m.Framed fd) :
    ∃ l' c' new, m.step fd l = some l' ∧ Linked fd l' c' (fs ++ new) ∧
    Takes c c' new (written fd m) := by
  have hsame : fs ++ [] = fs := List.append_nil fs
  cases m with
  | sender ev =>
    by_cases hfd : ev.fd = fd
    · cases ev with
      | get fd' => exact absurd hfd hframed
      | act fd' a =>
        obtain rfl : fd' = fd := hfd
        obtain ⟨L, c', new, hstep, hlinked, htakes⟩ := act_linked h hframed
        exact ⟨{ l with loop := L }, c',
          new, by rw [Move.step, hstep, Option.map_some], hlinked, htakes⟩
    · obtain ⟨L, hstep, hsound⟩ := step_sound h.sound ev
      have hhanded : written fd (.sender ev) = [] := by
        cases ev with
        | get fd' => rfl
        | act fd' a =>
          cases a with
          | write buf answer => exact if_neg hfd
          | readStart | readStop | close | eof | readFailed | timeout | writable => rfl
      refine ⟨{ l with loop := L }, c, [], by rw [Move.step, hstep, Option.map_some], ?_, ?_⟩
      · rw [hsame]
        exact ⟨step_other hstep h.conn hfd, hsound, h.sized, h.accepted, h.reads, h.lengths⟩
      · rw [hhanded]
        exact Takes.none c
  | receiver len =>
    refine ⟨_, c, [], rfl, ?_, Takes.none c⟩
    rw [hsame]
    exact read_linked h len

theorem go_linked (ms : List Move) {fd : Nat} {l : Link} {c : Conn} {fs : List Frame}
    (h : Linked fd l c fs) (hframed : ∀ m ∈ ms, m.Framed fd) :
    ∃ l' c' new, go fd ms l = some l' ∧ Linked fd l' c' (fs ++ new) ∧
    Takes c c' new (ms.flatMap (written fd)) := by
  induction ms generalizing l c fs with
  | nil =>
    refine ⟨l, c, [], rfl, ?_, Takes.none c⟩
    rw [List.append_nil]
    exact h
  | cons m ms ih =>
    obtain ⟨l₁, c₁, new, hstep, h₁, htakes₁⟩ := move_linked h (hframed m List.mem_cons_self)
    obtain ⟨l', c', new', hgo, h', htakes⟩ :=
      ih h₁ fun m' hm' => hframed m' (List.mem_cons_of_mem m hm')
    refine ⟨l', c', new ++ new', by rw [go_cons, hstep, Option.bind_some, hgo], ?_, ?_⟩
    · rw [← List.append_assoc]
      exact h'
    · rw [List.flatMap_cons]
      exact htakes₁.trans htakes

/-! ## The receiver -/

/-- The process at the other end, before its first read: a client, or a server that
reads no other connection. -/
inductive Receiver where
  | client (env : Nat → NetmtClient.Env) (c : NetmtClient.Client)
  | server (env : Nat → NetmtServer.Env) (io : NetmtServer.Hio) (s : NetmtServer.Server)

/-- Its calls of `tcp_recv`, one for each read. -/
def Receiver.calls : Receiver → List (List UInt8) → List Call
  | .client env c, reads =>
    (recvAll (NetmtClient.handle env) NetmtClient.enter reads Rx.initial c).calls
  | .server env io s, reads => (recvAll (NetmtServer.handle env io) id reads Rx.initial s).calls

/-- Reads of the front part of a stream dispatch the frames that are complete in it. -/
theorem dispatched_take {σ : Type} {handle : Handler σ} (hl : Local handle) {enter : σ → σ}
    {fs : List Frame} (hfs : ∀ f ∈ fs, WellSized f) {reads : List (List UInt8)}
    (hreads : ∀ r ∈ reads, 1 ≤ r.length ∧ r.length ≤ 8192) (hfront : reads.flatten <+: stream fs)
    (s : σ) (hearly : ∀ call ∈ (recvAll handle enter reads Rx.initial s).calls,
      call.exit.early = false) :
    (recvAll handle enter reads Rx.initial s).calls.flatMap Call.frames =
      (fs.map Region.bytes).take (reads.flatten.length / commandSize) := by
  obtain ⟨rest, hrest⟩ := hfront
  obtain ⟨fs₁, fs₂, q, rfl, hq, hcut, -⟩ := stream_cut fs hfs [] partial_nil reads.flatten rest
    (by rw [hrest, List.append_nil])
  have hcount : reads.flatten.length / commandSize = (fs₁.map Region.bytes).length := by
    have hlt := hq.1
    rw [hcut, List.length_append, length_stream, List.length_map, commandSize]
    omega
  have hblocks := blocks_stream fs₁ q hq
  generalize hrun : recvAll handle enter reads Rx.initial s = run at hearly ⊢
  rcases recvAll_frames (I := fun _ _ => True) hl (fun _ _ h => h) (fun _ _ _ _ _ _ _ _ _ _ =>
    trivial)
    reads hreads fs₁ (fun f hf => hfs f (List.mem_append_left fs₂ hf)) q hq holds_initial
    (by rw [List.nil_append, hcut]) [] s trivial run hrun with ⟨hrec, -⟩ | ⟨⟨call, hcall, hleft⟩, -⟩
  · rw [List.flatMap_def, hrec.frames, Framing.flatten_received (by decide) [] (by decide),
      List.nil_append, hcut, hblocks, ← hcut, hcount, List.map_append, List.take_left]
  · rw [hearly call hcall] at hleft
    cases hleft

theorem Receiver.frames_take (r : Receiver) {fs : List Frame} (hfs : ∀ f ∈ fs, WellSized f)
    {reads : List (List UInt8)} (hreads : ∀ x ∈ reads, 1 ≤ x.length ∧ x.length ≤ 8192)
    (hfront : reads.flatten <+: stream fs)
    (hearly : ∀ call ∈ r.calls reads, call.exit.early = false) :
    (r.calls reads).flatMap Call.frames = (fs.map Region.bytes).take
      (reads.flatten.length / commandSize) := by
  cases r with
  | client env c => exact dispatched_take (NetmtClient.handle_local env) hfs hreads hfront c hearly
  | server env io s =>
    exact dispatched_take (NetmtServer.handle_local env io) hfs hreads hfront s hearly

/-! ## Both ends -/

/-- A descriptor in use by nobody is taken into use. -/
theorem get_linked {es : List Event} {L : Loop} {fd : Nat} (hrun : run es .initial = some L)
    (hunused : ∀ c, L.ios[fd]? = some (some c) → c.closed = true) :
    ∃ L' c, Event.step (.get fd) L = some L' ∧ Linked fd ⟨L', []⟩ c [] := by
  obtain ⟨L₀, hrun₀, hsound⟩ := run_sound es initial_sound
  obtain rfl := Option.some.inj (hrun.symm.trans hrun₀)
  obtain ⟨L', hstep, hsound'⟩ := get_sound hsound fd
  obtain ⟨io, hio, hL'⟩ := Option.map_eq_some_iff.mp hstep
  have hconn : L'.ios[fd]? = some (some (connReady (io.getD Conn.zeroed))) := by
    rw [← hL']
    exact List.getElem?_set_self (lt_grow fd hsound.table)
  have hnotReady : (io.getD Conn.zeroed).ready = false := by
    cases io with
    | none => rfl
    | some c =>
      have hold := grow_get fd L.ios hio
      rcases hsound.carries fd c hold with ⟨bufs, hopen, -, -⟩ | ⟨hdead, -⟩
      · exact absurd (hopen.isOpen.symm.trans (hunused c hold)) (by decide)
      · exact hdead.ready
  have hfresh : (connReady (io.getD Conn.zeroed)).accepted = [] := by
    rw [connReady, if_neg (by rw [hnotReady]; exact Bool.false_ne_true)]
  refine ⟨L', _, hstep,
    ⟨hconn, hsound', fun f hf => (by cases hf), hfresh, List.nil_prefix, fun r hr => ?_⟩⟩
  cases hr

/-- In any order of what the sender's loop does, at this connection and at its others,
and of the reads at the other end: of the frames handed to `hio_write` here those that it
took over, all of them while the connection is open, are dispatched there, each once and
in order, as many as are complete in what was read; and what was taken over and not read
is on the wire or queued, unless the connection was closed. -/
theorem frames_delivered (r : Receiver) {es : List Event} {L : Loop} {fd : Nat}
    (hrun : run es .initial = some L) (hunused : ∀ c, L.ios[fd]? = some (some c) → c.closed = true)
    {ms : List Move} (hframed : ∀ m ∈ ms, m.Framed fd) :
    ∃ l c fs, go fd (.sender (.get fd) :: ms) ⟨L, []⟩ = some l ∧ l.loop.ios[fd]? = some (some c) ∧
      c.accepted = stream fs ∧ (fs.map Region.bytes).Sublist (ms.flatMap (written fd)) ∧
      ((∀ call ∈ r.calls l.reads, call.exit.early = false) →
        (r.calls l.reads).flatMap Call.frames = (fs.map Region.bytes).take
          (l.reads.flatten.length / commandSize)) ∧
      (c.closed = false → fs.map Region.bytes = ms.flatMap (written fd) ∧
        ∃ travelling bufs, NetmtQueue.Holds c.writeQueue bufs ∧
          l.reads.flatten ++ travelling ++ pending bufs = stream fs) := by
  obtain ⟨L', c₀, hget, hstart⟩ := get_linked hrun hunused
  obtain ⟨l, c, fs, hgo, hlinked, htakes⟩ := go_linked ms hstart hframed
  rw [List.nil_append] at hlinked
  refine ⟨l, c, fs, ?_, hlinked.conn, hlinked.accepted, htakes.some, fun hearly => ?_, fun hopen =>
    ?_⟩
  · rw [go_cons, Move.step, hget, Option.map_some, Option.bind_some, hgo]
  · exact r.frames_take hlinked.sized hlinked.lengths (hlinked.reads.trans hlinked.wire) hearly
  · refine ⟨(htakes.all hopen).2, ?_⟩
    obtain ⟨travelling, htravelling⟩ := hlinked.reads
    rcases hlinked.sound.carries fd c hlinked.conn with ⟨bufs, hopen', -, hsent⟩ | ⟨hdead, -⟩
    · exact ⟨travelling, bufs, hopen'.queue, by rw [htravelling, hsent, hlinked.accepted]⟩
    · exact absurd (hopen.symm.trans hdead.closed) (by decide)

/-- A frame that the kernel takes in two parts, and the reads that cut it elsewhere. -/
theorem frames_delivered_one :
    ∃ l c fs, go 5 [.sender (.get 5), .sender (.act 5 (.write (setLen default).bytes (.took 4000))),
      .receiver 100,
        .sender (.act 5 (.writable [.took 6000])), .receiver 6000] ⟨.initial, []⟩ = some l ∧
      l.loop.ios[5]? = some (some c) ∧ c.accepted = stream fs ∧
      (fs.map Region.bytes).Sublist [(setLen default).bytes] ∧
      ((∀ call ∈
          (Receiver.client NetmtClient.goodEnv (NetmtClient.initial FileStore.empty)).calls l.reads,
          call.exit.early = false) →
        ((Receiver.client NetmtClient.goodEnv (NetmtClient.initial FileStore.empty)).calls
          l.reads).flatMap Call.frames =
          (fs.map Region.bytes).take (l.reads.flatten.length / commandSize)) ∧
      (c.closed = false → fs.map Region.bytes = [(setLen default).bytes] ∧
        ∃ travelling bufs, NetmtQueue.Holds c.writeQueue bufs ∧
          l.reads.flatten ++ travelling ++ pending bufs = stream fs) := by
  refine frames_delivered _ (show run [] .initial = some .initial from rfl) ?_ ?_
  · intro c hc
    rw [Loop.initial, List.getElem?_replicate, if_pos (by decide)] at hc
    cases hc
  · intro m hm
    simp only [List.mem_cons, List.not_mem_nil, or_false] at hm
    rcases hm with rfl | rfl | rfl | rfl
    · exact fun _ => ⟨setLen default, wellSized_setLen _, rfl⟩
    · trivial
    · trivial
    · trivial

end NetmtDelivery
