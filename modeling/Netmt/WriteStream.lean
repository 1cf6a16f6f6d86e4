import Netmt.Nio
import Mathlib.Algebra.BigOperators.Group.List.Basic
import Mathlib.Algebra.BigOperators.GroupWithZero.Action

/-!
# What a connection sends

The table of descriptors of a loop, and runs of it: calls of the two programs on the
thread of the loop, and what the loop finds at the descriptors, in any order. In every
run the bytes on the wire of a connection are those that its callers were told are taken
over, in their order, without a gap,
  and without a byte of an earlier connection on the same descriptor.
-/
namespace NetmtWriteStream

open NetmtQueue NetmtNio

/-- What happens to one descriptor. `hio_handle_events` of a readable and writable one
is what the callback does with the data it gets, `eof` or `readFailed` if that is how
reading ends, and `writable`. -/
inductive Act where
  | write (buf : List UInt8) (answer : Answer)
  | readStart
  | readStop
  | close
  | eof
  | readFailed (errno : Nat)
  | timeout (ETIMEDOUT : Nat)
  | writable (answers : List Answer)

/-- The caller's view of a buffer: taken over, unless `hio_write` returned an error. -/
def record (buf : List UInt8) (ret : Int) (s : Sock) : Sock :=
  { s with accepted := s.accepted ++ if 0 ≤ ret then buf else [] }

def writeAct (buf : List UInt8) (answer : Answer) (s : Sock) : Option Sock :=
  (hioWrite buf answer s).map fun r => record buf r.1 r.2

def Act.step : Act → Sock → Option Sock
  | .write buf answer, s => writeAct buf answer s
  | .readStart, s => some (if s.closed then s else hioAdd .HV_READ s)
  | .readStop, s => some (hioDel .HV_READ s)
  | .close, s => hioClose s
  | .eof, s => hioClose s
  | .readFailed errno, s => hioClose { s with error := errno }
  | .timeout errno, s => closeTimeout errno s
  | .writable answers, s => handleWrite answers s

/-- `HV_ALLOC_SIZEOF(io)` -/
def Conn.zeroed : Conn :=
  ⟨false, false, false, false, 0, .none, NetmtQueue.zeroed, false, none, [], []⟩

/-- `io_array` and the counters. -/
structure Loop where
  ios : List (Option Conn)
  counters : Counters

def IO_ARRAY_INIT_SIZE : Nat := 1024

def Loop.initial : Loop := ⟨List.replicate IO_ARRAY_INIT_SIZE none, ⟨0, 0, 0, 0, 0⟩⟩

/-- The least power of two that is not below `num`. -/
def ceil2e (num : Nat) : Nat := if num ≤ 1 then 1 else 2 ^ (Nat.log2 (num - 1) + 1)

/-- `io_array_resize` in `hio_get` -/
def grow (fd : Nat) (ios : List (Option Conn)) : List (Option Conn) :=
  if ios.length ≤ fd then
    let newsize := if fd < ceil2e fd then ceil2e fd else 2 * fd
    ios ++ List.replicate (newsize - ios.length) none
  else ios

/-- A descriptor taken into use, on a wire of its own. -/
def connReady (c : Conn) : Conn :=
  if c.ready then c
  else { (hioReady ⟨c, ⟨0, 0, 0, 0, 0⟩⟩).toConn with wire := [], accepted := [] }

/-- `hio_get`; `none` for an access outside the table. -/
def hioGet (fd : Nat) (L : Loop) : Option Loop :=
  let ios := grow fd L.ios
  (ios[fd]?).map fun io => { L with ios := ios.set fd (some (connReady (io.getD Conn.zeroed))) }

inductive Event where
  | get (fd : Nat)
  | act (fd : Nat) (a : Act)

/-- Without an `hio_t` there is no pointer to call with. -/
def Event.step : Event → Loop → Option Loop
  | .get fd, L => hioGet fd L
  | .act fd a, L =>
    match L.ios[fd]? with
    | some (some c) => (a.step ⟨c, L.counters⟩).map fun s =>
      ⟨L.ios.set fd (some s.toConn), s.toCounters⟩
    | _ => some L

def run (es : List Event) (L : Loop) : Option Loop := es.foldlM (fun L ev => ev.step L) L

theorem run_cons (ev : Event) (es : List Event) (L : Loop) :
    run (ev :: es) L = (ev.step L).bind (run es) :=
  List.foldlM_cons

/-! ## One act -/

/-- An act keeps what the connection carries, and a buffer that is taken over goes
behind. -/
structure Acts (a : Act) (s s' : Sock) : Prop where
  carries : Carries s'.toConn s'.accepted
  wire : s.wire <+: s'.wire
  accepted : ∃ taken, s'.accepted = s.accepted ++ taken ∧
    (taken = [] ∨ ∃ answer, a = .write taken answer)
  others : others s' = others s

theorem acts_of_ends {a : Act} {s s' : Sock} (h : Ends s s' s.accepted) : Acts a s s' :=
  ⟨by rw [h.accepted]; exact h.carries, h.wire,
    ⟨[], by rw [h.accepted, List.append_nil], .inl rfl⟩, h.others⟩

theorem Carries.accepting {c : Conn} {sent : List UInt8} (h : Carries c sent)
    (accepted : List UInt8) :
    Carries { c with accepted := accepted } sent := by
  rcases h with ⟨bufs, h, hwait, hsent⟩ | ⟨h, hwire⟩
  · exact .inl
      ⟨bufs, ⟨h.ready, h.isOpen, ⟨h.watching.active, h.watching.interest⟩, h.queue,
        h.unwritten, h.watched,
      h.timer⟩, hwait, hsent⟩
  · exact .inr ⟨⟨h.ready, h.closed, h.inactive, h.events, h.interest, h.queue, h.timer⟩, hwire⟩

theorem write_acts (buf : List UInt8) (answer : Answer) {s : Sock} {bufs : List OffsetBuf}
    (h : Open s.toConn bufs) (hwait : s.close = true → bufs ≠ [])
    (hsent : s.wire ++ pending bufs = s.accepted) :
    ∃ s', writeAct buf answer s = some s' ∧ Acts (.write buf answer) s s' := by
  obtain ⟨r, s₁, hwrite, hends⟩ := hioWrite_ends h hwait buf answer
  rw [hsent] at hends
  refine ⟨record buf r s₁, by rw [writeAct, hwrite, Option.map_some],
    ⟨?_, hends.wire, ?_, hends.others⟩⟩
  · rw [record, hends.accepted]
    exact Carries.accepting hends.carries _
  · rw [record, hends.accepted]
    refine ⟨_, rfl, ?_⟩
    split
    · exact .inr ⟨answer, rfl⟩
    · exact .inl rfl

theorem open_acts (a : Act) {s : Sock} {bufs : List OffsetBuf} (h : Open s.toConn bufs)
    (hwait : s.close = true → bufs ≠ []) (hsent : s.wire ++ pending bufs = s.accepted) :
    ∃ s', a.step s = some s' ∧ Acts a s s' := by
  have hof : ∀ {o : Option Sock}, (∃ s', o = some s' ∧ Ends s s' (s.wire ++ pending bufs)) →
      ∃ s', o = some s' ∧ Acts a s s' := by
    rintro o ⟨s', rfl, hends⟩
    exact ⟨s', rfl, acts_of_ends (by rw [← hsent]; exact hends)⟩
  cases a with
  | write buf answer => exact write_acts buf answer h hwait hsent
  | readStart =>
    have hopen : ¬ s.closed = true := by rw [h.isOpen]; exact Bool.false_ne_true
    rw [Act.step, if_neg hopen]
    exact hof ⟨_, rfl, readStart_ends h hwait⟩
  | readStop => exact hof ⟨_, rfl, readStop_ends h hwait⟩
  | close => exact hof (hioClose_ends h)
  | eof => exact hof (hioClose_ends h)
  | readFailed errno => exact hof (hioFail_ends h errno)
  | timeout errno => exact hof (closeTimeout_ends errno h hwait)
  | writable answers => exact hof (handleWrite_ends answers h hwait)

theorem Dead.refailed {s : Sock} (h : Dead s.toConn) (errno : Nat) :
    Dead ({ s with error := errno } : Sock).toConn :=
  ⟨h.ready, h.closed, h.inactive, h.events, h.interest, h.queue, h.timer⟩

/-- A closed connection takes nothing over and sends nothing. -/
theorem dead_acts (a : Act) {s : Sock} (h : Dead s.toConn) (hsent : s.wire <+: s.accepted) :
    ∃ s', a.step s = some s' ∧ Acts a s s' := by
  have hsame : Acts a s s :=
    ⟨.inr ⟨h, hsent⟩, List.prefix_refl _, ⟨[], (List.append_nil _).symm, .inl rfl⟩, rfl⟩
  cases a with
  | write buf answer =>
    refine ⟨s, ?_, hsame⟩
    rw [Act.step, writeAct, hioWrite, if_pos h.closed, Option.map_some, record]
    simp
  | readStart => exact ⟨s, by rw [Act.step, if_pos h.closed], hsame⟩
  | readStop =>
    refine ⟨s, ?_, hsame⟩
    rw [Act.step, hioDel, if_neg (by rw [h.inactive]; exact Bool.false_ne_true)]
  | close => exact ⟨s, hioClose_dead h, hsame⟩
  | eof => exact ⟨s, hioClose_dead h, hsame⟩
  | readFailed errno =>
    exact ⟨_, hioClose_dead (Dead.refailed h errno),
      ⟨.inr ⟨Dead.refailed h errno, hsent⟩, List.prefix_refl _,
      ⟨[], (List.append_nil _).symm, .inl rfl⟩, rfl⟩⟩
  | timeout errno =>
    refine ⟨s, ?_, hsame⟩
    rw [Act.step, closeTimeout, if_neg (by rw [h.timer]; exact Bool.false_ne_true)]
  | writable answers =>
    refine ⟨s, ?_, hsame⟩
    rw [Act.step, handleWrite, if_neg (by rw [h.events]; exact Bool.false_ne_true)]

theorem act_acts (a : Act) {s : Sock} (h : Carries s.toConn s.accepted) :
    ∃ s', a.step s = some s' ∧ Acts a s s' := by
  rcases h with ⟨bufs, hopen, hwait, hsent⟩ | ⟨hdead, hsent⟩
  · exact open_acts a hopen hwait hsent
  · exact dead_acts a hdead hsent

/-! ## The table -/

/-- The table gets long enough. -/
theorem lt_grow (fd : Nat) {ios : List (Option Conn)} (h : 0 < ios.length) :
    fd < (grow fd ios).length := by
  rw [grow]
  split
  · next hle =>
    rw [List.length_append, List.length_replicate]
    split <;> omega
  · next hlt => omega

theorem grow_get (fd : Nat) (ios : List (Option Conn)) {i : Nat} {c : Conn}
    (h : (grow fd ios)[i]? = some (some c)) :
    ios[i]? = some (some c) := by
  rw [grow] at h
  split at h
  · rcases Nat.lt_or_ge i ios.length with hi | hi
    · rwa [List.getElem?_append_left hi] at h
    · have hnew : some (some c) ∈ List.map some (List.replicate _ none) :=
        List.mem_map_of_mem (List.mem_of_getElem? (by rwa [List.getElem?_append_right hi] at h))
      simp at hnew
  · exact h

/-- What the connections of the table add up to. -/
def total (f : Conn → Int) (ios : List (Option Conn)) : Int := (ios.map fun io => io.elim 0 f).sum

theorem total_set (f : Conn → Int) {ios : List (Option Conn)} {fd : Nat} {io : Option Conn}
    (h : ios[fd]? = some io) (io' : Option Conn) :
    total f (ios.set fd io') = total f ios - io.elim 0 f + io'.elim 0 f := by
  induction ios generalizing fd with
  | nil => cases h
  | cons x ios ih =>
    cases fd with
    | zero =>
      obtain rfl : x = io := by simpa using h
      simp [total]
      omega
    | succ fd =>
      have htail := ih (show ios[fd]? = some io by simpa using h)
      simp only [total, List.set_cons_succ, List.map_cons, List.sum_cons] at htail ⊢
      omega

theorem total_grow (f : Conn → Int) (fd : Nat) (ios : List (Option Conn)) :
    total f (grow fd ios) = total f ios := by
  rw [grow]
  split
  · simp [total]
  · rfl

def totals (ios : List (Option Conn)) : Counters where
  nactives := total (fun c => (contribution c).nactives) ios
  nios := total (fun c => (contribution c).nios) ios
  ntimers := total (fun c => (contribution c).ntimers) ios
  watched := total (fun c => (contribution c).watched) ios
  copies := total (fun c => (contribution c).copies) ios

/-- Every connection carries what it took over, and the loop counts them. -/
structure Loop.Sound (L : Loop) : Prop where
  carries : ∀ (fd : Nat) (c : Conn), L.ios[fd]? = some (some c) → Carries c c.accepted
  counted : L.counters = totals L.ios
  table : 0 < L.ios.length

/-- A step that changes the counters by what it changes of the connection. -/
theorem counted_set {ios : List (Option Conn)} {fd : Nat} {s s' : Sock}
    (h : ios[fd]? = some (some s.toConn)) (hcounted : s.toCounters = totals ios)
    (hothers : others s' = others s) :
    s'.toCounters = totals (ios.set fd (some s'.toConn)) := by
  obtain ⟨c, k⟩ := s
  obtain ⟨c', k'⟩ := s'
  simp only at hcounted
  subst hcounted
  simp only [others, totals, Counters.mk.injEq] at hothers
  obtain ⟨h1, h2, h3, h4, h5⟩ := hothers
  simp only [totals, total_set _ h, Option.elim_some]
  cases k'
  simp only [Counters.mk.injEq] at h1 h2 h3 h4 h5 ⊢
  exact ⟨by omega, by omega, by omega, by omega, by omega⟩

theorem act_sound {L : Loop} (h : L.Sound) {fd : Nat} {c : Conn}
    (hfd : L.ios[fd]? = some (some c)) (a : Act) :
    ∃ L', Event.step (.act fd a) L = some L' ∧ L'.Sound := by
  obtain ⟨s', hstep, hacts⟩ := act_acts a (s := ⟨c, L.counters⟩) (h.carries fd c hfd)
  refine ⟨⟨L.ios.set fd (some s'.toConn),
    s'.toCounters⟩, by simp only [Event.step, hfd, hstep, Option.map_some], ?_⟩
  refine ⟨fun fd' c' hc' => ?_, counted_set (s := ⟨c, L.counters⟩) hfd h.counted hacts.others,
    by rw [List.length_set]; exact h.table⟩
  by_cases hsame : fd = fd'
  · subst hsame
    rw [List.getElem?_set_self (by have := List.getElem?_eq_some_iff.mp hfd; exact this.1)] at hc'
    obtain rfl := Option.some.inj (Option.some.inj hc')
    exact hacts.carries
  · rw [List.getElem?_set_ne hsame] at hc'
    exact h.carries fd' c' hc'

/-- An open connection with nothing lost, and no failure so far. -/
structure Good (c : Conn) : Prop where
  queued : ∃ bufs, Open c bufs ∧ (c.close = true → bufs ≠ []) ∧ c.wire ++ pending bufs = c.accepted
  error : c.error = 0

/-- A descriptor that is taken into use again sends nothing of what was left. -/
theorem connReady_good {c : Conn} (h : Dead c ∨ c = Conn.zeroed) : Good (connReady c) := by
  rcases h with hdead | rfl
  · have hready : ¬ c.ready = true := by rw [hdead.ready]; exact Bool.false_ne_true
    have hthere : ¬ (⟨c, ⟨0, 0, 0, 0, 0⟩⟩ : Sock).ready = true := hready
    rw [connReady, if_neg hready, hioReady, if_neg hthere]
    refine ⟨⟨[],
      ⟨rfl, rfl, ⟨fun _ => rfl, ?_⟩, hdead.queue, by simp, fun hne => absurd rfl hne, rfl⟩,
      fun hc => (by cases hc), rfl⟩, rfl⟩
    rw [Events.mask_none]
    exact hdead.interest
  · exact ⟨⟨[],
      ⟨rfl, rfl, ⟨fun _ => rfl, rfl⟩, holds_zeroed, by simp, fun hne => absurd rfl hne, rfl⟩,
      fun hc => (by cases hc), rfl⟩, rfl⟩

theorem connReady_carries {c : Conn} (h : Carries c c.accepted ∨ c = Conn.zeroed) :
    Carries (connReady c) (connReady c).accepted ∧
      ∀ k : Counters, others ⟨connReady c, k⟩ = others ⟨c, k⟩ := by
  have hgood : ∀ c : Conn, Good c → Carries c c.accepted := fun c hgood => .inl hgood.queued
  rcases h with (⟨bufs, hopen, hwait, hsent⟩ | ⟨hdead, -⟩) | rfl
  · rw [connReady, if_pos hopen.ready]
    exact ⟨.inl ⟨bufs, hopen, hwait, hsent⟩, fun _ => rfl⟩
  · refine ⟨hgood _ (connReady_good (.inl hdead)), fun k => ?_⟩
    have hready : ¬ c.ready = true := by rw [hdead.ready]; exact Bool.false_ne_true
    have hthere : ¬ (⟨c, ⟨0, 0, 0, 0, 0⟩⟩ : Sock).ready = true := hready
    rw [connReady, if_neg hready, hioReady, if_neg hthere]
    simp [others, contribution, hdead.timer]
  · exact ⟨hgood _ (connReady_good (.inr rfl)), fun _ => rfl⟩

theorem totals_grow (fd : Nat) (ios : List (Option Conn)) : totals (grow fd ios) = totals ios := by
  simp only [totals, total_grow]

/-- An entry without an `hio_t` counts as much as a zeroed one. -/
theorem totals_fill {ios : List (Option Conn)} {fd : Nat} (h : ios[fd]? = some none) :
    totals (ios.set fd (some Conn.zeroed)) = totals ios := by
  simp [totals, total_set _ h, contribution, Conn.zeroed, NetmtQueue.zeroed]

theorem get_sound {L : Loop} (h : L.Sound) (fd : Nat) :
    ∃ L', Event.step (.get fd) L = some L' ∧ L'.Sound := by
  have hlt := lt_grow fd h.table
  obtain ⟨io, hio⟩ : ∃ io, (grow fd L.ios)[fd]? = some io := ⟨_, List.getElem?_eq_getElem hlt⟩
  have hold : Carries (io.getD Conn.zeroed) (io.getD Conn.zeroed).accepted ∨
      io.getD Conn.zeroed = Conn.zeroed := by
    cases io with
    | none => exact .inr rfl
    | some c => exact .inl (h.carries fd c (grow_get fd L.ios hio))
  obtain ⟨hcarries, hothers⟩ := connReady_carries hold
  refine ⟨⟨(grow fd L.ios).set fd (some (connReady (io.getD Conn.zeroed))), L.counters⟩,
    by simp only [Event.step, hioGet, hio, Option.map_some], ⟨fun fd' c' hc' => ?_, ?_, ?_⟩⟩
  · by_cases hsame : fd = fd'
    · subst hsame
      rw [List.getElem?_set_self hlt] at hc'
      obtain rfl := Option.some.inj (Option.some.inj hc')
      exact hcarries
    · rw [List.getElem?_set_ne hsame] at hc'
      exact h.carries fd' c' (grow_get fd L.ios hc')
  · -- first the zeroed `hio_t`, then what `hio_ready` makes of it
    have hfilled : L.counters = totals ((grow fd L.ios).set fd (some (io.getD Conn.zeroed))) := by
      rw [h.counted, ← totals_grow fd L.ios]
      cases io with
      | none => exact (totals_fill hio).symm
      | some c =>
        have hsame : (grow fd L.ios).set fd (some c) = grow fd L.ios := by
          obtain ⟨hfd, hget⟩ := List.getElem?_eq_some_iff.mp hio
          rw [← hget, List.set_getElem_self]
        rw [Option.getD_some, hsame]
    have hset := @counted_set ((grow fd L.ios).set fd (some (io.getD Conn.zeroed))) fd
      ⟨io.getD Conn.zeroed, L.counters⟩ ⟨connReady (io.getD Conn.zeroed), L.counters⟩
      (List.getElem?_set_self hlt) hfilled (hothers L.counters)
    rwa [List.set_set] at hset
  · rw [List.length_set]
    omega

theorem step_sound {L : Loop} (h : L.Sound) (ev : Event) :
    ∃ L', ev.step L = some L' ∧ L'.Sound := by
  cases ev with
  | get fd => exact get_sound h fd
  | act fd a =>
    by_cases hfd : ∃ c, L.ios[fd]? = some (some c)
    · obtain ⟨c, hc⟩ := hfd
      exact act_sound h hc a
    · refine ⟨L, ?_, h⟩
      rw [Event.step]
      split
      · next c hc => exact absurd ⟨c, hc⟩ hfd
      · rfl

theorem initial_sound : Loop.initial.Sound := by
  refine ⟨fun fd c hc => ?_, ?_, ?_⟩
  · have hnone := List.mem_of_getElem? hc
    rw [Loop.initial, List.mem_replicate] at hnone
    cases hnone.2
  · simp [Loop.initial, totals, total]
  · rw [Loop.initial, List.length_replicate]
    decide

/-- A run never stops, and every state it passes is sound. -/
theorem run_sound (es : List Event) {L : Loop} (h : L.Sound) :
    ∃ L', run es L = some L' ∧ L'.Sound := by
  induction es generalizing L with
  | nil => exact ⟨L, rfl, h⟩
  | cons ev es ih =>
    obtain ⟨L₁, hstep, hsound⟩ := step_sound h ev
    obtain ⟨L', hrun, hsound'⟩ := ih hsound
    exact ⟨L', by rw [run_cons, hstep, Option.bind_some, hrun], hsound'⟩

/-! ## What a run leaves -/

/-- In every run, at every descriptor: while the connection is open, the wire and then
the buffers of the queue are what was taken over; when it is closed, the wire ends
somewhere in it. -/
theorem stream_exact (es : List Event) :
    ∃ L, run es .initial = some L ∧ ∀ (fd : Nat) (c : Conn), L.ios[fd]? = some (some c) →
      (c.closed = false → ∃ bufs, Holds c.writeQueue bufs ∧ c.wire ++ pending bufs = c.accepted) ∧
        (c.closed = true → Holds c.writeQueue [] ∧ c.wire <+: c.accepted) := by
  obtain ⟨L, hrun, hsound⟩ := run_sound es initial_sound
  refine ⟨L, hrun, fun fd c hc => ?_⟩
  rcases hsound.carries fd c hc with ⟨bufs, hopen, -, hsent⟩ | ⟨hdead, hwire⟩
  · exact ⟨fun _ => ⟨bufs, hopen.queue, hsent⟩, fun hclosed =>
      absurd (hopen.isOpen.symm.trans hclosed) (by decide)⟩
  · exact ⟨fun hopen => absurd (hopen.symm.trans hdead.closed) (by decide), fun _ =>
      ⟨hdead.queue, hwire⟩⟩

/-- In every run: epoll watches each descriptor for just the events of its `hio_t`, for
writing whenever bytes are queued, and not at all once it is closed; and the counters of
the loop are those of the connections that are active, of the timers and the buffers
that there are. -/
theorem watch_exact (es : List Event) :
    ∃ L, run es .initial = some L ∧ L.counters = totals L.ios ∧
      ∀ (fd : Nat) (c : Conn), L.ios[fd]? = some (some c) →
        c.interest = c.events.mask ∧ (c.active = false → c.events = .none) ∧
          (c.writeQueue.size ≠ 0 → c.events.write = true ∧ c.active = true) ∧
          (c.closed = true → contribution c = ⟨0, 0, 0, 0, 0⟩) := by
  obtain ⟨L, hrun, hsound⟩ := run_sound es initial_sound
  refine ⟨L, hrun, hsound.counted, fun fd c hc => ?_⟩
  rcases hsound.carries fd c hc with ⟨bufs, hopen, -, -⟩ | ⟨hdead, -⟩
  · refine ⟨hopen.watching.interest, hopen.watching.active, fun hsize => ?_, fun hclosed => ?_⟩
    · have hwrite : c.events.write = true := hopen.watched fun hnil =>
        hsize (by rw [hopen.queue.size, hnil]; rfl)
      refine ⟨hwrite, ?_⟩
      by_contra hoff
      rw [hopen.watching.active (Bool.eq_false_iff.mpr hoff)] at hwrite
      exact Bool.false_ne_true hwrite
    · exact absurd (hopen.isOpen.symm.trans hclosed) (by decide)
  · refine ⟨hdead.watching.interest, hdead.watching.active,
      fun hsize => absurd hdead.queue.size hsize, fun _ => ?_⟩
    rw [contribution, hdead.inactive, hdead.timer, hdead.interest, hdead.queue.size]
    rfl

/-! ## A queue that is served -/

/-- The kernel takes bytes or is busy, but no write fails. -/
def Calm (answers : List Answer) : Prop := ∀ errno, .failed errno ∉ answers

/-- The rest of `sent` waits in the queue, and maybe a close with it. -/
structure Waiting (c : Conn) (sent : List UInt8) (close : Bool) : Prop where
  queued : ∃ bufs, bufs ≠ [] ∧ Open c bufs ∧ c.wire ++ pending bufs = sent
  close : c.close = close

/-- All of `sent` is on the wire, and a close that waited has happened. -/
structure Drained (c : Conn) (sent : List UInt8) (close : Bool) : Prop where
  wire : c.wire = sent
  closed : close = true → Dead c
  stillOpen : close = false → Open c [] ∧ c.close = false

theorem queueDone_drained {s : Sock} (h : Open s.toConn []) :
    ∃ s', queueDone s = some s' ∧ Drained s'.toConn s.wire s.close ∧
    (s'.closed = false → s'.error = s.error) := by
  obtain ⟨s', hdone, hends, hdead⟩ := queueDone_ends h
  refine ⟨s', hdone, ?_⟩
  by_cases hclose : s.close = true
  · refine ⟨⟨?_, fun _ => hdead hclose, fun hoff => absurd (hclose.symm.trans hoff) (by decide)⟩,
      fun hopen => absurd (hopen.symm.trans (hdead hclose).closed) (by decide)⟩
    rcases hends.carries with ⟨bufs, hopen, -, -⟩ | ⟨-, hwire⟩
    · exact absurd (hopen.isOpen.symm.trans (hdead hclose).closed) (by decide)
    · exact hwire.eq_of_length_le hends.wire.length_le
  · have hsame : s' = s := by
      rw [queueDone, if_neg hclose] at hdone
      exact (Option.some.inj hdone).symm
    rw [hsame]
    exact ⟨⟨rfl, fun hon => absurd hon hclose, fun hoff => ⟨h, hoff⟩⟩, fun _ => rfl⟩

/-- A pass of `nio_write` over calm answers: it drains the queue, or leaves it waiting,
with less in it if the kernel took anything. -/
theorem nioWrite_calm (answers : List Answer) (hcalm : Calm answers) {s : Sock}
    {bufs : List OffsetBuf} (h : Open s.toConn bufs) :
    ∃ s', nioWrite answers s = some s' ∧ s.wire <+: s'.wire ∧
      (Waiting s'.toConn (s.wire ++ pending bufs) s.close ∨
        Drained s'.toConn (s.wire ++ pending bufs) s.close) ∧
      (bufs ≠ [] → (∃ more, answers.head? = some (.took more)) → s.wire.length < s'.wire.length) ∧
      (s'.closed = false → s'.error = s.error) := by
  induction answers generalizing s bufs with
  | nil =>
    cases bufs with
    | nil =>
      obtain ⟨s', hdone, hdrained, herror⟩ := queueDone_drained h
      rw [nioWrite, if_pos (h.queue.empty_iff.mpr rfl), pending_nil, List.append_nil]
      exact ⟨s', hdone, by rw [hdrained.wire], .inr hdrained, fun hne => absurd rfl hne, herror⟩
    | cons b bufs =>
      rw [nioWrite, if_neg h.not_empty]
      exact ⟨s, rfl, List.prefix_refl _, .inl ⟨⟨b :: bufs, List.cons_ne_nil b bufs, h, rfl⟩, rfl⟩,
        fun _ hhead => hhead.elim fun _ h => (by cases h), fun _ => rfl⟩
  | cons answer answers ih =>
    cases bufs with
    | nil =>
      obtain ⟨s', hdone, hdrained, herror⟩ := queueDone_drained h
      rw [nioWrite, if_pos (h.queue.empty_iff.mpr rfl), pending_nil, List.append_nil]
      exact ⟨s', hdone, by rw [hdrained.wire], .inr hdrained, fun hne => absurd rfl hne, herror⟩
    | cons b bufs =>
      cases answer with
      | failed errno => exact absurd List.mem_cons_self (hcalm errno)
      | again =>
        have hfront : front s.writeQueue = some (some b) := front_spec h.queue
        simp only [nioWrite, if_neg h.not_empty, hfront, Option.bind_some]
        exact ⟨s, rfl, List.prefix_refl _, .inl ⟨⟨b :: bufs, List.cons_ne_nil b bufs, h, rfl⟩, rfl⟩,
          fun _ hhead => hhead.elim fun _ h => (by cases h), fun _ => rfl⟩
      | took more =>
        obtain ⟨s₁, bufs₁, bs, hopen, hsame, hbs, hwire, hmoved, hgoes⟩ :=
          nioWrite_took h more answers
        have hsent : s₁.wire ++ pending bufs₁ = s.wire ++ pending (b :: bufs) := by
          rw [hwire, List.append_assoc, hmoved]
        have hgrown : s.wire <+: s₁.wire := by rw [hwire]; exact List.prefix_append _ _
        have hlonger : s.wire.length < s₁.wire.length := by
          have hlen := List.length_pos_of_ne_nil hbs
          rw [hwire, List.length_append]
          omega
        rcases hgoes with ⟨hleft, hstops⟩ | hgoes
        · exact ⟨s₁, hstops, hgrown, .inl ⟨⟨bufs₁, hleft, hopen, hsent⟩, hsame.close⟩,
            fun _ _ => hlonger,
            fun _ => hsame.error⟩
        · obtain ⟨s', hrest, hwire', hend, -, herror⟩ :=
            ih (fun errno hmem => hcalm errno (List.mem_cons_of_mem _ hmem)) hopen
          rw [hsent, hsame.close] at hend
          exact ⟨s', hgoes.trans hrest, hgrown.trans hwire', hend,
            fun _ _ => Nat.lt_of_lt_of_le hlonger hwire'.length_le, fun hopen' =>
              (herror hopen').trans hsame.error⟩

theorem waiting_served {answers : List Answer} (hcalm : Calm answers) {s : Sock} {sent : List UInt8}
    {close : Bool} (h : Waiting s.toConn sent close) :
    ∃ s', handleWrite answers s = some s' ∧ s.wire <+: s'.wire ∧
      (Waiting s'.toConn sent close ∨ Drained s'.toConn sent close) ∧
      ((∃ more, answers.head? = some (.took more)) → s.wire.length < s'.wire.length) ∧
      (s'.closed = false → s'.error = s.error) := by
  obtain ⟨⟨bufs, hne, hopen, hsent⟩, hclose⟩ := h
  have hfull : ¬ s.writeQueue.empty = true := fun he => hne (hopen.queue.empty_iff.mp he)
  obtain ⟨s', hwrite, hgrown, hend, hlonger, herror⟩ := nioWrite_calm answers hcalm hopen
  rw [hsent, hclose] at hend
  exact ⟨s', (handleWrite_full answers (hopen.watched hne) hfull).trans hwrite, hgrown, hend,
    hlonger hne, herror⟩

/-- Nothing happens to a drained connection any more. -/
theorem drained_served (answers : List Answer) {s : Sock} {sent : List UInt8} {close : Bool}
    (h : Drained s.toConn sent close) :
    ∃ s', handleWrite answers s = some s' ∧ Drained s'.toConn sent close := by
  cases close with
  | true =>
    refine ⟨s, ?_, h⟩
    rw [handleWrite, if_neg (by rw [(h.closed rfl).events]; exact Bool.false_ne_true)]
  | false =>
    obtain ⟨hopen, hclose⟩ := h.stillOpen rfl
    obtain ⟨s', hwrite, hopen', hclose', hwire, -⟩ := handleWrite_idle answers hopen hclose
    exact ⟨s', hwrite, hwire.trans h.wire, fun hon => absurd hon (by decide), fun _ =>
      ⟨hopen', hclose'⟩⟩

def Event.fd : Event → Nat
  | .get fd => fd
  | .act fd _ => fd

/-- What happens at other descriptors leaves a connection alone. -/
theorem step_other {L L' : Loop} {ev : Event} (h : ev.step L = some L') {fd : Nat} {c : Conn}
    (hfd : L.ios[fd]? = some (some c)) (hother : ev.fd ≠ fd) : L'.ios[fd]? = some (some c) := by
  cases ev with
  | get fd' =>
    have hne : fd' ≠ fd := hother
    obtain ⟨io, -, rfl⟩ := Option.map_eq_some_iff.mp h
    have hkept : (grow fd' L.ios)[fd]? = some (some c) := by
      rw [grow]
      split
      · rw [List.getElem?_append_left (by have := List.getElem?_eq_some_iff.mp hfd; exact this.1)]
        exact hfd
      · exact hfd
    show ((grow fd' L.ios).set fd' _)[fd]? = some (some c)
    rw [List.getElem?_set_ne hne]
    exact hkept
  | act fd' a =>
    have hne : fd' ≠ fd := hother
    rw [Event.step] at h
    split at h
    · obtain ⟨s, -, rfl⟩ := Option.map_eq_some_iff.mp h
      show (L.ios.set fd' _)[fd]? = some (some c)
      rw [List.getElem?_set_ne hne]
      exact hfd
    · obtain rfl := Option.some.inj h
      exact hfd

/-- Events of a time in which a descriptor is only found writable, and no write to it
fails. -/
def Serves (fd : Nat) : Event → Prop
  | .act fd' (.writable answers) => fd' = fd → Calm answers
  | ev => ev.fd ≠ fd

/-- The kernel takes something at the descriptor. -/
def takes (fd : Nat) : Event → Bool
  | .act fd' (.writable (.took _ :: _)) => fd' == fd
  | _ => false

theorem serves_cases {fd : Nat} {ev : Event} (h : Serves fd ev) :
    (∃ answers, ev = .act fd (.writable answers) ∧ Calm answers) ∨
    (ev.fd ≠ fd ∧ takes fd ev = false) := by
  have hother : ∀ ev : Event, ev.fd ≠ fd → takes fd ev = false := by
    intro ev hne
    rw [takes.eq_def]
    split
    · exact beq_eq_false_iff_ne.mpr hne
    · rfl
  by_cases hfd : ev.fd = fd
  · cases ev with
    | get fd' => exact absurd hfd h
    | act fd' a =>
      cases a with
      | writable answers =>
        obtain rfl : fd' = fd := hfd
        exact .inl ⟨answers, rfl, h rfl⟩
      | write buf answer => exact absurd hfd h
      | readStart => exact absurd hfd h
      | readStop => exact absurd hfd h
      | close => exact absurd hfd h
      | eof => exact absurd hfd h
      | readFailed errno => exact absurd hfd h
      | timeout errno => exact absurd hfd h
  · exact .inr ⟨hfd, hother ev hfd⟩

/-- How far a served connection has got. -/
def Served (c : Conn) (sent : List UInt8) (close : Bool) (count : Nat) : Prop :=
  Drained c sent close ∨ (Waiting c sent close ∧ count ≤ c.wire.length)

theorem step_served {L : Loop} {fd : Nat} {c : Conn} {sent : List UInt8} {close : Bool}
    {count : Nat} (hsound : L.Sound) (hfd : L.ios[fd]? = some (some c))
    (h : Served c sent close count) {ev : Event} (hev : Serves fd ev) :
    ∃ L' c', ev.step L = some L' ∧ L'.Sound ∧ L'.ios[fd]? = some (some c') ∧
      Served c' sent close (count + (takes fd ev).toNat) := by
  obtain ⟨L', hstep, hsound'⟩ := step_sound hsound ev
  rcases serves_cases hev with ⟨answers, rfl, hcalm⟩ | ⟨hother, hnot⟩
  · have hlt := (List.getElem?_eq_some_iff.mp hfd).1
    have hset : ∀ s' : Sock, handleWrite answers ⟨c, L.counters⟩ = some s' →
        L'.ios[fd]? = some (some s'.toConn) := by
      intro s' hwrite
      simp only [Event.step, hfd, Act.step, hwrite, Option.map_some] at hstep
      obtain rfl := Option.some.inj hstep
      exact List.getElem?_set_self hlt
    rcases h with hdrained | ⟨hwaiting, hcount⟩
    · obtain ⟨s', hwrite, hstays⟩ := drained_served answers (s := ⟨c, L.counters⟩) hdrained
      exact ⟨L', s'.toConn, hstep, hsound', hset s' hwrite, .inl hstays⟩
    · obtain ⟨s', hwrite, hgrown, hend, hlonger, -⟩ :=
        waiting_served hcalm (s := ⟨c, L.counters⟩) hwaiting
      refine ⟨L', s'.toConn, hstep, hsound', hset s' hwrite, ?_⟩
      rcases hend with hwaits | hdrained
      · refine .inr ⟨hwaits, ?_⟩
        have hlen : c.wire.length ≤ s'.wire.length := hgrown.length_le
        rw [takes.eq_def]
        split
        · next fd' more rest heq =>
          cases heq
          have hmore : c.wire.length < s'.wire.length := hlonger ⟨more, rfl⟩
          simp only [beq_self_eq_true, Bool.toNat_true]
          omega
        · simp only [Bool.toNat_false]
          omega
      · exact .inl hdrained
  · rw [hnot]
    exact ⟨L', c, hstep, hsound', step_other hstep hfd hother, h⟩

theorem run_served (es : List Event) {L : Loop} {fd : Nat} {c : Conn} {sent : List UInt8}
    {close : Bool} {count : Nat} (hsound : L.Sound) (hfd : L.ios[fd]? = some (some c))
    (h : Served c sent close count) (hes : ∀ ev ∈ es, Serves fd ev) :
    ∃ L' c', run es L = some L' ∧ L'.ios[fd]? = some (some c') ∧
      Served c' sent close (count + es.countP (takes fd)) := by
  induction es generalizing L c count with
  | nil => exact ⟨L, c, rfl, hfd, h⟩
  | cons ev es ih =>
    obtain ⟨L₁, c₁, hstep, hsound₁, hfd₁, hserved₁⟩ :=
      step_served hsound hfd h (hes ev List.mem_cons_self)
    obtain ⟨L', c', hrun, hfd', hserved⟩ := ih hsound₁ hfd₁ hserved₁
      fun ev' hev' => hes ev' (List.mem_cons_of_mem ev hev')
    refine ⟨L', c', by rw [run_cons, hstep, Option.bind_some, hrun], hfd', ?_⟩
    have hcount : count + (ev :: es).countP (takes fd) = count + (takes fd ev).toNat +
        es.countP (takes fd) := by
      rw [List.countP_cons]
      cases takes fd ev with
      | true => simp only [if_true, Bool.toNat_true]; omega
      | false => simp
    rw [hcount]
    exact hserved

/-- Whatever came before: once a connection is only served, and the kernel takes
something as many times as there are bytes left, all that was taken over is on the
wire, and the connection is closed just if a close was waiting for that. -/
theorem queue_drains {es es' : List Event} {L : Loop} (hrun : run es .initial = some L) {fd : Nat}
    {c : Conn} (hfd : L.ios[fd]? = some (some c)) (hopen : c.closed = false)
    (hserved : ∀ ev ∈ es', Serves fd ev)
    (henough : c.accepted.length - c.wire.length ≤ es'.countP (takes fd)) :
    ∃ L' c', run es' L = some L' ∧ L'.ios[fd]? = some (some c') ∧ c'.wire = c.accepted ∧
    c'.closed = c.close := by
  obtain ⟨L₀, hrun₀, hsound⟩ := run_sound es initial_sound
  obtain rfl := Option.some.inj (hrun.symm.trans hrun₀)
  rcases hsound.carries fd c hfd with ⟨bufs, hopen', hwait, hsent⟩ | ⟨hdead, -⟩
  · have hstart : Served c c.accepted c.close c.wire.length := by
      by_cases hnil : bufs = []
      · subst hnil
        rw [pending_nil, List.append_nil] at hsent
        have hclose : c.close = false := Bool.eq_false_iff.mpr fun hc => hwait hc rfl
        exact .inl ⟨hsent, fun hon => absurd (hclose.symm.trans hon) (by decide), fun _ =>
          ⟨hopen', hclose⟩⟩
      · exact .inr ⟨⟨⟨bufs, hnil, hopen', hsent⟩, rfl⟩, Nat.le_refl _⟩
    obtain ⟨L', c', hrun', hfd', hend⟩ := run_served es' hsound hfd hstart hserved
    have hdrained : Drained c' c.accepted c.close := by
      rcases hend with hdrained | ⟨⟨⟨bufs', hne, hopen'', hsent'⟩, -⟩, hcount⟩
      · exact hdrained
      · -- more would be on the wire than was taken over
        have hleft : 0 < (pending bufs').length := by
          obtain ⟨b, bufs'', rfl⟩ := List.exists_cons_of_ne_nil hne
          have hrest :=
            List.length_pos_of_ne_nil (rest_ne_nil (hopen''.unwritten b List.mem_cons_self))
          rw [pending_cons, List.length_append]
          omega
        have hlen := congrArg List.length hsent'
        rw [List.length_append] at hlen
        omega
    refine ⟨L', c', hrun', hfd', hdrained.wire, ?_⟩
    cases hclose : c.close with
    | true => exact (hdrained.closed hclose).closed
    | false => exact (hdrained.stillOpen hclose).1.isOpen
  · exact absurd (hopen.symm.trans hdead.closed) (by decide)

/-- A connection with three bytes in its queue, and a close behind them. -/
def closing : Conn where
  ready := true
  closed := false
  close := true
  active := true
  error := 0
  events := .HV_WRITE
  writeQueue := ⟨[some ⟨[1, 2, 3], 0⟩, none, none, none], 1, 4, 0⟩
  closeTimer := true
  interest := some .HV_WRITE
  wire := []
  accepted := [1, 2, 3]

theorem run_closing : run [.get 5, .act 5 (.write [1, 2, 3] .again), .act 5 .close] .initial =
    some ⟨Loop.initial.ios.set 5 (some closing), ⟨2, 1, 1, 1, 1⟩⟩ := by
  have hlt : 5 < Loop.initial.ios.length := by
    rw [Loop.initial, List.length_replicate]
    decide
  have hnone : Loop.initial.ios[5]? = some none := by
    rw [Loop.initial, List.getElem?_replicate, if_pos (by decide)]
  have hgrow : grow 5 Loop.initial.ios = Loop.initial.ios := if_neg (by omega)
  have hget : hioGet 5 .initial =
      some ⟨Loop.initial.ios.set 5 (some (connReady Conn.zeroed)), ⟨0, 0, 0, 0, 0⟩⟩ := by
    simp only [hioGet, hgrow, hnone, Option.map_some, Option.getD_none]
    rfl
  rw [run_cons, Event.step, hget, Option.bind_some, run_cons]
  simp only [Event.step, List.getElem?_set_self hlt]
  rw [show Act.step (.write [1, 2, 3] .again) ⟨connReady Conn.zeroed, ⟨0, 0, 0, 0, 0⟩⟩ =
    some ⟨{ closing with close := false, closeTimer := false }, ⟨1, 1, 0, 1, 1⟩⟩ from rfl]
  rw [Option.map_some, Option.bind_some, run_cons]
  simp only [Event.step, List.set_set, List.getElem?_set_self hlt]
  rfl

/-- The kernel takes its three bytes one at a time. -/
theorem queue_drains_three :
    ∃ L' c', run (List.replicate 3 (.act 5 (.writable [.took 0])))
        ⟨Loop.initial.ios.set 5 (some closing), ⟨2, 1, 1, 1, 1⟩⟩ = some L' ∧
      L'.ios[5]? = some (some c') ∧ c'.wire = [1, 2, 3] ∧ c'.closed = true := by
  have hfd : (Loop.initial.ios.set 5 (some closing))[5]? = some (some closing) := by
    apply List.getElem?_set_self
    rw [Loop.initial, List.length_replicate]
    decide
  refine queue_drains run_closing hfd rfl ?_ (by decide)
  · intro ev hev
    obtain rfl := List.eq_of_mem_replicate hev
    intro _ errno hmem
    simp at hmem

/-! ## What a close loses -/

/-- An act with which nothing fails. -/
def GentleAct : Act → Prop
  | .write _ answer => ∀ errno, answer ≠ .failed errno
  | .readFailed _ => False
  | .timeout _ => False
  | .writable answers => Calm answers
  | _ => True

def closes : Act → Bool
  | .close => true
  | .eof => true
  | _ => false

/-- A closed connection that sent all it took over. -/
def Complete (c : Conn) : Prop := Dead c ∧ c.wire = c.accepted

/-- A closed connection that lost something. -/
def Cut (c : Conn) : Prop := Dead c ∧ c.wire ≠ c.accepted

theorem pending_ne_nil {c : Conn} {bufs : List OffsetBuf} (h : Open c bufs) (hne : bufs ≠ []) :
    pending bufs ≠ [] := by
  obtain ⟨b, bufs', rfl⟩ := List.exists_cons_of_ne_nil hne
  rw [pending_cons]
  exact List.append_ne_nil_of_left_ne_nil (rest_ne_nil (h.unwritten b List.mem_cons_self)) _

/-- A close of a connection without failure cuts it just if a close is waiting. -/
theorem close_good {s : Sock} (h : Good s.toConn) :
    ∃ s', hioClose s = some s' ∧
      if s.close = true then Cut s'.toConn else Good s'.toConn ∨ Complete s'.toConn := by
  obtain ⟨⟨bufs, hopen, hwait, hsent⟩, herror⟩ := h
  obtain ⟨s', hclosed, hwire, haccepted, -, hend⟩ := hioClose_spec hopen
  refine ⟨s', hclosed, ?_⟩
  by_cases hclose : s.close = true
  · rw [if_neg fun hall => absurd (hclose.symm.trans hall.2.2) (by decide)] at hend
    rw [if_pos hclose]
    refine ⟨hend, fun heq => pending_ne_nil hopen (hwait hclose) ?_⟩
    rw [hwire, haccepted, ← hsent] at heq
    exact List.self_eq_append_right.mp heq
  · rw [if_neg hclose]
    by_cases hnil : bufs = []
    · rw [if_neg fun hall => hall.1 hnil] at hend
      refine .inr ⟨hend, ?_⟩
      rw [hwire, haccepted, ← hsent, hnil, pending_nil, List.append_nil]
    · have hoff : s.close = false := Bool.eq_false_iff.mpr hclose
      rw [if_pos ⟨hnil, herror, hoff⟩] at hend
      exact .inl ⟨⟨bufs, hend.1, fun _ => hnil, by rw [hwire, haccepted, hsent]⟩, hend.2.2⟩

theorem write_good {buf : List UInt8} {answer : Answer} (hcalm : ∀ errno, answer ≠ .failed errno)
    {s : Sock} (h : Good s.toConn) :
    ∃ s', writeAct buf answer s = some s' ∧ (Good s'.toConn ∨ Complete s'.toConn) := by
  obtain ⟨⟨bufs, hopen, hwait, hsent⟩, herror⟩ := h
  obtain ⟨r, s₁, hwrite, hends⟩ := hioWrite_ends hopen hwait buf answer
  obtain ⟨hr, hsame⟩ := hioWrite_calm hopen hcalm hwrite
  rw [hsent, if_pos hr] at hends
  have haccepted : (record buf r s₁).accepted = s.accepted ++ buf := by
    rw [record, if_pos hr, ← hends.accepted]
  refine ⟨record buf r s₁, by rw [writeAct, hwrite, Option.map_some], ?_⟩
  rcases hends.carries with ⟨bufs', hopen', hwait', hsent'⟩ | ⟨hdead, hwire⟩
  · refine .inl ⟨⟨bufs', ?_, hwait', hsent'.trans haccepted.symm⟩, ?_⟩
    · exact ⟨hopen'.ready, hopen'.isOpen, ⟨hopen'.watching.active, hopen'.watching.interest⟩,
        hopen'.queue, hopen'.unwritten, hopen'.watched, hopen'.timer⟩
    · rcases hsame with ⟨hkept, -⟩ | ⟨-, -, hclosed⟩
      · exact hkept.trans herror
      · exact absurd (hopen'.isOpen.symm.trans hclosed) (by decide)
  · refine .inr
      ⟨⟨hdead.ready, hdead.closed, hdead.inactive, hdead.events, hdead.interest,
        hdead.queue, hdead.timer⟩,
      ?_⟩
    rcases hsame with ⟨-, -, hstill⟩ | ⟨hnil, hbuf, -⟩
    · exact absurd (hstill.symm.trans hdead.closed) (by decide)
    · -- nothing was queued, and nothing was to be written
      have hold : s.wire = s.accepted := by rw [← hsent, hnil, pending_nil, List.append_nil]
      rw [haccepted, hbuf, List.append_nil]
      rw [hbuf, List.append_nil] at hwire
      have hgrown := hends.wire
      rw [hold] at hgrown
      exact hwire.eq_of_length_le hgrown.length_le

theorem writable_good {answers : List Answer} (hcalm : Calm answers) {s : Sock}
    (h : Good s.toConn) :
    ∃ s', handleWrite answers s = some s' ∧ (Good s'.toConn ∨ Complete s'.toConn) := by
  obtain ⟨⟨bufs, hopen, hwait, hsent⟩, herror⟩ := h
  obtain ⟨s₀, hends₀, hends⟩ := handleWrite_ends answers hopen hwait
  by_cases hnil : bufs = []
  · subst hnil
    have hclose : s.close = false := Bool.eq_false_iff.mpr fun hc => hwait hc rfl
    obtain ⟨s', hwrite, hopen', hclose', hwire, haccepted, herror'⟩ :=
      handleWrite_idle answers hopen hclose
    refine ⟨s', hwrite,
      .inl ⟨⟨[], hopen', fun hc => absurd (hclose'.symm.trans hc) (by decide), ?_⟩,
      herror'.trans herror⟩⟩
    rw [hwire, haccepted, hsent]
  · obtain ⟨s', hwrite, -, hend, -, hkept⟩ := waiting_served hcalm ⟨⟨bufs, hnil, hopen, hsent⟩, rfl⟩
    obtain rfl := Option.some.inj (hends₀.symm.trans hwrite)
    refine ⟨s₀, hwrite, ?_⟩
    rcases hend with ⟨⟨bufs', hne, hopen', hsent'⟩, -⟩ | hdrained
    · exact .inl ⟨⟨bufs', hopen', fun _ => hne, hsent'.trans hends.accepted.symm⟩,
        (hkept hopen'.isOpen).trans herror⟩
    · cases hclose : s.close with
      | true => exact .inr ⟨hdrained.closed hclose, hdrained.wire.trans hends.accepted.symm⟩
      | false =>
        obtain ⟨hopen', hclose'⟩ := hdrained.stillOpen hclose
        refine .inl ⟨⟨[], hopen', fun hc => absurd (hclose'.symm.trans hc) (by decide), ?_⟩,
          (hkept hopen'.isOpen).trans herror⟩
        rw [pending_nil, List.append_nil, hdrained.wire, hends.accepted]

/-- Any gentle act but a close while one is waiting leaves a good connection good, or
closed with all it took over on the wire. -/
theorem act_good {a : Act} (ha : GentleAct a) {s : Sock} (h : Good s.toConn) :
    ∃ s', a.step s = some s' ∧
      if closes a = true ∧ s.close = true then Cut s'.toConn else Good s'.toConn ∨
        Complete s'.toConn := by
  have hclosing : ∃ s', hioClose s = some s' ∧
      if true = true ∧ s.close = true then Cut s'.toConn else Good s'.toConn ∨
        Complete s'.toConn := by
    simp only [true_and]
    exact close_good h
  have hother : ∀ {o : Option Sock}, (∃ s', o = some s' ∧ (Good s'.toConn ∨ Complete s'.toConn)) →
      ∃ s', o = some s' ∧
        if false = true ∧ s.close = true then Cut s'.toConn else Good s'.toConn ∨
          Complete s'.toConn := by
    rintro o ⟨s', rfl, hend⟩
    exact ⟨s', rfl, by rw [if_neg fun hall => absurd hall.1 (by decide)]; exact hend⟩
  obtain ⟨⟨bufs, hopen, hwait, hsent⟩, herror⟩ := id h
  cases a with
  | write buf answer => exact hother (write_good ha h)
  | readStart =>
    have hnot : ¬ s.closed = true := by rw [hopen.isOpen]; exact Bool.false_ne_true
    obtain ⟨hopen', hwire, haccepted, hclose, -, -⟩ := hioAdd_open (.inl rfl) hopen
    refine hother ⟨hioAdd .HV_READ s, by rw [Act.step, if_neg hnot],
      .inl ⟨⟨bufs, hopen', by rw [hclose]; exact hwait, by rw [hwire, haccepted, hsent]⟩, ?_⟩⟩
    rw [hioAdd_eq (.inl rfl) hopen.ready hopen.watching]
    exact herror
  | readStop =>
    obtain ⟨hopen', hwire, haccepted, hclose, herror'⟩ := readStop_open hopen
    exact hother ⟨hioDel .HV_READ s, rfl,
      .inl ⟨⟨bufs, hopen', by rw [hclose]; exact hwait, by rw [hwire, haccepted, hsent]⟩,
        herror'.trans herror⟩⟩
  | close => exact hclosing
  | eof => exact hclosing
  | readFailed errno => exact absurd ha id
  | timeout errno => exact absurd ha id
  | writable answers => exact hother (writable_good ha h)

/-- Nothing changes what a closed connection sent, and what it took over. -/
theorem act_dead (a : Act) {s : Sock} (h : Dead s.toConn) :
    ∃ s', a.step s = some s' ∧ Dead s'.toConn ∧ s'.wire = s.wire ∧ s'.accepted = s.accepted := by
  cases a with
  | write buf answer =>
    refine ⟨s, ?_, h, rfl, rfl⟩
    rw [Act.step, writeAct, hioWrite, if_pos h.closed, Option.map_some, record]
    simp
  | readStart => exact ⟨s, by rw [Act.step, if_pos h.closed], h, rfl, rfl⟩
  | readStop =>
    exact ⟨s, by rw [Act.step, hioDel, if_neg (by rw [h.inactive]; exact Bool.false_ne_true)],
      h, rfl, rfl⟩
  | close => exact ⟨s, hioClose_dead h, h, rfl, rfl⟩
  | eof => exact ⟨s, hioClose_dead h, h, rfl, rfl⟩
  | readFailed errno =>
    exact ⟨_, hioClose_dead (Dead.refailed h errno), Dead.refailed h errno, rfl, rfl⟩
  | timeout errno =>
    exact ⟨s, by rw [Act.step, closeTimeout, if_neg (by rw [h.timer]; exact Bool.false_ne_true)],
      h, rfl, rfl⟩
  | writable answers =>
    exact ⟨s, by rw [Act.step, handleWrite, if_neg (by rw [h.events]; exact Bool.false_ne_true)],
      h, rfl, rfl⟩

/-- At the descriptor nothing fails, and it is not taken into use again. -/
def Gentle (fd : Nat) : Event → Prop
  | .get fd' => fd' ≠ fd
  | .act fd' a => fd' = fd → GentleAct a

/-- An open connection with a close that waits for its queue. -/
def CloseWaits (fd : Nat) (L : Loop) : Prop :=
  ∃ c, L.ios[fd]? = some (some c) ∧ c.closed = false ∧ c.close = true

def closesAt (fd : Nat) : Event → Prop
  | .get _ => False
  | .act fd' a => fd' = fd ∧ closes a = true

/-- Somewhere in the run a close comes while one is waiting. -/
def Hurried (fd : Nat) : List Event → Loop → Prop
  | [], _ => False
  | ev :: es, L => (closesAt fd ev ∧ CloseWaits fd L) ∨ ∃ L', ev.step L = some L' ∧ Hurried fd es L'

theorem run_dead (es : List Event) {L L' : Loop} {fd : Nat} {c c' : Conn}
    (hgentle : ∀ ev ∈ es, Gentle fd ev) (hrun : run es L = some L')
    (hfd : L.ios[fd]? = some (some c)) (hdead : Dead c) (hfd' : L'.ios[fd]? = some (some c')) :
    c'.wire = c.wire ∧ c'.accepted = c.accepted ∧ ¬ Hurried fd es L := by
  induction es generalizing L c with
  | nil =>
    obtain rfl := Option.some.inj hrun
    obtain rfl := Option.some.inj (Option.some.inj (hfd.symm.trans hfd'))
    exact ⟨rfl, rfl, id⟩
  | cons ev es ih =>
    rw [run_cons] at hrun
    obtain ⟨L₁, hstep, hrun⟩ := Option.bind_eq_some_iff.mp hrun
    have hnext : ∃ c₁, L₁.ios[fd]? = some (some c₁) ∧ Dead c₁ ∧ c₁.wire = c.wire ∧
        c₁.accepted = c.accepted := by
      by_cases hother : ev.fd = fd
      · cases ev with
        | get fd' => exact absurd hother (hgentle _ List.mem_cons_self)
        | act fd' a =>
          obtain rfl : fd' = fd := hother
          obtain ⟨s', hact, hdead', hwire, haccepted⟩ := act_dead a (s := ⟨c, L.counters⟩) hdead
          simp only [Event.step, hfd, hact, Option.map_some] at hstep
          obtain rfl := Option.some.inj hstep
          exact ⟨s'.toConn, List.getElem?_set_self (List.getElem?_eq_some_iff.mp hfd).1, hdead',
            hwire, haccepted⟩
      · exact ⟨c, step_other hstep hfd hother, hdead, rfl, rfl⟩
    obtain ⟨c₁, hfd₁, hdead₁, hwire₁, haccepted₁⟩ := hnext
    obtain ⟨hwire, haccepted, hnot⟩ :=
      ih (fun ev' hev' => hgentle ev' (List.mem_cons_of_mem ev hev')) hrun hfd₁ hdead₁
    refine ⟨hwire.trans hwire₁, haccepted.trans haccepted₁, ?_⟩
    rintro (⟨-, c₀, hc₀, hopen, -⟩ | ⟨L₁', hstep', hlater⟩)
    · obtain rfl := Option.some.inj (Option.some.inj (hfd.symm.trans hc₀))
      exact absurd (hopen.symm.trans hdead.closed) (by decide)
    · obtain rfl := Option.some.inj (hstep.symm.trans hstep')
      exact hnot hlater

theorem run_good (es : List Event) {L L' : Loop} {fd : Nat} {c c' : Conn}
    (hgentle : ∀ ev ∈ es, Gentle fd ev) (hrun : run es L = some L')
    (hfd : L.ios[fd]? = some (some c)) (hgood : Good c) (hfd' : L'.ios[fd]? = some (some c'))
    (hclosed : c'.closed = true) :
    c'.wire = c'.accepted ↔ ¬ Hurried fd es L := by
  induction es generalizing L c with
  | nil =>
    obtain rfl := Option.some.inj hrun
    obtain rfl := Option.some.inj (Option.some.inj (hfd.symm.trans hfd'))
    obtain ⟨⟨bufs, hopen, -⟩, -⟩ := hgood
    exact absurd (hopen.isOpen.symm.trans hclosed) (by decide)
  | cons ev es ih =>
    rw [run_cons] at hrun
    obtain ⟨L₁, hstep, htail⟩ := Option.bind_eq_some_iff.mp hrun
    have hrest : ∀ ev' ∈ es, Gentle fd ev' :=
      fun ev' hev' => hgentle ev' (List.mem_cons_of_mem ev hev')
    have hlater : ¬ (closesAt fd ev ∧ CloseWaits fd L) →
        (Hurried fd (ev :: es) L ↔ Hurried fd es L₁) := by
      intro hnow
      constructor
      · rintro (hnow' | ⟨L₁', hstep', hlater⟩)
        · exact absurd hnow' hnow
        · obtain rfl := Option.some.inj (hstep.symm.trans hstep')
          exact hlater
      · exact fun hlater => .inr ⟨L₁, hstep, hlater⟩
    by_cases hother : ev.fd = fd
    · cases ev with
      | get fd' => exact absurd hother (hgentle _ List.mem_cons_self)
      | act fd' a =>
        obtain rfl : fd' = fd := hother
        obtain ⟨s', hact, hend⟩ :=
          act_good (hgentle _ List.mem_cons_self rfl) (s := ⟨c, L.counters⟩) hgood
        simp only [Event.step, hfd, hact, Option.map_some] at hstep
        have hL₁ := Option.some.inj hstep
        have hfd₁ : L₁.ios[fd']? = some (some s'.toConn) := by
          rw [← hL₁]
          exact List.getElem?_set_self (List.getElem?_eq_some_iff.mp hfd).1
        have hopen : c.closed = false := by
          obtain ⟨⟨bufs, hopen, -⟩, -⟩ := hgood
          exact hopen.isOpen
        split at hend
        · next hnow =>
          obtain ⟨hwire, haccepted, -⟩ := run_dead es hrest htail hfd₁ hend.1 hfd'
          refine ⟨fun heq => absurd ?_ hend.2, fun hnot =>
            absurd (.inl ⟨⟨rfl, hnow.1⟩, c, hfd, hopen, hnow.2⟩) hnot⟩
          rw [← hwire, ← haccepted]
          exact heq
        · next hnow =>
          have hnot : ¬ (closesAt fd' (.act fd' a) ∧ CloseWaits fd' L) := by
            rintro ⟨⟨-, hcloses⟩, c₀, hc₀, -, hwaits⟩
            obtain rfl := Option.some.inj (Option.some.inj (hfd.symm.trans hc₀))
            exact hnow ⟨hcloses, hwaits⟩
          rw [hlater hnot]
          rcases hend with hgood₁ | ⟨hdead, hwire⟩
          · exact ih hrest htail hfd₁ hgood₁
          · obtain ⟨hwire', haccepted', hquiet⟩ := run_dead es hrest htail hfd₁ hdead hfd'
            exact ⟨fun _ => hquiet, fun _ => by rw [hwire', haccepted', hwire]⟩
    · have hnot : ¬ (closesAt fd ev ∧ CloseWaits fd L) := by
        rintro ⟨hat, -⟩
        cases ev with
        | get fd' => exact hat
        | act fd' a => exact hother hat.1
      rw [hlater hnot]
      exact ih hrest htail (step_other hstep hfd hother) hgood

/-- A connection from when its descriptor is taken into use until it is closed, with no
failure in between: all that it took over was sent, unless a second close came while one
was waiting for the queue. -/
theorem close_complete_iff {es es' : List Event} {L L' : Loop} {fd : Nat} {c' : Conn}
    (hrun : run es .initial = some L) (hunused : ∀ c, L.ios[fd]? = some (some c) → c.closed = true)
    (hrun' : run (.get fd :: es') L = some L') (hgentle : ∀ ev ∈ es', Gentle fd ev)
    (hfd' : L'.ios[fd]? = some (some c')) (hclosed : c'.closed = true) :
    c'.wire = c'.accepted ↔ ¬ Hurried fd (.get fd :: es') L := by
  obtain ⟨L₀, hrun₀, hsound⟩ := run_sound es initial_sound
  obtain rfl := Option.some.inj (hrun.symm.trans hrun₀)
  rw [run_cons] at hrun'
  obtain ⟨L₁, hstep, hrest⟩ := Option.bind_eq_some_iff.mp hrun'
  obtain ⟨io, hio, hL₁⟩ := Option.map_eq_some_iff.mp hstep
  have hlt := lt_grow fd hsound.table
  have hfd₁ : L₁.ios[fd]? = some (some (connReady (io.getD Conn.zeroed))) := by
    rw [← hL₁]
    exact List.getElem?_set_self hlt
  have hgood : Good (connReady (io.getD Conn.zeroed)) := by
    cases io with
    | none => exact connReady_good (.inr rfl)
    | some c =>
      have hold := grow_get fd L.ios hio
      rcases hsound.carries fd c hold with ⟨bufs, hopen, -, -⟩ | ⟨hdead, -⟩
      · exact absurd (hopen.isOpen.symm.trans (hunused c hold)) (by decide)
      · exact connReady_good (.inl hdead)
  have hiff := run_good es' hgentle hrest hfd₁ hgood hfd' hclosed
  rw [hiff]
  constructor
  · rintro hnot (⟨hat, -⟩ | ⟨L₁', hstep', hlater⟩)
    · exact hat
    · obtain rfl := Option.some.inj (hstep.symm.trans hstep')
      exact hnot hlater
  · exact fun hnot hlater => hnot (.inr ⟨L₁, hstep, hlater⟩)

/-- Behind the close that waits, the kernel takes all three bytes. -/
theorem close_complete_three :
    ∃ L' c', run [.get 5, .act 5 (.write [1, 2, 3] .again), .act 5 .close,
      .act 5 (.writable [.took 2])] .initial =
        some L' ∧ L'.ios[5]? = some (some c') ∧ c'.closed = true ∧
      (c'.wire = c'.accepted ↔ ¬ Hurried 5 [.get 5, .act 5 (.write [1, 2, 3] .again), .act 5 .close,
        .act 5 (.writable [.took 2])] .initial) := by
  have hlt : 5 < Loop.initial.ios.length := by
    rw [Loop.initial, List.length_replicate]
    decide
  have hnone : Loop.initial.ios[5]? = some none := by
    rw [Loop.initial, List.getElem?_replicate, if_pos (by decide)]
  let sent : Conn := { closing with
    ready := false, closed := true, close := false, active := false, events := .none
    writeQueue := ⟨[], 0, 0, 0⟩, closeTimer := false, interest := none, wire := [1, 2, 3] }
  have hstep : run [.act 5 (.writable [.took 2])] ⟨Loop.initial.ios.set 5 (some closing),
    ⟨2, 1, 1, 1, 1⟩⟩ =
      some ⟨Loop.initial.ios.set 5 (some sent), ⟨0, 0, 0, 0, 0⟩⟩ := by
    rw [run_cons]
    simp only [Event.step, List.set_set, List.getElem?_set_self hlt]
    rfl
  have hrun : run [.get 5, .act 5 (.write [1, 2, 3] .again), .act 5 .close,
    .act 5 (.writable [.took 2])] .initial =
      some ⟨Loop.initial.ios.set 5 (some sent), ⟨0, 0, 0, 0, 0⟩⟩ := by
    rw [← hstep]
    have hfirst := run_closing
    rw [run] at hfirst ⊢
    rw [show ([.get 5, .act 5 (.write [1, 2, 3] .again), .act 5 .close,
      .act 5 (.writable [.took 2])] : List Event) =
      [.get 5, .act 5 (.write [1, 2, 3] .again), .act 5 .close] ++
        [.act 5 (.writable [.took 2])] from rfl,
      List.foldlM_append, hfirst]
    rfl
  have hfd : (Loop.initial.ios.set 5 (some sent))[5]? = some (some sent) :=
    List.getElem?_set_self hlt
  refine ⟨_, sent, hrun, hfd, rfl,
    close_complete_iff (show run [] .initial = some .initial from rfl) ?_ hrun ?_ hfd rfl⟩
  · intro c hc
    rw [hnone] at hc
    cases hc
  · intro ev hev
    simp only [List.mem_cons, List.not_mem_nil, or_false] at hev
    rcases hev with rfl | rfl | rfl
    · intro _ errno hfail
      cases hfail
    · exact fun _ => trivial
    · intro _ errno hmem
      simp at hmem

end NetmtWriteStream
