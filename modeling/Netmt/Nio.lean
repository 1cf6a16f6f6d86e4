import Netmt.Queue
import Mathlib.Data.Int.Basic

/-!
# Writing to a connection

`hio_write` hands bytes to the kernel, and what the kernel does not take goes into
`write_queue`, which `nio_write` empties when the descriptor is writable. A close
waits until the queue is empty. Each call runs under `write_mutex`; what the kernel
answers to a write is a parameter of it. The connection is a TCP socket with no
callback but those for reading and closing, as in both programs. All calls come from
the thread of the loop: what `hio_close` posts to the loop where another thread calls it,
as the server's console does behind a failed write, is not looked at here.
-/
namespace NetmtNio

open NetmtQueue

/-- `HV_READ` and `HV_WRITE`. -/
structure Events where
  read : Bool
  write : Bool
  deriving DecidableEq, Repr

namespace Events

def none : Events := ⟨false, false⟩
def HV_READ : Events := ⟨true, false⟩
def HV_WRITE : Events := ⟨false, true⟩
def HV_RDWR : Events := ⟨true, true⟩

/-- `a | b` -/
def or (a b : Events) : Events := ⟨a.read || b.read, a.write || b.write⟩

/-- `a & ~b` -/
def without (a b : Events) : Events := ⟨a.read && !b.read, a.write && !b.write⟩

/-- `(a & b) != 0` -/
def meets (a b : Events) : Bool := (a.read && b.read) || (a.write && b.write)

end Events

/-- `offset_buf_t`: a copy of a buffer, and how much of it is written. -/
structure OffsetBuf where
  base : List UInt8
  offset : Nat
  deriving DecidableEq, Repr

def OffsetBuf.rest (b : OffsetBuf) : List UInt8 := b.base.drop b.offset

/-- What an `hio_t` and the kernel know of a descriptor: `interest` is what epoll
watches it for, `wire` what the kernel took to send, and `accepted` what the calls of
`hio_write` that did not fail were given. -/
structure Conn where
  ready : Bool
  closed : Bool
  close : Bool
  active : Bool
  error : Nat
  events : Events
  writeQueue : Queue OffsetBuf
  closeTimer : Bool
  interest : Option Events
  wire : List UInt8
  accepted : List UInt8

/-- What the loop counts. `watched` is the size of epoll's array of events, `copies`
the buffers in memory that were allocated for write queues. -/
structure Counters where
  nactives : Int
  nios : Int
  ntimers : Int
  watched : Int
  copies : Int
  deriving DecidableEq, Repr

/-- A connection with the counters of its loop. -/
structure Sock extends Conn, Counters

/-! ## Events and timers -/

/-- `epoll_ctl` with `EPOLL_CTL_ADD`, which refuses what it watches. -/
def epollAdd (ee : Events) : Option Events → Option Events
  | .none => some ee
  | some old => some old

/-- `EPOLL_CTL_MOD` -/
def epollMod (ee : Events) : Option Events → Option Events
  | .none => .none
  | some _ => some ee

def iowatcherAddEvent (ev : Events) (s : Sock) : Sock :=
  let ee := s.events.or ev
  if s.events = .none then { s with interest := epollAdd ee s.interest, watched := s.watched + 1 }
  else { s with interest := epollMod ee s.interest }

def iowatcherDelEvent (ev : Events) (s : Sock) : Sock :=
  let ee := s.events.without ev
  if ee = .none then { s with interest := none, watched := s.watched - 1 }
  else { s with interest := epollMod ee s.interest }

/-- A descriptor that is taken into use starts its history again. -/
def hioReady (s : Sock) : Sock :=
  if s.ready then s
  else
    { s with
      ready := true
      closed := false
      close := false
      error := 0
      events := .none
      closeTimer := false }

def hioAdd (ev : Events) (s : Sock) : Sock :=
  let s := if s.active then s
    else { s with active := true, nactives := s.nactives + 1, nios := s.nios + 1 }
  let s := hioReady s
  if s.events.meets ev then s else { iowatcherAddEvent ev s with events := s.events.or ev }

def hioDel (ev : Events) (s : Sock) : Sock :=
  if s.active then
    let s := if s.events.meets ev then
      { iowatcherDelEvent ev s with events := s.events.without ev } else s
    if s.events = .none then
      { s with nios := s.nios - 1, active := false, nactives := s.nactives - 1 } else s
  else s

/-- `htimer_add` of the close timer. -/
def addCloseTimer (s : Sock) : Sock :=
  { s with closeTimer := true, nactives := s.nactives + 1, ntimers := s.ntimers + 1 }

/-- `htimer_del` in `__close_cb`. -/
def delCloseTimer (s : Sock) : Sock :=
  if s.closeTimer then
    { s with closeTimer := false, nactives := s.nactives - 1, ntimers := s.ntimers - 1 } else s

/-! ## Closing -/

/-- The loop of `hio_done`: as many buffers are freed as the queue has. -/
def freeAll : Nat → Sock → Option Sock
  | 0, s => some s
  | n + 1, s =>
    if s.writeQueue.empty then some s
    else (popFront s.writeQueue).bind fun q =>
      freeAll n { s with writeQueue := q, copies := s.copies - 1 }

def hioDone (s : Sock) : Option Sock :=
  if s.ready then
    let s := hioDel .HV_RDWR { s with ready := false }
    (freeAll s.writeQueue.size s).map fun s => { s with writeQueue := cleanup s.writeQueue }
  else some s

/-- The last part of `hio_close`. The kernel forgets a closed descriptor. -/
def closeNow (s : Sock) : Option Sock :=
  (hioDone { s with closed := true }).map fun s => { delCloseTimer s with interest := none }

/-- `hio_close` on the thread of the loop, where `hv_gettid() == io->loop->tid`. -/
def hioClose (s : Sock) : Option Sock :=
  if s.closed then some s
  else if !s.writeQueue.empty && s.error == 0 && !s.close then
    some (addCloseTimer { s with close := true })
  else closeNow s

/-- `__close_timeout_cb`, as long as the timer is there. -/
def closeTimeout (ETIMEDOUT : Nat) (s : Sock) : Option Sock :=
  if s.closeTimer then hioClose { s with error := ETIMEDOUT } else some s

/-! ## Writing -/

/-- What the kernel answers to a write: it takes a byte at least, or it is busy, or it
fails. -/
inductive Answer where
  | took (more : Nat)
  | again
  | failed (errno : Nat)
  deriving DecidableEq, Repr

/-- `__nio_write`: the bytes taken. -/
def Answer.count (more : Nat) (buf : List UInt8) : Nat := min (more + 1) buf.length

/-- `write_queue_push_back` of the rest of a buffer. -/
def pushRest (buf : List UInt8) (nwrite : Nat) (s : Sock) : Option Sock :=
  if nwrite < buf.length then
    let q := if s.writeQueue.maxsize = 0 then init 4 else s.writeQueue
    (pushBack ⟨buf, nwrite⟩ q).map fun q => { s with writeQueue := q, copies := s.copies + 1 }
  else some s

/-- `enqueue:` -/
def enqueue (buf : List UInt8) (nwrite : Nat) (s : Sock) : Option (Int × Sock) :=
  (pushRest buf nwrite (hioAdd .HV_WRITE s)).map fun s => (nwrite, s)

/-- `try_write:` -/
def tryWrite (buf : List UInt8) : Answer → Sock → Option (Int × Sock)
  | .failed errno, s => (hioClose { s with error := errno }).map fun s => (-1, s)
  | .again, s => enqueue buf 0 s
  | .took more, s =>
    let nwrite := Answer.count more buf
    if nwrite = 0 then (hioClose s).map fun s => (0, s)
    else
      let s := { s with wire := s.wire ++ buf.take nwrite }
      if nwrite = buf.length then some (nwrite, s) else enqueue buf nwrite s

/-- What `hio_write` returns, with the connection behind it. -/
def hioWrite (buf : List UInt8) (answer : Answer) (s : Sock) : Option (Int × Sock) :=
  if s.closed then some (-1, s)
  else if s.writeQueue.empty then tryWrite buf answer s
  else (pushRest buf 0 s).map fun s => (0, s)

/-- The queue is empty: a close that waited goes on. -/
def queueDone (s : Sock) : Option Sock :=
  if s.close then hioClose { s with close := false } else some s

/-- `nio_write`, with the answers to its writes; behind the last answer the kernel is
busy. -/
def nioWrite : List Answer → Sock → Option Sock
  | [], s => if s.writeQueue.empty then queueDone s else some s
  | answer :: answers, s =>
    if s.writeQueue.empty then queueDone s
    else
      (front s.writeQueue).bind fun pbuf => pbuf.bind fun pbuf =>
        match answer with
        | .again => some s
        | .failed errno => hioClose { s with error := errno }
        | .took more =>
          let nwrite := Answer.count more pbuf.rest
          if nwrite = 0 then hioClose s
          else
            (setFront { pbuf with offset := pbuf.offset + nwrite } s.writeQueue).bind fun q =>
              let s := { s with wire := s.wire ++ pbuf.rest.take nwrite, writeQueue := q }
              if nwrite = pbuf.rest.length then
                (popFront s.writeQueue).bind fun q =>
                  nioWrite answers { s with writeQueue := q, copies := s.copies - 1 }
              else some s

/-- The second half of `hio_handle_events`, when the descriptor is writable. -/
def handleWrite (answers : List Answer) (s : Sock) : Option Sock :=
  if s.events.write then
    let s := if s.writeQueue.empty then
      { iowatcherDelEvent .HV_WRITE s with events := s.events.without .HV_WRITE } else s
    nioWrite answers s
  else some s

/-! ## What epoll watches -/

/-- What the kernel is told of a set of events. -/
def Events.mask (ev : Events) : Option Events := if ev = .none then .none else some ev

/-- Only an active descriptor has events, and epoll watches it for just these. -/
structure Watching (c : Conn) : Prop where
  active : c.active = false → c.events = .none
  interest : c.interest = c.events.mask

/-- What a connection adds to the counters of the loop. -/
def contribution (c : Conn) : Counters where
  nactives := c.active.toNat + c.closeTimer.toNat
  nios := c.active.toNat
  ntimers := c.closeTimer.toNat
  watched := c.interest.isSome.toNat
  copies := c.writeQueue.size

/-- The counters without what the connection adds. -/
def others (s : Sock) : Counters where
  nactives := s.nactives - (contribution s.toConn).nactives
  nios := s.nios - (contribution s.toConn).nios
  ntimers := s.ntimers - (contribution s.toConn).ntimers
  watched := s.watched - (contribution s.toConn).watched
  copies := s.copies - (contribution s.toConn).copies

/-- An event of one bit. -/
def Single (ev : Events) : Prop := ev = .HV_READ ∨ ev = .HV_WRITE

theorem Events.or_of_meets {ev : Events} (hev : Single ev) {old : Events}
    (h : old.meets ev = true) :
    old.or ev = old ∧ old ≠ .none := by
  obtain ⟨r, w⟩ := old
  rcases hev with rfl | rfl <;> cases r <;> cases w <;>
    simp_all [meets, or, none, HV_READ, HV_WRITE]

theorem Events.or_ne_none {ev : Events} (hev : Single ev) (old : Events) : old.or ev ≠ .none := by
  obtain ⟨r, w⟩ := old
  rcases hev with rfl | rfl <;> simp [or, none, HV_READ, HV_WRITE]

theorem Events.without_of_not_meets {ev old : Events} (h : old.meets ev = false) :
    old.without ev = old := by
  obtain ⟨r, w⟩ := old
  obtain ⟨r', w'⟩ := ev
  cases r <;> cases w <;> simp_all [meets, without]

@[simp] theorem Events.without_rdwr (old : Events) : old.without .HV_RDWR = .none := by
  simp [without, HV_RDWR, none]

@[simp] theorem Events.mask_none : Events.mask .none = .none := if_pos rfl

theorem Events.mask_some {ev : Events} (h : ev ≠ .none) : ev.mask = some ev := if_neg h

theorem addEvent_eq (ev : Events) {s : Sock} (h : s.interest = s.events.mask) :
    iowatcherAddEvent ev s =
      { s with
        interest := some (s.events.or ev)
        watched := s.watched + (1 - s.interest.isSome.toNat) } := by
  by_cases hnone : s.events = .none
  · simp [iowatcherAddEvent, h, hnone, epollAdd]
  · simp [iowatcherAddEvent, h, hnone, Events.mask_some hnone, epollMod]

theorem delEvent_eq (ev : Events) {s : Sock} (h : s.interest = s.events.mask)
    (hsome : s.events ≠ .none) :
    iowatcherDelEvent ev s =
      { s with interest := (s.events.without ev).mask,
               watched := s.watched - (1 - (s.events.without ev).mask.isSome.toNat) } := by
  by_cases hnone : s.events.without ev = .none
  · simp [iowatcherDelEvent, hnone]
  · simp [iowatcherDelEvent, h, hnone, Events.mask_some hnone, Events.mask_some hsome, epollMod]

theorem hioAdd_eq {ev : Events} (hev : Single ev) {s : Sock} (hready : s.ready = true)
    (h : Watching s.toConn) :
    hioAdd ev s =
      { s with active := true, events := s.events.or ev, interest := some (s.events.or ev),
               nactives := s.nactives + (1 - s.active.toNat), nios := s.nios + (1 - s.active.toNat),
               watched := s.watched + (1 - s.interest.isSome.toNat) } := by
  by_cases hmeets : s.events.meets ev = true
  · obtain ⟨hor, hsome⟩ := Events.or_of_meets hev hmeets
    have hactive : s.active = true := by
      by_contra hinactive
      exact hsome (h.active (Bool.eq_false_iff.mpr hinactive))
    have hinterest := h.interest
    rw [Events.mask_some hsome] at hinterest
    obtain ⟨⟨ready, closed, close, active, error, events, queue, timer, interest, wire, accepted⟩,
      counters⟩ := s
    simp only at hready hactive hinterest
    subst hready hactive hinterest
    simp [hioAdd, hioReady, hmeets, hor]
  · have hmissing : s.events.meets ev = false := Bool.eq_false_iff.mpr hmeets
    cases hactive : s.active <;>
      simp [hioAdd, hioReady, hactive, hready, hmissing, addEvent_eq, h.interest]

theorem hioDel_eq (ev : Events) {s : Sock} (h : Watching s.toConn) :
    hioDel ev s =
      { s with events := s.events.without ev, interest := (s.events.without ev).mask,
               active := s.active && s.events.without ev ≠ .none,
               nactives := s.nactives
                 - (s.active.toNat - (s.active && s.events.without ev ≠ .none).toNat),
               nios := s.nios - (s.active.toNat - (s.active && s.events.without ev ≠ .none).toNat),
               watched := s.watched
                 - (s.interest.isSome.toNat - (s.events.without ev).mask.isSome.toNat) } := by
  by_cases hactive : s.active = true
  · by_cases hmeets : s.events.meets ev = true
    · have hsome : s.events ≠ .none := by
        intro hnone
        rw [hnone] at hmeets
        simp [Events.meets, Events.none] at hmeets
      have hinterest := h.interest
      rw [Events.mask_some hsome] at hinterest
      by_cases hleft : s.events.without ev = .none
      · simp [hioDel, hactive, hmeets, delEvent_eq ev h.interest hsome, hleft, hinterest]
      · simp [hioDel, hactive, hmeets, delEvent_eq ev h.interest hsome, hleft, hinterest]
    · have hsame := Events.without_of_not_meets (Bool.eq_false_iff.mpr hmeets)
      have hinterest := h.interest
      obtain ⟨⟨ready, closed, close, active, error, events, queue, timer, interest, wire, accepted⟩,
          counters⟩ := s
      simp only at hactive hinterest hsame hmeets
      subst hactive hinterest
      by_cases hleft : events = .none
      · subst hleft
        simp [hioDel, hmeets, hsame]
      · simp [hioDel, hmeets, hsame, hleft]
  · have hinactive : s.active = false := Bool.eq_false_iff.mpr hactive
    have hnone := h.active hinactive
    have hinterest := h.interest
    obtain ⟨⟨ready, closed, close, active, error, events, queue, timer, interest, wire, accepted⟩,
        counters⟩ := s
    simp only at hinactive hinterest hnone
    subst hinactive hinterest hnone
    simp [hioDel, Events.without, Events.none]

theorem hioAdd_watching {ev : Events} (hev : Single ev) {s : Sock} (hready : s.ready = true)
    (h : Watching s.toConn) : Watching (hioAdd ev s).toConn ∧ others (hioAdd ev s) = others s := by
  rw [hioAdd_eq hev hready h]
  refine ⟨⟨fun hactive => (by cases hactive),
    (Events.mask_some (Events.or_ne_none hev _)).symm⟩, ?_⟩
  simp only [others, contribution, Counters.mk.injEq, Bool.toNat_true,
    Option.isSome_some, and_true, true_and]
  exact ⟨by omega, by omega, by omega⟩

theorem hioDel_watching (ev : Events) {s : Sock} (h : Watching s.toConn) :
    Watching (hioDel ev s).toConn ∧ others (hioDel ev s) = others s := by
  rw [hioDel_eq ev h]
  refine ⟨⟨fun hinactive => ?_, rfl⟩, ?_⟩
  · rcases Bool.and_eq_false_iff.mp hinactive with hoff | hnone
    · have hsame : s.events = .none := h.active hoff
      simp [hsame, Events.without, Events.none]
    · simpa using hnone
  · simp only [others, contribution, Counters.mk.injEq, and_true, true_and]
    exact ⟨by omega, by omega, by omega⟩

/-! ## An open connection and a closed one -/

/-- The bytes of the buffers that are still to be written. -/
def pending (bufs : List OffsetBuf) : List UInt8 := bufs.flatMap OffsetBuf.rest

/-- An open connection with `bufs` in its queue: while there are any, epoll watches the
descriptor for writing. -/
structure Open (c : Conn) (bufs : List OffsetBuf) : Prop where
  ready : c.ready = true
  isOpen : c.closed = false
  watching : Watching c
  queue : Holds c.writeQueue bufs
  unwritten : ∀ b ∈ bufs, b.offset < b.base.length
  watched : bufs ≠ [] → c.events.write = true
  timer : c.closeTimer = c.close

/-- A close has taken everything back. -/
structure Dead (c : Conn) : Prop where
  ready : c.ready = false
  closed : c.closed = true
  inactive : c.active = false
  events : c.events = .none
  interest : c.interest = none
  queue : Holds c.writeQueue []
  timer : c.closeTimer = false

/-- The connection carries `sent`: what is not on the wire waits in the queue, or the
connection is closed and will write nothing more of it. -/
def Carries (c : Conn) (sent : List UInt8) : Prop :=
  (∃ bufs, Open c bufs ∧ (c.close = true → bufs ≠ []) ∧ c.wire ++ pending bufs = sent) ∨
    (Dead c ∧ c.wire <+: sent)

theorem Dead.watching {c : Conn} (h : Dead c) : Watching c :=
  ⟨fun _ => h.events, by rw [h.interest, h.events, Events.mask_none]⟩

theorem freeAll_spec (bufs : List OffsetBuf) {s : Sock} (h : Holds s.writeQueue bufs) :
    ∃ q, freeAll bufs.length s =
      some { s with writeQueue := q, copies := s.copies - bufs.length } := by
  induction bufs generalizing s with
  | nil => exact ⟨s.writeQueue, by simp [freeAll]⟩
  | cons b bufs ih =>
    have hfull : s.writeQueue.empty = false := Bool.eq_false_iff.mpr fun he => by
      have hnil := h.empty_iff.mp he
      cases hnil
    obtain ⟨q, hpop, hq⟩ := popFront_spec h
    obtain ⟨q', hfree⟩ := ih (s := { s with writeQueue := q, copies := s.copies - 1 }) hq
    have hcount : s.copies - 1 - (bufs.length : Int) =
        s.copies - ((bufs.length + 1 : Nat) : Int) := by omega
    refine ⟨q', ?_⟩
    rw [List.length_cons, freeAll, hfull, if_neg Bool.false_ne_true, hpop, Option.bind_some, hfree]
    simp only [hcount]

theorem hioDone_eq {s : Sock} {bufs : List OffsetBuf} (hready : s.ready = true)
    (hwatch : Watching s.toConn) (hqueue : Holds s.writeQueue bufs) :
    hioDone s = some { s with
      ready := false, events := .none, interest := none, active := false, writeQueue :=
        cleanup s.writeQueue,
      nactives := s.nactives - s.active.toNat, nios := s.nios - s.active.toNat,
      watched := s.watched - s.interest.isSome.toNat, copies := s.copies - bufs.length } := by
  have hdel := hioDel_eq .HV_RDWR (s := { s with ready := false }) ⟨hwatch.active, hwatch.interest⟩
  obtain ⟨q, hfree⟩ :=
    freeAll_spec bufs (s := hioDel .HV_RDWR { s with ready := false }) (by rw [hdel]; exact hqueue)
  have hsize : (hioDel .HV_RDWR { s with ready := false }).writeQueue.size = bufs.length := by
    rw [hdel]
    exact hqueue.size
  simp only [hioDone, hready, if_true, hsize, hfree, Option.map_some]
  rw [hdel]
  simp [cleanup]

theorem delCloseTimer_eq (s : Sock) :
    delCloseTimer s = { s with closeTimer := false, nactives := s.nactives - s.closeTimer.toNat,
                               ntimers := s.ntimers - s.closeTimer.toNat } := by
  cases htimer : s.closeTimer with
  | true => simp [delCloseTimer, htimer]
  | false =>
    obtain ⟨⟨ready, closed, close, active, error, events, queue, timer, interest, wire, accepted⟩,
        counters⟩ := s
    simp only at htimer
    subst htimer
    simp [delCloseTimer]

/-- Whatever is in the queue, nothing of the connection is left in the loop. -/
theorem closeNow_spec {s : Sock} {bufs : List OffsetBuf} (hready : s.ready = true)
    (hwatch : Watching s.toConn) (hqueue : Holds s.writeQueue bufs) :
    ∃ s', closeNow s = some s' ∧ Dead s'.toConn ∧ s'.wire = s.wire ∧ s'.accepted = s.accepted ∧
      others s' = others s := by
  have hdone :=
    hioDone_eq (s := { s with closed := true }) hready ⟨hwatch.active, hwatch.interest⟩ hqueue
  simp only [closeNow, hdone, Option.map_some, delCloseTimer_eq]
  refine ⟨_, rfl, ⟨rfl, rfl, rfl, rfl, rfl, holds_cleanup s.writeQueue, rfl⟩, rfl, rfl, ?_⟩
  simp only [others, contribution, cleanup, hqueue.size, Counters.mk.injEq, Bool.toNat_false,
    Option.isSome_none]
  exact ⟨by omega, by omega, by omega, by omega, by omega⟩

/-- How a close ends: it waits for the queue, or nothing is left. -/
theorem hioClose_spec {s : Sock} {bufs : List OffsetBuf} (h : Open s.toConn bufs) :
    ∃ s', hioClose s = some s' ∧ s'.wire = s.wire ∧ s'.accepted = s.accepted ∧
    others s' = others s ∧
      if bufs ≠ [] ∧ s.error = 0 ∧ s.close = false then Open s'.toConn bufs ∧
        s'.close = true ∧ s'.error = 0
      else Dead s'.toConn := by
  have hempty := h.queue.empty_iff
  by_cases hwait : bufs ≠ [] ∧ s.error = 0 ∧ s.close = false
  · obtain ⟨hbufs, herror, hclose⟩ := hwait
    have hfull : s.writeQueue.empty = false := Bool.eq_false_iff.mpr fun he => hbufs (hempty.mp he)
    have htimer : s.closeTimer = false := by rw [h.timer, hclose]
    have hlater : hioClose s = some (addCloseTimer { s with close := true }) := by
      simp [hioClose, h.isOpen, hfull, herror, hclose]
    refine ⟨_, hlater, rfl, rfl, ?_, ?_⟩
    · simp only [addCloseTimer, others, contribution, htimer, Counters.mk.injEq, Bool.toNat_true,
        Bool.toNat_false]
      exact ⟨by omega, trivial, by omega, trivial, trivial⟩
    · rw [if_pos ⟨hbufs, herror, hclose⟩]
      exact ⟨⟨h.ready, h.isOpen, ⟨h.watching.active, h.watching.interest⟩, h.queue, h.unwritten,
        h.watched, rfl⟩, rfl,
        herror⟩
  · obtain ⟨s', hnow, hdead, hwire, haccepted, hothers⟩ := closeNow_spec h.ready h.watching h.queue
    refine ⟨s', ?_, hwire, haccepted, hothers, by rw [if_neg hwait]; exact hdead⟩
    have hcond : (!s.writeQueue.empty && s.error == 0 && !s.close) = false := by
      refine Bool.eq_false_iff.mpr fun hall => hwait ?_
      simp only [Bool.and_eq_true, Bool.not_eq_true', beq_iff_eq] at hall
      refine ⟨fun hnil => ?_, hall.1.2, hall.2⟩
      rw [hempty.mpr hnil] at hall
      cases hall.1.1
    rw [hioClose, h.isOpen, if_neg Bool.false_ne_true, hcond, if_neg Bool.false_ne_true, hnow]

theorem hioClose_dead {s : Sock} (h : Dead s.toConn) : hioClose s = some s := if_pos h.closed

/-- A step behind which the connection carries `sent`, and the wire has only grown. -/
structure Ends (s s' : Sock) (sent : List UInt8) : Prop where
  carries : Carries s'.toConn sent
  wire : s.wire <+: s'.wire
  accepted : s'.accepted = s.accepted
  others : others s' = others s

theorem prefix_of_eq {u v : List UInt8} (h : v = u) : u <+: v := h ▸ List.prefix_refl u

theorem hioClose_ends {s : Sock} {bufs : List OffsetBuf} (h : Open s.toConn bufs) :
    ∃ s', hioClose s = some s' ∧ Ends s s' (s.wire ++ pending bufs) := by
  obtain ⟨s', hclose, hwire, haccepted, hothers, hend⟩ := hioClose_spec h
  refine ⟨s', hclose, ⟨?_, prefix_of_eq hwire, haccepted, hothers⟩⟩
  split at hend
  · next hwait => exact .inl ⟨bufs, hend.1, fun _ => hwait.1, by rw [hwire]⟩
  · exact .inr ⟨hend, by rw [hwire]; exact List.prefix_append _ _⟩

/-! ## Writing keeps the stream -/

@[simp] theorem pending_nil : pending [] = [] := rfl

theorem pending_append (bufs bufs' : List OffsetBuf) :
    pending (bufs ++ bufs') = pending bufs ++ pending bufs' :=
  List.flatMap_append

@[simp] theorem pending_single (b : OffsetBuf) : pending [b] = b.rest := by simp [pending]

theorem pending_cons (b : OffsetBuf) (bufs : List OffsetBuf) :
    pending (b :: bufs) = b.rest ++ pending bufs :=
  List.flatMap_cons

/-- No buffer of the queue is spent. -/
theorem rest_ne_nil {b : OffsetBuf} (h : b.offset < b.base.length) : b.rest ≠ [] := by
  rw [OffsetBuf.rest, Ne, List.drop_eq_nil_iff]
  omega

theorem pushRest_spec {s : Sock} {bufs : List OffsetBuf} (h : Holds s.writeQueue bufs)
    {buf : List UInt8} {n : Nat} (hn : n < buf.length) :
    ∃ q, pushRest buf n s = some { s with writeQueue := q, copies := s.copies + 1 } ∧
      Holds q (bufs ++ [⟨buf, n⟩]) := by
  have hready : Holds (if s.writeQueue.maxsize = 0 then init 4 else s.writeQueue) bufs := by
    split
    · next hzero =>
      have hnil : bufs = [] := by
        have hroom := h.room
        have hsize := h.size
        exact List.length_eq_zero_iff.mp (by omega)
      rw [hnil]
      exact holds_init 4
    · exact h
  obtain ⟨q, hpush, hq⟩ := pushBack_spec hready ⟨buf, n⟩
  exact ⟨q, by simp only [pushRest, hn, if_true, hpush, Option.map_some], hq⟩

/-- The rest of a buffer goes behind what is in the queue of a watched descriptor. -/
theorem pushRest_open {s : Sock} {bufs : List OffsetBuf} (h : Open s.toConn bufs)
    (hwrite : s.events.write = true) {buf : List UInt8} {n : Nat} (hn : n < buf.length) :
    ∃ s', pushRest buf n s = some s' ∧ Ends s s' (s.wire ++ pending bufs ++ buf.drop n) := by
  obtain ⟨q, hpush, hq⟩ := pushRest_spec h.queue hn
  refine ⟨_, hpush,
    ⟨.inl ⟨bufs ++ [⟨buf, n⟩], ?_, fun _ => by simp, ?_⟩, List.prefix_refl _, rfl, ?_⟩⟩
  · refine ⟨h.ready, h.isOpen, ⟨h.watching.active, h.watching.interest⟩, hq, ?_,
      fun _ => hwrite, h.timer⟩
    intro b hb
    rcases List.mem_append.mp hb with hb | hb
    · exact h.unwritten b hb
    · obtain rfl := List.mem_singleton.mp hb
      exact hn
  · rw [pending_append, pending_single, ← List.append_assoc]
    rfl
  · simp only [others, contribution, hq.size, h.queue.size, List.length_append,
      List.length_singleton]
    congr 1
    omega

theorem hioAdd_open {ev : Events} (hev : Single ev) {s : Sock} {bufs : List OffsetBuf}
    (h : Open s.toConn bufs) :
    Open (hioAdd ev s).toConn bufs ∧ (hioAdd ev s).wire = s.wire ∧
    (hioAdd ev s).accepted = s.accepted ∧
      (hioAdd ev s).close = s.close ∧ (hioAdd ev s).events = s.events.or ev ∧
      others (hioAdd ev s) = others s := by
  have hwatch := hioAdd_watching hev h.ready h.watching
  rw [hioAdd_eq hev h.ready h.watching] at hwatch ⊢
  refine ⟨⟨h.ready, h.isOpen, hwatch.1, h.queue, h.unwritten, fun hne => ?_, h.timer⟩, rfl, rfl,
    rfl, rfl, hwatch.2⟩
  show (s.events.write || ev.write) = true
  rw [h.watched hne, Bool.true_or]

theorem enqueue_ends {s : Sock} (h : Open s.toConn []) (hclose : s.close = false)
    (buf : List UInt8) (n : Nat) :
    ∃ s', enqueue buf n s = some ((n : Int), s') ∧ Ends s s' (s.wire ++ buf.drop n) := by
  obtain ⟨hopen, hwire, haccepted, hsame, hevents, hothers⟩ := hioAdd_open (.inr rfl) h
  rw [enqueue]
  by_cases hn : n < buf.length
  · have hwrite : (hioAdd .HV_WRITE s).events.write = true := by rw [hevents]; exact Bool.or_true _
    obtain ⟨s', hpush, hends⟩ := pushRest_open hopen hwrite hn
    rw [hwire, pending_nil, List.append_nil] at hends
    refine ⟨s', by rw [hpush, Option.map_some], ⟨hends.carries, ?_, hends.accepted.trans haccepted,
      hends.others.trans hothers⟩⟩
    rw [← hwire]
    exact hends.wire
  · have hdrop : buf.drop n = [] := List.drop_eq_nil_iff.mpr (by omega)
    refine ⟨hioAdd .HV_WRITE s, by rw [pushRest, if_neg hn, Option.map_some],
      ⟨.inl ⟨[], hopen, ?_, ?_⟩, ?_, haccepted, hothers⟩⟩
    · rw [hsame, hclose]
      exact fun h => by cases h
    · rw [hwire, hdrop, pending_nil]
    · exact prefix_of_eq hwire

/-- Bytes that the kernel took from an open connection. -/
theorem Open.wrote {s : Sock} {bufs : List OffsetBuf} (h : Open s.toConn bufs) (bs : List UInt8) :
    Open ({ s with wire := s.wire ++ bs } : Sock).toConn bufs :=
  ⟨h.ready, h.isOpen, ⟨h.watching.active, h.watching.interest⟩, h.queue,
    h.unwritten, h.watched, h.timer⟩

theorem Open.failed {s : Sock} {bufs : List OffsetBuf} (h : Open s.toConn bufs) (errno : Nat) :
    Open ({ s with error := errno } : Sock).toConn bufs :=
  ⟨h.ready, h.isOpen, ⟨h.watching.active, h.watching.interest⟩, h.queue,
    h.unwritten, h.watched, h.timer⟩

theorem hioFail_ends {s : Sock} {bufs : List OffsetBuf} (h : Open s.toConn bufs) (errno : Nat) :
    ∃ s', hioClose { s with error := errno } = some s' ∧ Ends s s' (s.wire ++ pending bufs) := by
  obtain ⟨s', hclosed, hends⟩ := hioClose_ends (h.failed errno)
  exact ⟨s', hclosed, hends.carries, hends.wire, hends.accepted, hends.others⟩

theorem count_pos (more : Nat) {buf : List UInt8} (h : buf ≠ []) : 0 < Answer.count more buf := by
  have hlen := List.length_pos_of_ne_nil h
  rw [Answer.count]
  omega

/-- The first write of a buffer, when nothing is queued. -/
theorem tryWrite_ends {s : Sock} (h : Open s.toConn []) (hclose : s.close = false)
    (buf : List UInt8) (answer : Answer) :
    ∃ r s', tryWrite buf answer s = some (r, s') ∧
    Ends s s' (s.wire ++ if 0 ≤ r then buf else []) := by
  cases answer with
  | failed errno =>
    obtain ⟨s', hclosed, hends⟩ := hioFail_ends h errno
    refine ⟨-1, s', by rw [tryWrite, hclosed, Option.map_some], ?_⟩
    rw [if_neg (by decide)]
    exact hends
  | again =>
    obtain ⟨s', hpush, hends⟩ := enqueue_ends h hclose buf 0
    refine ⟨0, s', hpush, ?_⟩
    rw [if_pos (by decide)]
    exact hends
  | took more =>
    rw [tryWrite]
    by_cases hbuf : buf = []
    · -- nothing was to be written
      obtain ⟨s', hclosed, hends⟩ := hioClose_ends h
      have hzero : Answer.count more buf = 0 := by
        rw [Answer.count, hbuf, List.length_nil, Nat.min_zero]
      refine ⟨0, s', by rw [hzero, if_pos rfl, hclosed, Option.map_some], ?_⟩
      rw [if_pos (by decide), hbuf]
      exact hends
    · have hpos := count_pos more hbuf
      generalize Answer.count more buf = n at hpos
      have hopen := h.wrote (buf.take n)
      simp only [if_neg (Nat.pos_iff_ne_zero.mp hpos)]
      by_cases hall : n = buf.length
      · refine ⟨n, _, if_pos hall,
          ⟨.inl ⟨[], hopen, fun hc => ?_, ?_⟩, List.prefix_append _ _, rfl, rfl⟩⟩
        · exact absurd (hclose.symm.trans hc) Bool.false_ne_true
        · rw [if_pos (Int.natCast_nonneg n), hall, List.take_length, pending_nil, List.append_nil]
      · obtain ⟨s', hpush, hends⟩ := enqueue_ends hopen hclose buf n
        refine ⟨n, s', by rw [if_neg hall, hpush], ?_⟩
        have hsplit : s.wire ++ buf.take n ++ buf.drop n = s.wire ++ buf := by
          rw [List.append_assoc, List.take_append_drop]
        rw [hsplit] at hends
        rw [if_pos (Int.natCast_nonneg n)]
        exact ⟨hends.carries, (List.prefix_append _ _).trans hends.wire,
          hends.accepted, hends.others⟩

/-- A buffer that `hio_write` does not refuse goes behind all that was given to it
before. -/
theorem hioWrite_ends {s : Sock} {bufs : List OffsetBuf} (h : Open s.toConn bufs)
    (hwait : s.close = true → bufs ≠ []) (buf : List UInt8) (answer : Answer) :
    ∃ r s', hioWrite buf answer s = some (r, s') ∧
      Ends s s' (s.wire ++ pending bufs ++ if 0 ≤ r then buf else []) := by
  have hopen : ¬ s.closed = true := by
    rw [h.isOpen]
    exact Bool.false_ne_true
  rw [hioWrite, if_neg hopen]
  by_cases hnil : bufs = []
  · subst hnil
    rw [if_pos (h.queue.empty_iff.mpr rfl), pending_nil, List.append_nil]
    exact tryWrite_ends h (Bool.eq_false_iff.mpr fun hc => hwait hc rfl) buf answer
  · have hfull : ¬ s.writeQueue.empty = true := fun he => hnil (h.queue.empty_iff.mp he)
    rw [if_neg hfull]
    by_cases hlen : 0 < buf.length
    · obtain ⟨s', hpush, hends⟩ := pushRest_open h (h.watched hnil) hlen
      refine ⟨0, s', by rw [hpush, Option.map_some], ?_⟩
      rw [if_pos (by decide)]
      exact hends
    · have hbuf : buf = [] := List.length_eq_zero_iff.mp (by omega)
      refine ⟨0, s, by rw [pushRest, if_neg hlen, Option.map_some], ?_⟩
      rw [if_pos (by decide), hbuf, List.append_nil]
      exact ⟨.inl ⟨bufs, h, hwait, rfl⟩, List.prefix_refl _, rfl, rfl⟩

theorem pushRest_same {buf : List UInt8} {n : Nat} {s s' : Sock} (h : pushRest buf n s = some s') :
    s'.error = s.error ∧ s'.close = s.close ∧ s'.closed = s.closed := by
  rw [pushRest] at h
  split at h
  · obtain ⟨q, -, rfl⟩ := Option.map_eq_some_iff.mp h
    exact ⟨rfl, rfl, rfl⟩
  · obtain rfl := Option.some.inj h
    exact ⟨rfl, rfl, rfl⟩

/-- Without a failure, a write changes neither the error nor a close that waits, unless
there was nothing to write and nothing queued. -/
theorem hioWrite_calm {s s' : Sock} {bufs : List OffsetBuf} (h : Open s.toConn bufs)
    {buf : List UInt8} {answer : Answer} (hcalm : ∀ errno, answer ≠ .failed errno) {r : Int}
    (hwrite : hioWrite buf answer s = some (r, s')) :
    0 ≤ r ∧ ((s'.error = s.error ∧ s'.close = s.close ∧ s'.closed = false) ∨
      (bufs = [] ∧ buf = [] ∧ s'.closed = true)) := by
  have hopen : ¬ s.closed = true := by
    rw [h.isOpen]
    exact Bool.false_ne_true
  have hadd : (hioAdd .HV_WRITE s).error = s.error ∧ (hioAdd .HV_WRITE s).close = s.close ∧
      (hioAdd .HV_WRITE s).closed = s.closed := by
    rw [hioAdd_eq (.inr rfl) h.ready h.watching]
    exact ⟨rfl, rfl, rfl⟩
  rw [hioWrite, if_neg hopen] at hwrite
  by_cases hempty : s.writeQueue.empty = true
  · rw [if_pos hempty] at hwrite
    cases answer with
    | failed errno => exact absurd rfl (hcalm errno)
    | again =>
      obtain ⟨s₁, hpush, heq⟩ := Option.map_eq_some_iff.mp hwrite
      obtain ⟨rfl, rfl⟩ := Prod.mk.inj heq
      obtain ⟨herror, hclose, hclosed⟩ := pushRest_same hpush
      exact ⟨Int.natCast_nonneg _, .inl ⟨herror.trans hadd.1, hclose.trans hadd.2.1,
        (hclosed.trans hadd.2.2).trans h.isOpen⟩⟩
    | took more =>
      rw [tryWrite] at hwrite
      by_cases hbuf : buf = []
      · have hzero : Answer.count more buf = 0 := by
          rw [Answer.count, hbuf, List.length_nil, Nat.min_zero]
        rw [hzero, if_pos rfl] at hwrite
        obtain ⟨s₁, hclosed, heq⟩ := Option.map_eq_some_iff.mp hwrite
        obtain ⟨rfl, rfl⟩ := Prod.mk.inj heq
        have hnil := h.queue.empty_iff.mp hempty
        obtain ⟨s₂, hclosed', -, -, -, hdead⟩ := hioClose_spec h
        obtain rfl := Option.some.inj (hclosed'.symm.trans hclosed)
        rw [if_neg fun hall => hall.1 hnil] at hdead
        exact ⟨Int.le_refl 0, .inr ⟨hnil, hbuf, hdead.closed⟩⟩
      · have hpos := count_pos more hbuf
        generalize Answer.count more buf = n at hpos hwrite
        simp only [if_neg (Nat.pos_iff_ne_zero.mp hpos)] at hwrite
        split at hwrite
        · obtain ⟨rfl, rfl⟩ := Prod.mk.inj (Option.some.inj hwrite)
          exact ⟨Int.natCast_nonneg _, .inl ⟨rfl, rfl, h.isOpen⟩⟩
        · have hopen' := h.wrote (buf.take n)
          obtain ⟨s₁, hpush, heq⟩ := Option.map_eq_some_iff.mp hwrite
          obtain ⟨rfl, rfl⟩ := Prod.mk.inj heq
          obtain ⟨herror, hclose, hclosed⟩ := pushRest_same hpush
          rw [hioAdd_eq (.inr rfl) hopen'.ready hopen'.watching] at herror hclose hclosed
          exact ⟨Int.natCast_nonneg _, .inl ⟨herror, hclose, hclosed.trans h.isOpen⟩⟩
  · rw [if_neg hempty] at hwrite
    obtain ⟨s₁, hpush, heq⟩ := Option.map_eq_some_iff.mp hwrite
    obtain ⟨rfl, rfl⟩ := Prod.mk.inj heq
    obtain ⟨herror, hclose, hclosed⟩ := pushRest_same hpush
    exact ⟨Int.le_refl 0, .inl ⟨herror, hclose, hclosed.trans h.isOpen⟩⟩

/-- An empty queue: the close that waited for it happens. -/
theorem queueDone_ends {s : Sock} (h : Open s.toConn []) :
    ∃ s', queueDone s = some s' ∧ Ends s s' s.wire ∧ (s.close = true → Dead s'.toConn) := by
  rw [queueDone]
  by_cases hclose : s.close = true
  · obtain ⟨s', hnow, hdead, hwire, haccepted, hothers⟩ :=
      closeNow_spec (s := { s with close := false }) h.ready
        ⟨h.watching.active, h.watching.interest⟩ h.queue
    have hopen : ¬ s.closed = true := by
      rw [h.isOpen]
      exact Bool.false_ne_true
    refine ⟨s', ?_, ⟨.inr ⟨hdead, prefix_of_eq hwire.symm⟩, ?_, haccepted, hothers⟩, fun _ => hdead⟩
    · simp only [hclose, if_true, hioClose, if_neg hopen, h.queue.empty_iff.mpr rfl, Bool.not_true,
        Bool.false_and, Bool.false_eq_true, if_false]
      exact hnow
    · exact prefix_of_eq hwire
  · refine ⟨s, if_neg hclose,
      ⟨.inl ⟨[], h, fun hc => absurd hc hclose, by simp⟩, List.prefix_refl _, rfl, rfl⟩, ?_⟩
    exact fun hc => absurd hc hclose

theorem Open.not_empty {s : Sock} {b : OffsetBuf} {bufs : List OffsetBuf}
    (h : Open s.toConn (b :: bufs)) :
    ¬ s.writeQueue.empty = true := fun he => by
  have hnil := h.queue.empty_iff.mp he
  cases hnil

/-- What every write of `nio_write` leaves alone. -/
structure SameState (s s' : Sock) : Prop where
  close : s'.close = s.close
  error : s'.error = s.error
  accepted : s'.accepted = s.accepted
  others : others s' = others s

theorem SameState.refl (s : Sock) : SameState s s := ⟨rfl, rfl, rfl, rfl⟩

theorem SameState.trans {s s' s'' : Sock} (h : SameState s s') (h' : SameState s' s'') :
    SameState s s'' :=
  ⟨h'.close.trans h.close, h'.error.trans h.error, h'.accepted.trans h.accepted,
    h'.others.trans h.others⟩

/-- One write of `nio_write`: bytes of the first buffer move to the wire, and the loop
goes on if it was all of them. -/
theorem nioWrite_took {s : Sock} {b : OffsetBuf} {bufs : List OffsetBuf}
    (h : Open s.toConn (b :: bufs)) (more : Nat) (answers : List Answer) :
    ∃ s₁ bufs₁ bs, Open s₁.toConn bufs₁ ∧ SameState s s₁ ∧ bs ≠ [] ∧ s₁.wire = s.wire ++ bs ∧
      bs ++ pending bufs₁ = pending (b :: bufs) ∧
      ((bufs₁ ≠ [] ∧ nioWrite (.took more :: answers) s = some s₁) ∨
        nioWrite (.took more :: answers) s = nioWrite answers s₁) := by
  have hrest := rest_ne_nil (h.unwritten b List.mem_cons_self)
  have hpos := count_pos more hrest
  have hle : Answer.count more b.rest ≤ b.rest.length := Nat.min_le_right _ _
  have hlen : b.rest.length = b.base.length - b.offset := List.length_drop
  have hfront : front s.writeQueue = some (some b) := front_spec h.queue
  simp only [nioWrite, if_neg h.not_empty, hfront, Option.bind_some]
  generalize Answer.count more b.rest = n at hpos hle
  obtain ⟨q, hset, hq⟩ := setFront_spec h.queue { b with offset := b.offset + n }
  simp only [if_neg (Nat.pos_iff_ne_zero.mp hpos), hset, Option.bind_some]
  have hbs : b.rest.take n ≠ [] := by
    rw [Ne, List.take_eq_nil_iff]
    rintro (hzero | hnil)
    · omega
    · exact hrest hnil
  by_cases hall : n = b.rest.length
  · obtain ⟨q', hpop, hq'⟩ := popFront_spec hq
    simp only [if_pos hall, hpop, Option.bind_some]
    refine ⟨{ s with wire := s.wire ++ b.rest.take n, writeQueue := q', copies := s.copies - 1 },
      bufs, b.rest.take n, ?_, ⟨rfl, rfl, rfl, ?_⟩, hbs, rfl, ?_, .inr rfl⟩
    · exact ⟨h.ready, h.isOpen, ⟨h.watching.active, h.watching.interest⟩, hq',
        fun b' hb' => h.unwritten b' (List.mem_cons_of_mem b hb'),
        fun _ => h.watched (List.cons_ne_nil b bufs), h.timer⟩
    · simp only [others, contribution, hq'.size, h.queue.size, List.length_cons]
      congr 1
      omega
    · rw [hall, List.take_length, pending_cons]
  · simp only [if_neg hall]
    refine ⟨{ s with wire := s.wire ++ b.rest.take n, writeQueue := q },
      { b with offset := b.offset + n } :: bufs, b.rest.take n, ?_, ⟨rfl, rfl, rfl, ?_⟩, hbs, rfl,
      ?_, .inl ⟨List.cons_ne_nil _ _, rfl⟩⟩
    · refine ⟨h.ready, h.isOpen, ⟨h.watching.active, h.watching.interest⟩, hq, ?_,
        fun _ => h.watched (List.cons_ne_nil b bufs), h.timer⟩
      intro b' hb'
      rcases List.mem_cons.mp hb' with rfl | hb'
      · show b.offset + n < b.base.length
        omega
      · exact h.unwritten b' (List.mem_cons_of_mem b hb')
    · simp only [others, contribution, hq.size, h.queue.size, List.length_cons]
    · have hmoved : OffsetBuf.rest { b with offset := b.offset + n } = b.rest.drop n := by
        rw [OffsetBuf.rest, OffsetBuf.rest, List.drop_drop]
      rw [pending_cons, pending_cons, hmoved, ← List.append_assoc, List.take_append_drop]

theorem nioWrite_ends (answers : List Answer) {s : Sock} {bufs : List OffsetBuf}
    (h : Open s.toConn bufs) :
    ∃ s', nioWrite answers s = some s' ∧ Ends s s' (s.wire ++ pending bufs) := by
  induction answers generalizing s bufs with
  | nil =>
    cases bufs with
    | nil =>
      obtain ⟨s', hdone, hends, -⟩ := queueDone_ends h
      rw [nioWrite, if_pos (h.queue.empty_iff.mpr rfl), pending_nil, List.append_nil]
      exact ⟨s', hdone, hends⟩
    | cons b bufs =>
      rw [nioWrite, if_neg h.not_empty]
      exact ⟨s, rfl, .inl ⟨b :: bufs, h, fun _ => List.cons_ne_nil b bufs, rfl⟩,
        List.prefix_refl _, rfl, rfl⟩
  | cons answer answers ih =>
    cases bufs with
    | nil =>
      obtain ⟨s', hdone, hends, -⟩ := queueDone_ends h
      rw [nioWrite, if_pos (h.queue.empty_iff.mpr rfl), pending_nil, List.append_nil]
      exact ⟨s', hdone, hends⟩
    | cons b bufs =>
      cases answer with
      | again =>
        have hfront : front s.writeQueue = some (some b) := front_spec h.queue
        simp only [nioWrite, if_neg h.not_empty, hfront, Option.bind_some]
        exact ⟨s, rfl, .inl ⟨b :: bufs, h, fun _ => List.cons_ne_nil b bufs, rfl⟩,
          List.prefix_refl _, rfl, rfl⟩
      | failed errno =>
        have hfront : front s.writeQueue = some (some b) := front_spec h.queue
        simp only [nioWrite, if_neg h.not_empty, hfront, Option.bind_some]
        exact hioFail_ends h errno
      | took more =>
        obtain ⟨s₁, bufs₁, bs, hopen, hsame, -, hwire, hmoved, hgoes⟩ :=
          nioWrite_took h more answers
        have hsent : s₁.wire ++ pending bufs₁ = s.wire ++ pending (b :: bufs) := by
          rw [hwire, List.append_assoc, hmoved]
        have hgrown : s.wire <+: s₁.wire := by rw [hwire]; exact List.prefix_append _ _
        rcases hgoes with ⟨hleft, hstops⟩ | hgoes
        · rw [hstops]
          exact ⟨s₁, rfl, .inl ⟨bufs₁, hopen, fun _ => hleft, hsent⟩, hgrown,
            hsame.accepted, hsame.others⟩
        · obtain ⟨s', hrest, hends⟩ := ih hopen
          rw [hsent] at hends
          exact ⟨s', hgoes.trans hrest, hends.carries, hgrown.trans hends.wire,
            hends.accepted.trans hsame.accepted, hends.others.trans hsame.others⟩

/-- A descriptor whose queue is empty is watched no longer for writing. -/
theorem stopWatching_open {s : Sock} (h : Open s.toConn []) (hwrite : s.events.write = true) :
    Open ({ iowatcherDelEvent .HV_WRITE s with events := s.events.without .HV_WRITE } : Sock).toConn
      [] ∧
      others { iowatcherDelEvent .HV_WRITE s with events := s.events.without .HV_WRITE } =
        others s := by
  have hsome : s.events ≠ .none := fun hnone => by
    rw [hnone] at hwrite
    exact Bool.false_ne_true hwrite
  have hactive : s.active = true := by
    by_contra hoff
    exact hsome (h.watching.active (Bool.eq_false_iff.mpr hoff))
  have hinterest : s.interest.isSome = true := by
    rw [h.watching.interest, Events.mask_some hsome]
    rfl
  simp only [delEvent_eq .HV_WRITE h.watching.interest hsome]
  refine ⟨⟨h.ready, h.isOpen, ⟨fun hoff => ?_, rfl⟩, h.queue, h.unwritten,
    fun hne => absurd rfl hne, h.timer⟩, ?_⟩
  · exact absurd (hactive.symm.trans hoff) (by decide)
  · simp only [others, contribution, hinterest, Bool.toNat_true]
    congr 1
    omega

theorem nioWrite_empty (answers : List Answer) {s : Sock} (h : s.writeQueue.empty = true) :
    nioWrite answers s = queueDone s := by
  cases answers with
  | nil => rw [nioWrite, if_pos h]
  | cons answer answers => rw [nioWrite, if_pos h]

theorem handleWrite_empty (answers : List Answer) {s : Sock} (h : Open s.toConn [])
    (hwrite : s.events.write = true) :
    handleWrite answers s =
      queueDone { iowatcherDelEvent .HV_WRITE s with events := s.events.without .HV_WRITE } := by
  have hempty := h.queue.empty_iff.mpr rfl
  have hqueue := (stopWatching_open h hwrite).1.queue.empty_iff.mpr rfl
  simp only [handleWrite, hwrite, if_true, hempty]
  exact nioWrite_empty answers hqueue

theorem handleWrite_full (answers : List Answer) {s : Sock} (hwrite : s.events.write = true)
    (hfull : ¬ s.writeQueue.empty = true) : handleWrite answers s = nioWrite answers s := by
  simp only [handleWrite, hwrite, if_true, if_neg hfull]

theorem delEvent_same (ev : Events) (s : Sock) :
    (iowatcherDelEvent ev s).wire = s.wire ∧ (iowatcherDelEvent ev s).close = s.close ∧
      (iowatcherDelEvent ev s).accepted = s.accepted ∧
      (iowatcherDelEvent ev s).error = s.error := by
  simp only [iowatcherDelEvent]
  split <;> exact ⟨rfl, rfl, rfl, rfl⟩

theorem handleWrite_ends (answers : List Answer) {s : Sock} {bufs : List OffsetBuf}
    (h : Open s.toConn bufs) (hwait : s.close = true → bufs ≠ []) :
    ∃ s', handleWrite answers s = some s' ∧ Ends s s' (s.wire ++ pending bufs) := by
  by_cases hwrite : s.events.write = true
  · by_cases hempty : s.writeQueue.empty = true
    · have hnil := h.queue.empty_iff.mp hempty
      subst hnil
      obtain ⟨hopen, hothers⟩ := stopWatching_open h hwrite
      obtain ⟨hwire, -, haccepted, -⟩ := delEvent_same .HV_WRITE s
      obtain ⟨s', hdone, hends, -⟩ := queueDone_ends hopen
      have hsent := hends.wire
      refine ⟨s', (handleWrite_empty answers h hwrite).trans hdone, ?_, ?_,
        hends.accepted.trans haccepted,
        hends.others.trans hothers⟩
      · rw [pending_nil, List.append_nil, ← hwire]
        exact hends.carries
      · rw [← hwire]
        exact hsent
    · rw [handleWrite_full answers hwrite hempty]
      exact nioWrite_ends answers h
  · rw [handleWrite, if_neg hwrite]
    exact ⟨s, rfl, .inl ⟨bufs, h, hwait, rfl⟩, List.prefix_refl _, rfl, rfl⟩

/-- Where nothing is queued and no close waits, a writable descriptor changes nothing
but what it is watched for. -/
theorem handleWrite_idle (answers : List Answer) {s : Sock} (h : Open s.toConn [])
    (hclose : s.close = false) :
    ∃ s', handleWrite answers s = some s' ∧ Open s'.toConn [] ∧ s'.close = false ∧
    s'.wire = s.wire ∧
      s'.accepted = s.accepted ∧ s'.error = s.error := by
  by_cases hwrite : s.events.write = true
  · obtain ⟨hwire, hsame, haccepted, herror⟩ := delEvent_same .HV_WRITE s
    refine ⟨_, (handleWrite_empty answers h hwrite).trans (if_neg ?_),
      (stopWatching_open h hwrite).1,
      hsame.trans hclose, hwire, haccepted, herror⟩
    show ¬ (iowatcherDelEvent .HV_WRITE s).close = true
    rw [hsame, hclose]
    exact Bool.false_ne_true
  · exact ⟨s, by rw [handleWrite, if_neg hwrite], h, hclose, rfl, rfl, rfl⟩

theorem closeTimeout_ends (errno : Nat) {s : Sock} {bufs : List OffsetBuf} (h : Open s.toConn bufs)
    (hwait : s.close = true → bufs ≠ []) :
    ∃ s', closeTimeout errno s = some s' ∧ Ends s s' (s.wire ++ pending bufs) := by
  rw [closeTimeout]
  split
  · exact hioFail_ends h errno
  · exact ⟨s, rfl, .inl ⟨bufs, h, hwait, rfl⟩, List.prefix_refl _, rfl, rfl⟩

/-- `hio_read_stop`: the descriptor is still watched for writing. -/
theorem readStop_open {s : Sock} {bufs : List OffsetBuf} (h : Open s.toConn bufs) :
    Open (hioDel .HV_READ s).toConn bufs ∧ (hioDel .HV_READ s).wire = s.wire ∧
      (hioDel .HV_READ s).accepted = s.accepted ∧ (hioDel .HV_READ s).close = s.close ∧
      (hioDel .HV_READ s).error = s.error := by
  have hwatch := (hioDel_watching .HV_READ h.watching).1
  rw [hioDel_eq _ h.watching] at hwatch ⊢
  refine ⟨⟨h.ready, h.isOpen, hwatch, h.queue, h.unwritten, fun hne => ?_, h.timer⟩,
    rfl, rfl, rfl, rfl⟩
  show (s.events.write && !false) = true
  rw [h.watched hne]
  rfl

theorem readStop_ends {s : Sock} {bufs : List OffsetBuf} (h : Open s.toConn bufs)
    (hwait : s.close = true → bufs ≠ []) : Ends s (hioDel .HV_READ s) (s.wire ++ pending bufs) := by
  obtain ⟨hopen, hwire, haccepted, hclose, -⟩ := readStop_open h
  refine ⟨.inl ⟨bufs, hopen, by rw [hclose]; exact hwait, by rw [hwire]⟩, prefix_of_eq hwire,
    haccepted, (hioDel_watching .HV_READ h.watching).2⟩

theorem readStart_ends {s : Sock} {bufs : List OffsetBuf} (h : Open s.toConn bufs)
    (hwait : s.close = true → bufs ≠ []) : Ends s (hioAdd .HV_READ s) (s.wire ++ pending bufs) := by
  obtain ⟨hopen, hwire, haccepted, hsame, -, hothers⟩ := hioAdd_open (.inl rfl) h
  refine ⟨.inl ⟨bufs, hopen, ?_, by rw [hwire]⟩, prefix_of_eq hwire, haccepted, hothers⟩
  rw [hsame]
  exact hwait

end NetmtNio
