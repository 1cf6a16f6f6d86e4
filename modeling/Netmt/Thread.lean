import Netmt.Lib.Shelves

/-!
# Threads

The scheduler of `thread.c`, which hands the main loop one task after the other. Its nodes lie
on six lists; those that are not in use wait on the last one. A step that touches no node, or
whose assertion fails, gives nothing. The clock and the answers of `select` come from outside.
-/
namespace NetmtThread

open Links Shelves

inductive ThreadType where
  | THREAD_READ | THREAD_WRITE | THREAD_TIMER | THREAD_EVENT | THREAD_READY | THREAD_UNUSED
  deriving DecidableEq

structure Timeval where
  tv_sec : Int
  tv_usec : Int
  deriving DecidableEq

/-- A `long` as an `int`. -/
def toInt (n : Int) : Int := Int.bmod n 4294967296

def timevalCmp (a b : Timeval) : Int :=
  toInt (if a.tv_sec = b.tv_sec then a.tv_usec - b.tv_usec else a.tv_sec - b.tv_sec)

/-- The union `u`: the member that was written last. -/
inductive Payload where
  | val (n : Int)
  | fd (n : Nat)
  | sands (t : Timeval)
  deriving DecidableEq

/-- `THREAD_FD` -/
def Payload.getFd : Payload → Option Nat
  | .fd n => some n
  | _ => none

def Payload.getSands : Payload → Option Timeval
  | .sands t => some t
  | _ => none

/-- `struct thread`, but for its links; there is one master. -/
structure Thread (φ α : Type) where
  type : ThreadType
  func : φ
  arg : α
  u : Payload

/-- The fields of the master that are lists. -/
inductive ListName where
  | read | write | timer | event | ready | unuse
  deriving DecidableEq

/-- `fds` are `readfd` and `writefd`, under the names of their lists. -/
structure ThreadMaster (φ α : Type) where
  heap : Heap (Thread φ α)
  lists : ListName → Ends
  fds : ListName → Nat → Bool
  alloc : Nat

variable {φ α : Type}

/-- `thread_master_create` -/
def threadMasterCreate : ThreadMaster φ α := ⟨[], fun _ => ⟨none, none, 0⟩, fun _ _ => false, 0⟩

def ThreadMaster.put (l : ListName) (heap : Heap (Thread φ α)) (e : Ends) (m : ThreadMaster φ α) :
    ThreadMaster φ α :=
  { m with heap := heap, lists := Function.update m.lists l e }

/-- Fields of a thread are written. -/
def ThreadMaster.edit (p : Nat) (f : Thread φ α → Thread φ α) (m : ThreadMaster φ α) :
    Option (ThreadMaster φ α) :=
  (read m.heap p).map fun n => { m with heap := write p { n with item := f n.item } m.heap }

def ThreadMaster.setFd (l : ListName) (fd : Nat) (on : Bool) (m : ThreadMaster φ α) :
    ThreadMaster φ α :=
  { m with fds := Function.update m.fds l (Function.update (m.fds l) fd on) }

/-! ## Lists -/

def threadListAdd (l : ListName) (p : Nat) (m : ThreadMaster φ α) : Option (ThreadMaster φ α) :=
  (read m.heap p).bind fun n =>
  (setNext (m.lists l).tail p
    (write p { n with next := none, prev := (m.lists l).tail } m.heap)).map fun heap =>
    m.put l heap ⟨if (m.lists l).tail.isSome then (m.lists l).head else some p, some p,
      (m.lists l).count + 1⟩

def threadListAddBefore (l : ListName) (point p : Nat) (m : ThreadMaster φ α) :
    Option (ThreadMaster φ α) :=
  (read m.heap p).bind fun n => (read m.heap point).bind fun b =>
  (setNext b.prev p (write p { n with next := some point, prev := b.prev } m.heap)).bind fun heap =>
  (setPrev (some point) p heap).map fun heap =>
    m.put l heap ⟨if b.prev.isSome then (m.lists l).head else some p, (m.lists l).tail,
      (m.lists l).count + 1⟩

def threadListDelete (l : ListName) (p : Nat) (m : ThreadMaster φ α) : Option (ThreadMaster φ α) :=
  (read m.heap p).bind fun n =>
  (pointPrev n.next n.prev m.heap).bind fun heap =>
  (pointNext n.prev n.next heap).map fun heap =>
    m.put l (write p ⟨none, none, n.item⟩ heap)
      ⟨if n.prev.isSome then (m.lists l).head else n.next, if n.next.isSome then (m.lists l).tail
        else n.prev, (m.lists l).count - 1⟩

def threadAddUnuse (p : Nat) (m : ThreadMaster φ α) : Option (ThreadMaster φ α) :=
  (read m.heap p).bind fun n =>
    if n.next = none ∧ n.prev = none ∧ n.item.type = .THREAD_UNUSED then
      threadListAdd .unuse p m else none

def threadTrimHead (l : ListName) (m : ThreadMaster φ α) : Option (Option Nat × ThreadMaster φ α) :=
  match (m.lists l).head with
  | some p => (threadListDelete l p m).map fun m => (some p, m)
  | none => some (none, m)

/-- `thread->type = THREAD_UNUSED; thread_add_unuse (m, thread)` -/
def release (p : Nat) (m : ThreadMaster φ α) : Option (ThreadMaster φ α) :=
  (m.edit p fun t => { t with type := .THREAD_UNUSED }).bind (threadAddUnuse p)

/-! ## Tasks come in -/

/-- A new node is zeroed. -/
def threadGet (type : ThreadType) (func : φ) (arg : α) (m : ThreadMaster φ α) :
    Option (Nat × ThreadMaster φ α) :=
  match (m.lists .unuse).head with
  | some p =>
    (threadListDelete .unuse p m).bind fun m =>
    (m.edit p fun t => { t with type := type, func := func, arg := arg }).map fun m => (p, m)
  | none =>
    some (m.heap.length,
      { m with heap := alloc ⟨none, none, ⟨type, func, arg, .val 0⟩⟩ m.heap, alloc := m.alloc + 1 })

def FD_SETSIZE : Nat := 1024

/-- `thread_add_read` and `thread_add_write`; a number that is too large lies outside of the set. -/
def threadAddFd (l : ListName) (type : ThreadType) (func : φ) (arg : α) (fd : Nat)
    (m : ThreadMaster φ α) :
    Option (Option Nat × ThreadMaster φ α) :=
  if FD_SETSIZE ≤ fd then none
  else if m.fds l fd then some (none, m)
  else
    (threadGet type func arg m).bind fun r =>
    ((r.2.setFd l fd true).edit r.1 fun t => { t with u := .fd fd }).bind fun m =>
    (threadListAdd l r.1 m).map fun m => (some r.1, m)

def threadAddRead (func : φ) (arg : α) (fd : Nat) (m : ThreadMaster φ α) :
    Option (Option Nat × ThreadMaster φ α) :=
  threadAddFd .read .THREAD_READ func arg fd m

def threadAddWrite (func : φ) (arg : α) (fd : Nat) (m : ThreadMaster φ α) :
    Option (Option Nat × ThreadMaster φ α) :=
  threadAddFd .write .THREAD_WRITE func arg fd m

/-- The first timer from `p` on whose time meets the test. -/
def findTimer (stop : Timeval → Bool) (heap : Heap (Thread φ α)) :
    Nat → Option Nat → Option (Option Nat)
  | _, none => some none
  | 0, some _ => none
  | fuel + 1, some p =>
    (read heap p).bind fun n => n.item.u.getSands.bind fun t =>
      if stop t then some (some p) else findTimer stop heap fuel n.next

/-- The time that the clock shows comes with the call. -/
def threadAddTimer (func : φ) (arg : α) (now : Timeval) (timer : Int) (m : ThreadMaster φ α) :
    Option (Option Nat × ThreadMaster φ α) :=
  let sands : Timeval := ⟨now.tv_sec + timer, now.tv_usec⟩
  (threadGet .THREAD_TIMER func arg m).bind fun r =>
  (r.2.edit r.1 fun t => { t with u := .sands sands }).bind fun m =>
  (findTimer (fun t => timevalCmp sands t ≤ 0) m.heap (m.heap.length + 1)
    (m.lists .timer).head).bind fun tt =>
  (match tt with
    | some tt => threadListAddBefore .timer tt r.1 m
    | none => threadListAdd .timer r.1 m).map fun m => (some r.1, m)

def threadAddEvent (func : φ) (arg : α) (val : Int) (m : ThreadMaster φ α) :
    Option (Option Nat × ThreadMaster φ α) :=
  (threadGet .THREAD_EVENT func arg m).bind fun r =>
  (r.2.edit r.1 fun t => { t with u := .val val }).bind fun m =>
  (threadListAdd .event r.1 m).map fun m => (some r.1, m)

/-! ## Tasks are dropped -/

/-- The cases `THREAD_READ` and `THREAD_WRITE`, with their assertion. -/
def cancelFd (l : ListName) (p : Nat) (u : Payload) (m : ThreadMaster φ α) :
    Option (ThreadMaster φ α) :=
  u.getFd.bind fun fd => if m.fds l fd then threadListDelete l p (m.setFd l fd false) else none

def threadCancel (p : Nat) (m : ThreadMaster φ α) : Option (ThreadMaster φ α) :=
  (read m.heap p).bind fun n =>
  (match n.item.type with
    | .THREAD_READ => cancelFd .read p n.item.u m
    | .THREAD_WRITE => cancelFd .write p n.item.u m
    | .THREAD_TIMER => threadListDelete .timer p m
    | .THREAD_EVENT => threadListDelete .event p m
    | .THREAD_READY => threadListDelete .ready p m
    | .THREAD_UNUSED => some m).bind (release p)

/-- The loop of `thread_cancel_event`; the next thread is read first. -/
def cancelEventLoop [DecidableEq α] (arg : α) :
    Nat → Option Nat → ThreadMaster φ α → Option (ThreadMaster φ α)
  | _, none, m => some m
  | 0, some _, _ => none
  | fuel + 1, some p, m =>
    (read m.heap p).bind fun n =>
    (if n.item.arg = arg then (threadListDelete .event p m).bind (release p) else some m).bind
      (cancelEventLoop arg fuel n.next)

def threadCancelEvent [DecidableEq α] (arg : α) (m : ThreadMaster φ α) :
    Option (ThreadMaster φ α) :=
  cancelEventLoop arg (m.heap.length + 1) (m.lists .event).head m

/-! ## Tasks go out -/

/-- The copy in `fetch`. -/
def threadRun (p : Nat) (m : ThreadMaster φ α) : Option (Thread φ α × ThreadMaster φ α) :=
  (read m.heap p).bind fun n => (release p m).map fun m => (n.item, m)

/-- The loop of `thread_process_fd`. -/
def processFdLoop (l : ListName) (fdset : Nat → Bool) :
    Nat → Option Nat → ThreadMaster φ α → Option (ThreadMaster φ α)
  | _, none, m => some m
  | 0, some _, _ => none
  | fuel + 1, some p, m =>
    (read m.heap p).bind fun n => n.item.u.getFd.bind fun fd =>
    (if fdset fd then
      if m.fds l fd then
        (threadListDelete l p (m.setFd l fd false)).bind fun m =>
        (threadListAdd .ready p m).bind fun m => m.edit p fun t => { t with type := .THREAD_READY }
      else none
    else some m).bind (processFdLoop l fdset fuel n.next)

def threadProcessFd (l : ListName) (fdset : Nat → Bool) (m : ThreadMaster φ α) :
    Option (ThreadMaster φ α) :=
  processFdLoop l fdset (m.heap.length + 1) (m.lists l).head m

/-- What `select` answers: nothing within the time, a signal, an error, or what it
leaves of the sets. -/
inductive Select where
  | timeout
  | interrupted
  | failed
  | ready (readfd writefd : Nat → Bool)

/-- A turn of the loop in `thread_fetch`: the time at its begin, and the answer if it
comes to `select`. -/
structure Round where
  now : Timeval
  answer : Select

/-- The pointer that `thread_fetch` returns; when the turns are used up it waits in `select`. -/
inductive Fetched (φ α : Type) where
  | task (t : Thread φ α)
  | null
  | waiting

def runTask (p : Nat) (m : ThreadMaster φ α) : Option (Fetched φ α × ThreadMaster φ α) :=
  (threadRun p m).map fun r => (.task r.1, r.2)

def threadFetch : List Round → ThreadMaster φ α → Option (Fetched φ α × ThreadMaster φ α)
  | [], m => some (.waiting, m)
  | round :: rounds, m =>
    (threadTrimHead .event m).bind fun r =>
    match r.1 with
    | some p => runTask p r.2
    | none =>
      (findTimer (fun t => timevalCmp round.now t ≥ 0) m.heap (m.heap.length + 1)
        (m.lists .timer).head).bind fun due =>
      match due with
      | some p => (threadListDelete .timer p m).bind (runTask p)
      | none =>
        (threadTrimHead .ready m).bind fun r =>
        match r.1 with
        | some p => runTask p r.2
        | none =>
          match round.answer with
          | .timeout => threadFetch rounds m
          | .interrupted => threadFetch rounds m
          | .failed => some (.null, m)
          | .ready readfd writefd =>
            (threadProcessFd .read readfd m).bind fun m =>
            (threadProcessFd .write writefd m).bind fun m =>
            (threadTrimHead .ready m).bind fun r =>
            match r.1 with
            | some p => runTask p r.2
            | none => threadFetch rounds r.2

end NetmtThread
