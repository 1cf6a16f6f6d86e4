import Netmt.ThreadLists
import Mathlib.Data.List.Nodup
import Mathlib.Data.List.TakeWhile

/-!
# The machine behind the scheduler

What the scheduler is for, without nodes and links: a queue of events, timers in the order of
their times, and tasks that wait for a descriptor until `select` names it. Every operation
on the heap of `thread.c` is one of this machine, with the same reply.
-/
namespace NetmtThreadMachine

open Links Shelves NetmtThread NetmtThreadLists

variable {φ α : Type}

/-! ## Times -/

/-- A time that a difference of seconds in an `int` is right for. -/
structure InRange (t : Timeval) : Prop where
  sec : 0 ≤ t.tv_sec ∧ t.tv_sec < 2147483648
  usec : 0 ≤ t.tv_usec ∧ t.tv_usec < 1000000

def micros (t : Timeval) : Int := t.tv_sec * 1000000 + t.tv_usec

theorem toInt_eq {n : Int} (hlow : -2147483648 ≤ n) (hhigh : n < 2147483648) : toInt n = n := by
  rw [toInt, Int.bmod_def]
  split <;> omega

theorem timevalCmp_range {a b : Timeval} (ha : InRange a) (hb : InRange b) : timevalCmp a b =
    if a.tv_sec = b.tv_sec then a.tv_usec - b.tv_usec else a.tv_sec - b.tv_sec := by
  obtain ⟨⟨ha₁, ha₂⟩, ha₃, ha₄⟩ := ha
  obtain ⟨⟨hb₁, hb₂⟩, hb₃, hb₄⟩ := hb
  rw [timevalCmp]
  split
  · exact toInt_eq (by omega) (by omega)
  · exact toInt_eq (by omega) (by omega)

theorem timevalCmp_nonpos {a b : Timeval} (ha : InRange a) (hb : InRange b) :
    timevalCmp a b ≤ 0 ↔ micros a ≤ micros b := by
  rw [timevalCmp_range ha hb, micros, micros]
  obtain ⟨⟨ha₁, ha₂⟩, ha₃, ha₄⟩ := ha
  obtain ⟨⟨hb₁, hb₂⟩, hb₃, hb₄⟩ := hb
  split <;> omega

theorem timevalCmp_nonneg {a b : Timeval} (ha : InRange a) (hb : InRange b) :
    timevalCmp a b ≥ 0 ↔ micros b ≤ micros a := by
  rw [timevalCmp_range ha hb, micros, micros]
  obtain ⟨⟨ha₁, ha₂⟩, ha₃, ha₄⟩ := ha
  obtain ⟨⟨hb₁, hb₂⟩, hb₃, hb₄⟩ := hb
  split <;> omega

/-- The time of a timer. -/
def time (x : Thread φ α) : Timeval := (x.u.getSands).getD ⟨0, 0⟩

/-! ## The machine -/

abbrev Cell (φ α : Type) := Nat × Thread φ α

/-- A task is put between two parts of a list, with the next node. -/
def addAt (l : ListName) (pre post : List (Cell φ α)) (x : Thread φ α) (T : Tasks φ α) :
    Tasks φ α :=
  T.take.2.put l (pre ++ (T.take.1, x) :: post)

def addLast (l : ListName) (x : Thread φ α) (T : Tasks φ α) : Tasks φ α :=
  addAt l (T.lists l) [] x T

/-- One descriptor is waited for by one task. -/
def addFd (l : ListName) (x : Thread φ α) (fd : Nat) (T : Tasks φ α) : Option Nat × Tasks φ α :=
  if T.fds l fd then (none, T) else (some T.take.1, (addLast l x T).setFd l fd true)

def earlier (x : Thread φ α) (c : Cell φ α) : Bool := micros (time c.2) < micros (time x)

/-- Behind the timers that are earlier, before those of the same time. -/
def addTimer (x : Thread φ α) (T : Tasks φ α) : Tasks φ α :=
  addAt .timer ((T.lists .timer).takeWhile (earlier x)) ((T.lists .timer).dropWhile (earlier x)) x T

/-- A node that was taken off its list is kept for later. -/
def recycle (c : Cell φ α) (T : Tasks φ α) : Tasks φ α :=
  T.put .unuse (T.lists .unuse ++ [(c.1, unused c.2)])

def clearFd (l : ListName) (u : Payload) (T : Tasks φ α) : Tasks φ α :=
  match l, u with
  | .read, .fd fd => T.setFd .read fd false
  | .write, .fd fd => T.setFd .write fd false
  | _, _ => T

/-- Where a node is that is in use. -/
def findCell (p : Nat) (T : Tasks φ α) : Option (ListName × Cell φ α) :=
  [ListName.read, .write, .timer, .event, .ready].findSome? fun l =>
    ((T.lists l).find? fun c => c.1 = p).map fun c => (l, c)

def cancel (p : Nat) (T : Tasks φ α) : Tasks φ α :=
  match findCell p T with
  | none => T
  | some (l, c) => recycle c ((clearFd l c.2.u T).put l ((T.lists l).filter fun d => d.1 ≠ p))

def cancelEvents [DecidableEq α] (arg : α) (T : Tasks φ α) : Tasks φ α :=
  (T.put .event ((T.lists .event).filter fun c => c.2.arg ≠ arg)).put .unuse
    (T.lists .unuse ++ ((T.lists .event).filter fun c => c.2.arg = arg).map fun c =>
      (c.1, unused c.2))

/-- The task waits for a descriptor of the set. -/
def wakes (fdset : Nat → Bool) (c : Cell φ α) : Bool := (c.2.u.getFd).any fdset

def readied (c : Cell φ α) : Cell φ α := (c.1, { c.2 with type := .THREAD_READY })

def wake (l : ListName) (fdset : Nat → Bool) (T : Tasks φ α) : Tasks φ α :=
  { T with
    lists := Function.update
      (Function.update T.lists l ((T.lists l).filter fun c => !wakes fdset c)) .ready
      (T.lists .ready ++ ((T.lists l).filter (wakes fdset)).map readied)
    fds := Function.update T.fds l fun fd => T.fds l fd && !fdset fd }

/-- The first node of a list, and the others. -/
def front (l : ListName) (T : Tasks φ α) : Option (ListName × Cell φ α × List (Cell φ α)) :=
  match T.lists l with
  | [] => none
  | c :: cells => some (l, c, cells)

/-- What can be run at once: an event, a timer whose time has come, or what is ready. -/
def next (now : Timeval) (T : Tasks φ α) : Option (ListName × Cell φ α × List (Cell φ α)) :=
  ((front .event T).or ((front .timer T).filter fun r => micros (time r.2.1.2) ≤ micros now)).or
    (front .ready T)

def handOut (r : ListName × Cell φ α × List (Cell φ α)) (T : Tasks φ α) : Fetched φ α × Tasks φ α :=
  (.task r.2.1.2, recycle r.2.1 (T.put r.1 r.2.2))

def fetch : List Round → Tasks φ α → Fetched φ α × Tasks φ α
  | [], T => (.waiting, T)
  | round :: rounds, T =>
    match next round.now T with
    | some r => handOut r T
    | none =>
      match round.answer with
      | .timeout => fetch rounds T
      | .interrupted => fetch rounds T
      | .failed => (.null, T)
      | .ready readfd writefd =>
        match front .ready (wake .write writefd (wake .read readfd T)) with
        | some r => handOut r (wake .write writefd (wake .read readfd T))
        | none => fetch rounds (wake .write writefd (wake .read readfd T))

/-! ## What the machine keeps -/

/-- The lists whose tasks wait for descriptors. -/
def Watched (l : ListName) : Prop := l = .read ∨ l = .write

/-- The type of the tasks on a list. -/
def typeOf : ListName → ThreadType
  | .read => .THREAD_READ
  | .write => .THREAD_WRITE
  | .timer => .THREAD_TIMER
  | .event => .THREAD_EVENT
  | .ready => .THREAD_READY
  | .unuse => .THREAD_UNUSED

/-- A task is such as a list has them. -/
structure Fits (l : ListName) (x : Thread φ α) : Prop where
  type : x.type = typeOf l
  fd : Watched l → ∃ fd, x.u = .fd fd
  timed : l = .timer → ∃ t, x.u = .sands t ∧ InRange t

def total (T : Tasks φ α) : Nat :=
  (T.lists .read).length + (T.lists .write).length + (T.lists .timer).length +
    (T.lists .event).length +
    (T.lists .ready).length + (T.lists .unuse).length

/-- The timers are in order, a descriptor is in its set when one task waits for it, and every
node that was allocated is on a list. -/
structure Sound (T : Tasks φ α) : Prop where
  fits : ∀ l, ∀ c ∈ T.lists l, Fits l c.2
  sorted : (T.lists .timer).Pairwise fun c d => micros (time c.2) ≤ micros (time d.2)
  once : ∀ l, Watched l → ((T.lists l).map fun c => c.2.u).Nodup
  watched : ∀ l, Watched l → ∀ fd, T.fds l fd = true ↔ ∃ c ∈ T.lists l, c.2.u = .fd fd
  filled : total T = T.alloc

theorem sound_nil : Sound (⟨fun _ => [], fun _ _ => false, 0⟩ : Tasks φ α) where
  fits _ _ hc := nomatch hc
  sorted := .nil
  once _ _ := List.nodup_nil
  watched _ _ fd := ⟨fun h => (by cases h), fun ⟨_, hc, _⟩ => nomatch hc⟩
  filled := rfl

theorem total_put (l : ListName) (cells : List (Cell φ α)) (T : Tasks φ α) :
    total (T.put l cells) + (T.lists l).length = total T + cells.length := by
  cases l <;> simp [total, Tasks.put, Function.update] <;> omega

theorem time_sands {x : Thread φ α} {t : Timeval} (h : x.u = .sands t) : time x = t := by
  rw [time, h]
  rfl

theorem Fits.time_eq {x : Thread φ α} (h : Fits .timer x) :
    x.u = .sands (time x) ∧ InRange (time x) := by
  obtain ⟨t, ht, hrange⟩ := h.timed rfl
  rw [time_sands ht]
  exact ⟨ht, hrange⟩

/-! ## Operations on the lists -/

section Steps

variable {m : ThreadMaster φ α} {T : Tasks φ α}

theorem take_lists (T : Tasks φ α) {l : ListName} (hl : l ≠ .unuse) :
    T.take.2.lists l = T.lists l := by
  rw [Tasks.take]
  split
  · rfl
  · exact put_other hl _ _

theorem take_fds (T : Tasks φ α) : T.take.2.fds = T.fds := by
  rw [Tasks.take]
  split <;> rfl

/-- A new node with its task, in hand. -/
theorem get_holds (h : Holds m T) (type : ThreadType) (func : φ) (arg : α) (u : Payload) :
    ∃ m₁ m₂, threadGet type func arg m = some (T.take.1, m₁) ∧ Holds m₁ T.take.2 ∧
      m₁.edit T.take.1 (fun t => { t with u := u }) = some m₂ ∧ Holds m₂ T.take.2 ∧
      InHand m₂ T.take.2 T.take.1 ⟨type, func, arg, u⟩ := by
  obtain ⟨m₁, u₁, hget, h₁, hp₁⟩ := threadGet_holds h type func arg
  obtain ⟨m₂, hedit, h₂, hp₂⟩ := hp₁.edit h₁ fun t => { t with u := u }
  exact ⟨m₁, m₂, hget, h₁, hedit, h₂, hp₂⟩

theorem addEvent_holds (h : Holds m T) (func : φ) (arg : α) (val : Int) :
    ∃ m', threadAddEvent func arg val m = some (some T.take.1, m') ∧
      Holds m' (addLast .event ⟨.THREAD_EVENT, func, arg, .val val⟩ T) := by
  obtain ⟨m₁, m₂, hget, -, hedit, h₂, hp₂⟩ := get_holds h .THREAD_EVENT func arg (.val val)
  obtain ⟨m', hadd, h'⟩ := hp₂.add h₂ .event
  rw [take_lists T (by decide)] at h'
  refine ⟨m', ?_, h'⟩
  rw [threadAddEvent, hget, Option.bind_some, hedit, Option.bind_some, hadd, Option.map_some]

theorem addFd_holds (h : Holds m T) {l : ListName} (hl : l ≠ .unuse) (type : ThreadType) (func : φ)
    (arg : α) {fd : Nat} (hfd : fd < FD_SETSIZE) :
    ∃ m', threadAddFd l type func arg fd m = some ((addFd l ⟨type, func, arg, .fd fd⟩ fd T).1, m') ∧
      Holds m' (addFd l ⟨type, func, arg, .fd fd⟩ fd T).2 := by
  cases hset : T.fds l fd with
  | true =>
    have hspec : addFd l ⟨type, func, arg, .fd fd⟩ fd T = (none, T) := if_pos hset
    rw [hspec]
    refine ⟨m, ?_, h⟩
    rw [threadAddFd, if_neg (Nat.not_le_of_lt hfd), h.fds, if_pos hset]
  | false =>
    have hspec : addFd l ⟨type, func, arg, .fd fd⟩ fd T =
        (some T.take.1, (addLast l ⟨type, func, arg, .fd fd⟩ T).setFd l fd true) :=
          if_neg (by rw [hset]; exact Bool.false_ne_true)
    rw [hspec]
    obtain ⟨m₁, u₁, hget, h₁, hp₁⟩ := threadGet_holds h type func arg
    obtain ⟨m₂, hedit, h₂, hp₂⟩ := (hp₁.setFd l fd true).edit (h₁.setFd l fd true) fun t =>
        { t with u := .fd fd }
    obtain ⟨m', hadd, h'⟩ := hp₂.add h₂ l
    refine ⟨m', ?_, ?_⟩
    · rw [threadAddFd, if_neg (Nat.not_le_of_lt hfd), h.fds,
        if_neg (by rw [hset]; exact Bool.false_ne_true), hget,
        Option.bind_some]
      simp only [hedit, Option.bind_some, hadd, Option.map_some]
    · have hlists : (T.take.2.setFd l fd true).lists l = T.lists l := take_lists T hl
      rw [hlists] at h'
      exact h'

theorem timer_head (h : Holds m T) : (m.lists .timer).head = first (T.lists .timer) none := by
  rw [h.shelves.ends .timer]
  rfl

theorem addTimer_holds (h : Holds m T) (hT : Sound T) (func : φ) (arg : α) (now : Timeval)
    (timer : Int) (hrange : InRange ⟨now.tv_sec + timer, now.tv_usec⟩) :
    ∃ m', threadAddTimer func arg now timer m = some (some T.take.1, m') ∧
      Holds m' (addTimer
        ⟨.THREAD_TIMER, func, arg, .sands ⟨now.tv_sec + timer, now.tv_usec⟩⟩ T) := by
  obtain ⟨m₁, m₂, hget, -, hedit, h₂, hp₂⟩ :=
    get_holds h .THREAD_TIMER func arg (.sands ⟨now.tv_sec + timer, now.tv_usec⟩)
  have hlists : T.take.2.lists .timer = T.lists .timer := take_lists T (by decide)
  obtain ⟨x, hx⟩ : ∃ x : Thread φ α,
      x = ⟨.THREAD_TIMER, func, arg, .sands ⟨now.tv_sec + timer, now.tv_usec⟩⟩ := ⟨_, rfl⟩
  rw [← hx] at hp₂ ⊢
  have hfind : findTimer (fun t => timevalCmp ⟨now.tv_sec + timer, now.tv_usec⟩ t ≤ 0) m₂.heap
    (m₂.heap.length + 1)
      (m₂.lists .timer).head = some (first ((T.lists .timer).dropWhile (earlier x)) none) := by
    rw [timer_head h₂, hlists]
    have hseg := h₂.shelves.segment .timer
    have hlen := h₂.length_le .timer
    rw [hlists] at hseg hlen
    refine findTimer_holds _ _ hseg (Nat.le_succ_of_le hlen) fun c hc =>
      ⟨time c.2, (hT.fits _ c hc).time_eq.1, ?_⟩
    have hcmp := timevalCmp_nonpos hrange (hT.fits _ c hc).time_eq.2
    have htime : time x = ⟨now.tv_sec + timer, now.tv_usec⟩ := by rw [hx, time_sands rfl]
    rw [earlier, htime, ← decide_not, decide_eq_decide, hcmp]
    exact Int.not_lt.symm
  have hcut : T.take.2.lists .timer =
      (T.lists .timer).takeWhile (earlier x) ++ (T.lists .timer).dropWhile (earlier x) := by
    rw [hlists, List.takeWhile_append_dropWhile]
  cases hbehind : (T.lists .timer).dropWhile (earlier x) with
  | nil =>
    obtain ⟨m', hadd, h'⟩ := hp₂.add h₂ .timer
    rw [hcut, hbehind, List.append_nil] at h'
    rw [addTimer, hbehind]
    refine ⟨m', ?_, h'⟩
    rw [hbehind] at hfind
    rw [threadAddTimer, hget, Option.bind_some, hedit, Option.bind_some, hfind, Option.bind_some]
    simp only [first, hadd, Option.map_some]
  | cons c cells =>
    rw [hbehind] at hcut hfind
    obtain ⟨m', hadd, h'⟩ := listAddBefore_holds h₂ .timer hp₂.loose hp₂.read hcut
    rw [addTimer, hbehind]
    refine ⟨m', ?_, h'⟩
    rw [threadAddTimer, hget, Option.bind_some, hedit, Option.bind_some, hfind, Option.bind_some]
    simp only [first, hadd, Option.map_some]

/-! ## Tasks are dropped -/

theorem filter_cells (h : Holds m T) {l : ListName} {pre post : List (Cell φ α)} {c : Cell φ α}
    (hcells : T.lists l = pre ++ c :: post) :
    (T.lists l).filter (fun d => d.1 ≠ c.1) = pre ++ post := by
  have hapart := apart_middle.mp (hcells ▸ h.shelves.apart l)
  have hkeep : ∀ d ∈ pre ++ post, decide (d.1 ≠ c.1) = true :=
    fun d hd => decide_eq_true (hapart.1 d hd)
  rw [hcells, List.filter_append, List.filter_cons_of_neg (by simp), ← List.filter_append,
    List.filter_eq_self.mpr hkeep]

/-- A node that is in use is found. -/
theorem findCell_eq (h : Holds m T) {l : ListName} (hl : l ≠ .unuse) {c : Cell φ α}
    (hc : c ∈ T.lists l) :
    findCell c.1 T = some (l, c) := by
  have hown : (T.lists l).find? (fun d => d.1 = c.1) = some c := by
    obtain ⟨pre, post, hcells⟩ := List.mem_iff_append.mp hc
    have hapart := (apart_middle.mp (hcells ▸ h.shelves.apart l)).1
    rw [hcells, List.find?_append, List.find?_eq_none.mpr, Option.none_or,
      List.find?_cons_of_pos (by simp)]
    intro d hd
    simpa using hapart d (List.mem_append_left _ hd)
  have hother : ∀ l', l' ≠ l → (T.lists l').find? (fun d => d.1 = c.1) = none := by
    intro l' hne
    refine List.find?_eq_none.mpr fun d hd => ?_
    simpa using h.shelves.cross l' l hne d hd c hc
  cases l with
  | unuse => exact absurd rfl hl
  | read => simp [findCell, hown]
  | write => simp [findCell, hown, hother .read (by decide)]
  | timer => simp [findCell, hown, hother .read (by decide), hother .write (by decide)]
  | event => simp [findCell, hown, hother .read (by decide), hother .write (by decide),
      hother .timer (by decide)]
  | ready =>
    simp [findCell, hown, hother .read (by decide), hother .write (by decide),
      hother .timer (by decide),
      hother .event (by decide)]

/-- A node is taken off its list and kept for later. -/
theorem recycle_holds (h : Holds m T) {l : ListName} {pre post : List (Cell φ α)} {c : Cell φ α}
    (hcells : T.lists l = pre ++ c :: post) :
    ∃ m₁ m', threadListDelete l c.1 m = some m₁ ∧ release c.1 m₁ = some m' ∧
      Holds m' (recycle c (T.put l (pre ++ post))) := by
  obtain ⟨m₁, hdelete, h₁, hp₁⟩ := listDelete_holds h hcells
  obtain ⟨m', hrelease, h'⟩ := hp₁.release h₁
  exact ⟨m₁, m', hdelete, hrelease, h'⟩

theorem cancel_holds (h : Holds m T) (hT : Sound T) {l : ListName} (hl : l ≠ .unuse) {c : Cell φ α}
    (hc : c ∈ T.lists l) :
    ∃ m', threadCancel c.1 m = some m' ∧ Holds m' (cancel c.1 T) := by
  obtain ⟨pre, post, hcells⟩ := List.mem_iff_append.mp hc
  have hread : read m.heap c.1 = some ⟨last none pre, first post none, c.2⟩ := by
    have hseg := h.shelves.segment l
    rw [hcells] at hseg
    exact hseg.read_cell
  have htype := (hT.fits l c hc).type
  have hcancel : cancel c.1 T = recycle c ((clearFd l c.2.u T).put l (pre ++ post)) := by
    rw [cancel, findCell_eq h hl hc]
    simp only [filter_cells h hcells]
  rw [hcancel, threadCancel, hread, Option.bind_some]
  have hfd : ∀ l', Watched l' → l = l' → ∃ fd, c.2.u = .fd fd ∧ m.fds l fd = true ∧
      clearFd l c.2.u T = T.setFd l fd false := by
    rintro l' hwatched rfl
    obtain ⟨fd, hu⟩ := (hT.fits l c hc).fd hwatched
    refine ⟨fd, hu, ?_, ?_⟩
    · rw [h.fds]
      exact (hT.watched l hwatched fd).mpr ⟨c, hc, hu⟩
    · rw [hu]
      rcases hwatched with rfl | rfl <;> rfl
  have hplain : clearFd l c.2.u T = T → ∃ m',
    (threadListDelete l c.1 m).bind (release c.1) = some m' ∧
      Holds m' (recycle c ((clearFd l c.2.u T).put l (pre ++ post))) := by
    intro hclear
    obtain ⟨m₁, m', hdelete, hrelease, h'⟩ := recycle_holds h hcells
    rw [hclear]
    exact ⟨m', by rw [hdelete, Option.bind_some, hrelease], h'⟩
  have hset : Watched l → ∃ m', (cancelFd l c.1 c.2.u m).bind (release c.1) = some m' ∧
      Holds m' (recycle c ((clearFd l c.2.u T).put l (pre ++ post))) := by
    intro hwatched
    obtain ⟨fd, hu, hon, hclear⟩ := hfd l hwatched rfl
    obtain ⟨m₁, m', hdelete, hrelease, h'⟩ :=
      recycle_holds (h.setFd l fd false) (T := T.setFd l fd false) hcells
    rw [hclear]
    refine ⟨m', ?_, h'⟩
    rw [cancelFd, hu, Payload.getFd, Option.bind_some, if_pos hon, hdelete,
      Option.bind_some, hrelease]
  cases l with
  | unuse => exact absurd rfl hl
  | read =>
    simp only [htype, typeOf]
    exact hset (.inl rfl)
  | write =>
    simp only [htype, typeOf]
    exact hset (.inr rfl)
  | timer =>
    simp only [htype, typeOf]
    exact hplain rfl
  | event =>
    simp only [htype, typeOf]
    exact hplain rfl
  | ready =>
    simp only [htype, typeOf]
    exact hplain rfl

/-- Those of the events that are left are looked at. -/
theorem cancelEventLoop_holds [DecidableEq α] (arg : α) {kept cells : List (Cell φ α)}
    (h : Holds m T) (hcells : T.lists .event = kept ++ cells) {fuel : Nat}
    (hfuel : cells.length ≤ fuel) :
    ∃ m', cancelEventLoop arg fuel (first cells none) m = some m' ∧
      Holds m' ((T.put .event (kept ++ cells.filter fun c => c.2.arg ≠ arg)).put .unuse
        (T.lists .unuse ++ (cells.filter fun c => c.2.arg = arg).map fun c =>
          (c.1, unused c.2))) := by
  induction cells generalizing m T kept fuel with
  | nil =>
    refine ⟨m, by cases fuel <;> rfl, ?_⟩
    have hsame : (T.put .event (kept ++ [])).put .unuse (T.lists .unuse ++ []) = T := by
      rw [← hcells, List.append_nil]
      exact Tasks.ext (funext fun l => by cases l <;> rfl) rfl rfl
    exact (congrArg (Holds m) hsame).mpr h
  | cons c cells ih =>
    cases fuel with
    | zero => cases hfuel
    | succ fuel =>
      have hseg := h.shelves.segment .event
      rw [hcells] at hseg
      rw [first, cancelEventLoop, hseg.read_cell, Option.bind_some]
      by_cases harg : c.2.arg = arg
      · obtain ⟨m₁, m₂, hdelete, hrelease, h₂⟩ := recycle_holds h hcells
        obtain ⟨m', hloop, h'⟩ := ih h₂ (rfl : _ = kept ++ cells) (Nat.le_of_succ_le_succ hfuel)
        refine ⟨m', ?_, ?_⟩
        · rw [if_pos harg, hdelete, Option.bind_some, hrelease, Option.bind_some, hloop]
        · rw [List.filter_cons_of_pos (by simpa using harg),
            List.filter_cons_of_neg (by simpa using harg)]
          refine Eq.mp (congrArg (Holds m') ?_) h'
          refine Tasks.ext (funext fun l => ?_) rfl rfl
          cases l <;> simp [recycle, Tasks.put, Function.update]
      · have hcells' : T.lists .event = (kept ++ [c]) ++ cells := by
          rw [hcells, List.append_assoc]; rfl
        obtain ⟨m', hloop, h'⟩ := ih h hcells' (Nat.le_of_succ_le_succ hfuel)
        refine ⟨m', ?_, ?_⟩
        · rw [if_neg harg, Option.bind_some, hloop]
        · rw [List.filter_cons_of_neg (by simpa using harg),
            List.filter_cons_of_pos (by simpa using harg)]
          rwa [List.append_assoc] at h'

theorem cancelEvents_holds [DecidableEq α] (h : Holds m T) (arg : α) :
    ∃ m', threadCancelEvent arg m = some m' ∧ Holds m' (cancelEvents arg T) := by
  obtain ⟨m', hloop, h'⟩ :=
    cancelEventLoop_holds arg h (rfl : _ = [] ++ T.lists .event)
      (Nat.le_succ_of_le (h.length_le .event))
  refine ⟨m', ?_, h'⟩
  rw [threadCancelEvent, h.shelves.ends .event]
  exact hloop

/-! ## Tasks become ready -/

/-- What the loop of `thread_process_fd` makes of the cells that are left. -/
def wakeFrom (l : ListName) (fdset : Nat → Bool) (kept cells : List (Cell φ α)) (T : Tasks φ α) :
    Tasks φ α :=
  { T with
    lists := Function.update
      (Function.update T.lists l (kept ++ cells.filter fun c => !wakes fdset c)) .ready
      (T.lists .ready ++ (cells.filter (wakes fdset)).map readied)
    fds := Function.update T.fds l fun fd => T.fds l fd && !cells.any fun c =>
      wakes fdset c && c.2.u = .fd fd }

theorem wakes_fd {fdset : Nat → Bool} {c : Cell φ α} {fd : Nat} (hu : c.2.u = .fd fd) :
    wakes fdset c = fdset fd := by
  rw [wakes, hu]
  rfl

theorem processFdLoop_holds {l : ListName} (hl : Watched l) (fdset : Nat → Bool)
    {kept cells : List (Cell φ α)} (h : Holds m T) (hcells : T.lists l = kept ++ cells)
    (hu : ∀ c ∈ cells, ∃ fd, c.2.u = .fd fd ∧ T.fds l fd = true)
    (honce : (cells.map fun c => c.2.u).Nodup) {fuel : Nat} (hfuel : cells.length ≤ fuel) :
    ∃ m', processFdLoop l fdset fuel (first cells none) m = some m' ∧
    Holds m' (wakeFrom l fdset kept cells T) := by
  have hready : l ≠ .ready := by rcases hl with rfl | rfl <;> decide
  induction cells generalizing m T kept fuel with
  | nil =>
    refine ⟨m, by cases fuel <;> rfl, ?_⟩
    have hsame : wakeFrom l fdset kept [] T = T := by
      refine Tasks.ext (funext fun l' => ?_) (funext fun l' => ?_) rfl
      · rw [wakeFrom]
        simp only [List.filter_nil, List.map_nil, List.append_nil]
        rw [List.append_nil] at hcells
        rw [← hcells, Function.update_eq_self, Function.update_eq_self]
      · rw [wakeFrom]
        simp
    rw [hsame]
    exact h
  | cons c cells ih =>
    cases fuel with
    | zero => cases hfuel
    | succ fuel =>
      have hseg := h.shelves.segment l
      rw [hcells] at hseg
      obtain ⟨fd, hfd, hon⟩ := hu c List.mem_cons_self
      obtain ⟨hnew, honce'⟩ := List.nodup_cons.mp honce
      have hdistinct : ∀ d ∈ cells, ∀ fd', d.2.u = .fd fd' → fd' ≠ fd := by
        rintro d hd fd' hfd' rfl
        exact hnew (List.mem_map.mpr ⟨d, hd, hfd'.trans hfd.symm⟩)
      rw [first, processFdLoop, hseg.read_cell, Option.bind_some]
      simp only [hfd, Payload.getFd, Option.bind_some]
      have hwakes : wakes fdset c = fdset fd := wakes_fd hfd
      cases hset : fdset fd with
      | false =>
        have hcells' : T.lists l = (kept ++ [c]) ++ cells := by
          rw [hcells, List.append_assoc]
          rfl
        obtain ⟨m', hloop, h'⟩ := ih h hcells' (fun d hd => hu d (List.mem_cons_of_mem c hd)) honce'
          (Nat.le_of_succ_le_succ hfuel)
        refine ⟨m', ?_, ?_⟩
        · rw [if_neg Bool.false_ne_true, Option.bind_some, hloop]
        · rw [hset] at hwakes
          have hsame : wakeFrom l fdset (kept ++ [c]) cells T =
              wakeFrom l fdset kept (c :: cells) T := by
            simp [wakeFrom, hwakes]
          rw [← hsame]
          exact h'
      | true =>
        rw [hset] at hwakes
        obtain ⟨m₁, hdelete, h₁, hp₁⟩ :=
          listDelete_holds (h.setFd l fd false) (T := T.setFd l fd false) hcells
        obtain ⟨m₂, hadd, h₂⟩ := hp₁.add h₁ .ready
        obtain ⟨m₃, hedit, h₃⟩ := edit_holds h₂ (l := .ready) (put_self _ _ _) fun t =>
            { t with type := .THREAD_READY }
        obtain ⟨T₃, hT₃⟩ : ∃ T₃, T₃ = wakeFrom l fdset (kept ++ cells) [c] T := ⟨_, rfl⟩
        have hlists : T₃.lists = Function.update (Function.update T.lists l (kept ++ cells)) .ready
            (T.lists .ready ++ [readied c]) := by
          rw [hT₃, wakeFrom]
          simp [hwakes]
        have hfds : T₃.fds = Function.update T.fds l (Function.update (T.fds l) fd false) := by
          rw [hT₃, wakeFrom]
          refine congrArg (Function.update T.fds l) (funext fun fd' => ?_)
          by_cases heq : fd' = fd
          · subst heq
            simp [hwakes, hfd]
          · rw [Function.update_of_ne heq]
            have hother : ¬ fd = fd' := fun h => heq h.symm
            simp [hwakes, hfd, hother]
        have h₃' : Holds m₃ T₃ := by
          refine (congrArg (Holds m₃) (Tasks.ext ?_ hfds.symm ?_)).mp h₃
          · rw [hlists]
            simp only [Tasks.put, Tasks.setFd, Function.update_idem, readied,
              Function.update_of_ne hready.symm]
          · rw [hT₃]
            rfl
        have hleft : T₃.lists l = kept ++ cells := by
          rw [hlists, Function.update_of_ne hready, Function.update_self]
        have hu₃ : ∀ d ∈ cells, ∃ fd', d.2.u = .fd fd' ∧ T₃.fds l fd' = true := by
          intro d hd
          obtain ⟨fd', hfd', hon'⟩ := hu d (List.mem_cons_of_mem c hd)
          refine ⟨fd', hfd', ?_⟩
          rw [hfds, Function.update_self, Function.update_of_ne (hdistinct d hd fd' hfd')]
          exact hon'
        obtain ⟨m', hloop, h'⟩ := ih h₃' hleft hu₃ honce' (Nat.le_of_succ_le_succ hfuel)
        refine ⟨m', ?_, ?_⟩
        · rw [if_pos rfl, h.fds, if_pos hon, hdelete, Option.bind_some, hadd, Option.bind_some,
            hedit, Option.bind_some,
            hloop]
        · refine (congrArg (Holds m') (Tasks.ext ?_ ?_ ?_)).mp h'
          · simp only [wakeFrom, hlists, List.filter_cons_of_pos hwakes, Function.update_self]
            rw [List.filter_cons_of_neg (by simp [hwakes]), List.map_cons, List.append_assoc]
            funext l'
            by_cases hr : l' = .ready
            · subst hr
              rw [Function.update_self, Function.update_self]
              rfl
            · rw [Function.update_of_ne hr, Function.update_of_ne hr]
              by_cases heq : l' = l
              · subst heq
                rw [Function.update_self, Function.update_self]
              · rw [Function.update_of_ne heq, Function.update_of_ne heq, Function.update_of_ne hr,
                  Function.update_of_ne heq]
          · simp only [wakeFrom, hfds, Function.update_self, Function.update_idem]
            refine congrArg (Function.update T.fds l) (funext fun fd' => ?_)
            by_cases heq : fd' = fd
            · subst heq
              simp [hwakes, hfd]
            · rw [Function.update_of_ne heq]
              have hother : ¬ fd = fd' := fun h => heq h.symm
              simp [hfd, hother]
          · rw [hT₃]
            rfl

theorem processFd_holds (h : Holds m T) (hT : Sound T) {l : ListName} (hl : Watched l)
    (fdset : Nat → Bool) :
    ∃ m', threadProcessFd l fdset m = some m' ∧ Holds m' (wake l fdset T) := by
  have hu : ∀ c ∈ T.lists l, ∃ fd, c.2.u = .fd fd ∧ T.fds l fd = true := by
    intro c hc
    obtain ⟨fd, hfd⟩ := (hT.fits l c hc).fd hl
    exact ⟨fd, hfd, (hT.watched l hl fd).mpr ⟨c, hc, hfd⟩⟩
  obtain ⟨m', hloop, h'⟩ :=
    processFdLoop_holds hl fdset h (rfl : _ = [] ++ T.lists l) hu (hT.once l hl)
    (Nat.le_succ_of_le (h.length_le l))
  have hends : (m.lists l).head = first (T.lists l) none := by
    rw [h.shelves.ends l]
    rfl
  refine ⟨m', ?_, Eq.mp (congrArg (Holds m') ?_) h'⟩
  · rw [threadProcessFd, hends]
    exact hloop
  · -- a descriptor of the set that is watched is that of a task, which wakes
    refine Tasks.ext rfl (congrArg (Function.update T.fds l) (funext fun fd => ?_)) rfl
    cases hon : T.fds l fd with
    | false => rfl
    | true =>
      obtain ⟨c, hc, hfd⟩ := (hT.watched l hl fd).mp hon
      have hany : ((T.lists l).any fun c => wakes fdset c && c.2.u = .fd fd) = fdset fd := by
        cases hset : fdset fd with
        | true => exact List.any_eq_true.mpr ⟨c, hc, by simp [wakes_fd hfd, hset, hfd]⟩
        | false =>
          refine List.any_eq_false.mpr fun d _ => ?_
          by_cases heq : d.2.u = .fd fd
          · simp [wakes_fd heq, hset]
          · simp [heq]
      rw [hany]

end Steps

end NetmtThreadMachine
