import Mathlib.Data.List.Basic

/-!
# The queue of libhv

`QUEUE_DECL`: an array of `maxsize` cells of which `size` from `_offset` on are in
use. A push at the end of the array moves the elements to its front, and a push
into a full array doubles it. `none` of a function is an access outside the array
or an assertion that fails. The capacity is one that an `int` holds.
-/
namespace NetmtQueue

variable {α : Type}

def QUEUE_INIT_SIZE : Nat := 16

/-- A cell that holds nothing is zero. -/
structure Queue (α : Type) where
  ptr : List (Option α)
  size : Nat
  maxsize : Nat
  offset : Nat
  deriving DecidableEq, Repr

/-- An `hio_t` comes from `HV_ALLOC`, its queue with it. -/
def zeroed : Queue α := ⟨[], 0, 0, 0⟩

def init (maxsize : Nat) : Queue α := ⟨List.replicate maxsize none, 0, maxsize, 0⟩

def Queue.empty (p : Queue α) : Bool := p.size == 0

/-- The element that `front` points at; `some none` for the null pointer. -/
def front (p : Queue α) : Option (Option α) :=
  if p.size = 0 then some none else p.ptr[p.offset]?

def back (p : Queue α) : Option (Option α) :=
  if p.size = 0 then some none else p.ptr[p.offset + p.size - 1]?

def clear (p : Queue α) : Queue α :=
  { p with offset := 0, size := 0, ptr := List.replicate p.maxsize none }

def cleanup (_ : Queue α) : Queue α := ⟨[], 0, 0, 0⟩

/-- `safe_realloc` zeroes what is new. -/
def resize (maxsize : Nat) (p : Queue α) : Queue α :=
  let maxsize := if maxsize = 0 then QUEUE_INIT_SIZE else maxsize
  { p with
    ptr := p.ptr.take maxsize ++ List.replicate (maxsize - p.maxsize) none
    maxsize := maxsize }

def doubleResize (p : Queue α) : Queue α := resize (p.maxsize * 2) p

/-- `memmove(p->ptr, p->ptr + p->_offset, sizeof(type) * p->size)` -/
def moveToFront (p : Queue α) : Option (Queue α) :=
  if p.offset + p.size ≤ p.ptr.length then
    some { p with ptr := (p.ptr.drop p.offset).take p.size ++ p.ptr.drop p.size, offset := 0 }
  else none

/-- The room that `push_back` makes. -/
def makeRoom (p : Queue α) : Option (Queue α) :=
  if p.size = p.maxsize then some (doubleResize p)
  else if p.offset + p.size = p.maxsize then moveToFront p
  else some p

/-- `p->ptr[p->_offset + p->size] = *elem; p->size++` -/
def store (elem : α) (p : Queue α) : Option (Queue α) :=
  if p.offset + p.size < p.ptr.length then
    some { p with ptr := p.ptr.set (p.offset + p.size) (some elem), size := p.size + 1 }
  else none

def pushBack (elem : α) (p : Queue α) : Option (Queue α) := (makeRoom p).bind (store elem)

def popFront (p : Queue α) : Option (Queue α) :=
  if 0 < p.size then
    some { p with size := p.size - 1, offset := if p.offset + 1 = p.maxsize then 0
      else p.offset + 1 }
  else none

def popBack (p : Queue α) : Option (Queue α) :=
  if 0 < p.size then some { p with size := p.size - 1 } else none

/-- A write through the pointer that `front` returned. -/
def setFront (elem : α) (p : Queue α) : Option (Queue α) :=
  if 0 < p.size ∧ p.offset < p.ptr.length then some { p with ptr := p.ptr.set p.offset (some elem) }
  else none

/-! ## What a queue holds -/

/-- The array has the cells that `maxsize` promises, and those in use hold `xs`. -/
structure Holds (p : Queue α) (xs : List α) : Prop where
  alloc : p.ptr.length = p.maxsize
  size : p.size = xs.length
  room : p.offset + p.size ≤ p.maxsize
  start : p.offset < p.maxsize ∨ p.offset = 0
  cells : (p.ptr.drop p.offset).take p.size = xs.map some

theorem holds_zeroed : Holds (zeroed : Queue α) [] := ⟨rfl, rfl, Nat.le_refl _, .inr rfl, rfl⟩

theorem holds_cleanup (p : Queue α) : Holds (cleanup p) [] := holds_zeroed

theorem holds_init (maxsize : Nat) : Holds (init maxsize : Queue α) [] :=
  ⟨List.length_replicate, rfl, Nat.zero_le _, .inr rfl, by simp [init]⟩

theorem holds_clear {p : Queue α} : Holds (clear p) [] :=
  ⟨List.length_replicate, rfl, Nat.zero_le _, .inr rfl, by simp [clear]⟩

theorem Holds.empty_iff {p : Queue α} {xs : List α} (h : Holds p xs) :
    p.empty = true ↔ xs = [] := by
  rw [Queue.empty, beq_iff_eq, h.size, List.length_eq_zero_iff]

/-- The cell of an element. -/
theorem Holds.cell {p : Queue α} {xs : List α} (h : Holds p xs) {i : Nat} (hi : i < xs.length) :
    p.ptr[p.offset + i]? = some (some xs[i]) := by
  have hget : ((p.ptr.drop p.offset).take p.size)[i]? = (xs.map some)[i]? := by rw [h.cells]
  rw [List.getElem?_take, if_pos (by rw [h.size]; exact hi), List.getElem?_drop, List.getElem?_map,
    List.getElem?_eq_getElem hi] at hget
  exact hget

theorem front_spec {p : Queue α} {xs : List α} (h : Holds p xs) : front p = some xs.head? := by
  cases xs with
  | nil => exact if_pos h.size
  | cons x xs =>
    have hcell := h.cell (i := 0) (Nat.succ_pos _)
    have hsize : p.size ≠ 0 := by rw [h.size]; simp
    rw [Nat.add_zero] at hcell
    rw [front, if_neg hsize, hcell]
    rfl

theorem back_spec {p : Queue α} {xs : List α} (h : Holds p xs) : back p = some xs.getLast? := by
  by_cases hxs : xs = []
  · subst hxs
    exact if_pos h.size
  · have hpos : 0 < xs.length := List.length_pos_of_ne_nil hxs
    have hcell := h.cell (i := xs.length - 1) (by omega)
    have hplace : p.offset + p.size - 1 = p.offset + (xs.length - 1) := by
      rw [h.size]
      omega
    rw [back, if_neg (by rw [h.size]; omega), hplace, hcell, List.getLast?_eq_getElem?,
      List.getElem?_eq_getElem (by omega)]

/-- The array grows behind what is in use. -/
theorem holds_doubleResize {p : Queue α} {xs : List α} (h : Holds p xs) :
    Holds (doubleResize p) xs ∧ p.maxsize < (doubleResize p).maxsize := by
  obtain ⟨halloc, hsize, hroom, hstart, hcells⟩ := h
  have hmax : ∃ m, p.maxsize < m ∧ doubleResize p =
      { p with ptr := p.ptr ++ List.replicate (m - p.maxsize) none, maxsize := m } := by
    by_cases hzero : p.maxsize = 0
    · refine ⟨QUEUE_INIT_SIZE, by rw [hzero]; decide, ?_⟩
      rw [doubleResize, resize, if_pos (by rw [hzero])]
      rw [List.take_of_length_le (by omega)]
    · refine ⟨p.maxsize * 2, by omega, ?_⟩
      rw [doubleResize, resize, if_neg (by omega)]
      rw [List.take_of_length_le (by omega)]
  obtain ⟨m, hm, heq⟩ := hmax
  rw [heq]
  refine ⟨⟨?_, hsize, ?_, ?_, ?_⟩, hm⟩
  · show (p.ptr ++ List.replicate (m - p.maxsize) none).length = m
    rw [List.length_append, List.length_replicate]
    omega
  · show p.offset + p.size ≤ m
    omega
  · exact hstart.imp_left fun hlt => Nat.lt_trans hlt hm
  · show ((p.ptr ++ List.replicate (m - p.maxsize) none).drop p.offset).take p.size = xs.map some
    have hbehind : p.size ≤ (p.ptr.drop p.offset).length := by
      rw [List.length_drop]
      omega
    rw [List.drop_append_of_le_length (by omega), List.take_append_of_le_length hbehind, hcells]

theorem holds_moveToFront {p : Queue α} {xs : List α} (h : Holds p xs) :
    ∃ p', moveToFront p = some p' ∧ Holds p' xs ∧ p'.offset = 0 ∧ p'.maxsize = p.maxsize := by
  refine ⟨_, if_pos (by rw [h.alloc]; exact h.room), ⟨?_, h.size, ?_, .inr rfl, ?_⟩, rfl, rfl⟩
  · have hroom := h.room
    have halloc := h.alloc
    simp only [List.length_append, List.length_take, List.length_drop]
    omega
  · have hroom := h.room
    show 0 + p.size ≤ p.maxsize
    omega
  · rw [List.drop_zero, h.cells, List.take_append_of_le_length (by simp [h.size]),
      List.take_of_length_le (by simp [h.size])]

/-- Behind the elements is a cell. -/
theorem holds_makeRoom {p : Queue α} {xs : List α} (h : Holds p xs) :
    ∃ p', makeRoom p = some p' ∧ Holds p' xs ∧ p'.offset + p'.size < p'.maxsize := by
  have hroom := h.room
  rw [makeRoom]
  by_cases hfull : p.size = p.maxsize
  · obtain ⟨hheld, hgrown⟩ := holds_doubleResize h
    refine ⟨_, if_pos hfull, hheld, ?_⟩
    have hsize : (doubleResize p).size = p.size := rfl
    have hoffset : (doubleResize p).offset = p.offset := rfl
    rw [hsize, hoffset]
    omega
  · rw [if_neg hfull]
    by_cases hend : p.offset + p.size = p.maxsize
    · rw [if_pos hend]
      obtain ⟨p', hmoved, hheld, hfront, hmax⟩ := holds_moveToFront h
      refine ⟨p', hmoved, hheld, ?_⟩
      rw [hfront, hheld.size, hmax, ← h.size]
      omega
    · exact ⟨p, if_neg hend, h, by omega⟩

theorem holds_store {p : Queue α} {xs : List α} (h : Holds p xs)
    (hlast : p.offset + p.size < p.maxsize) (x : α) :
    ∃ p', store x p = some p' ∧ Holds p' (xs ++ [x]) := by
  have halloc := h.alloc
  refine ⟨_, if_pos (by omega), ⟨?_, ?_, ?_, .inl ?_, ?_⟩⟩
  · rw [List.length_set, halloc]
  · simp [h.size]
  · show p.offset + (p.size + 1) ≤ p.maxsize
    omega
  · show p.offset < p.maxsize
    omega
  · show ((p.ptr.set (p.offset + p.size) (some x)).drop p.offset).take (p.size + 1) =
      (xs ++ [x]).map some
    obtain ⟨c, hcell⟩ : ∃ c, (p.ptr.drop p.offset)[p.size]? = some c := by
      rw [List.getElem?_drop]
      exact ⟨_, List.getElem?_eq_getElem (by omega)⟩
    rw [List.drop_set, if_neg (by omega), Nat.add_sub_cancel_left, List.take_set, List.take_add_one,
      hcell, h.cells, h.size, List.set_append_right _ _ (by simp), List.length_map, Nat.sub_self,
      List.map_append]
    rfl

theorem pushBack_spec {p : Queue α} {xs : List α} (h : Holds p xs) (x : α) :
    ∃ p', pushBack x p = some p' ∧ Holds p' (xs ++ [x]) := by
  obtain ⟨q, hmade, hheld, hlast⟩ := holds_makeRoom h
  obtain ⟨p', hstored, hheld'⟩ := holds_store hheld hlast x
  exact ⟨p', by rw [pushBack, hmade, Option.bind_some, hstored], hheld'⟩

theorem popFront_nil {p : Queue α} (h : Holds p []) : popFront p = none :=
  if_neg (by rw [h.size]; exact Nat.lt_irrefl 0)

theorem popFront_spec {p : Queue α} {x : α} {xs : List α} (h : Holds p (x :: xs)) :
    ∃ p', popFront p = some p' ∧ Holds p' xs := by
  have hsize : p.size = xs.length + 1 := h.size
  have hroom := h.room
  refine ⟨_, if_pos (by omega), ⟨h.alloc, by simp [hsize], ?_, ?_, ?_⟩⟩
  · show (if p.offset + 1 = p.maxsize then 0 else p.offset + 1) + (p.size - 1) ≤ p.maxsize
    split <;> omega
  · show (if p.offset + 1 = p.maxsize then 0 else p.offset + 1) < p.maxsize ∨ _
    split
    · exact .inl (by omega)
    · exact .inl (by omega)
  · show (p.ptr.drop (if p.offset + 1 = p.maxsize then 0 else p.offset + 1)).take
      (p.size - 1) = xs.map some
    by_cases hend : p.offset + 1 = p.maxsize
    · -- the last cell was in use, and no other
      have hnil : xs = [] := List.length_eq_zero_iff.mp (by omega)
      rw [hsize, hnil]
      simp
    · rw [if_neg hend]
      have htail : ((p.ptr.drop p.offset).take p.size).tail = xs.map some := by rw [h.cells]; rfl
      rw [← htail, ← List.drop_one, List.drop_take, List.drop_drop]

theorem popBack_nil {p : Queue α} (h : Holds p []) : popBack p = none :=
  if_neg (by rw [h.size]; exact Nat.lt_irrefl 0)

theorem popBack_spec {p : Queue α} {x : α} {xs : List α} (h : Holds p (xs ++ [x])) :
    ∃ p', popBack p = some p' ∧ Holds p' xs := by
  have hsize : p.size = xs.length + 1 := by rw [h.size]; simp
  have hroom := h.room
  refine ⟨_, if_pos (by omega), ⟨h.alloc, by simp [hsize], ?_, h.start, ?_⟩⟩
  · show p.offset + (p.size - 1) ≤ p.maxsize
    omega
  · show (p.ptr.drop p.offset).take (p.size - 1) = xs.map some
    have hinit : ((p.ptr.drop p.offset).take p.size).take (p.size - 1) = xs.map some := by
      rw [h.cells, List.map_append, hsize, Nat.add_sub_cancel,
        List.take_append_of_le_length (by simp),
        List.take_of_length_le (by simp)]
    rw [List.take_take] at hinit
    rw [← hinit, Nat.min_eq_left (by omega)]

theorem setFront_spec {p : Queue α} {x : α} {xs : List α} (h : Holds p (x :: xs)) (y : α) :
    ∃ p', setFront y p = some p' ∧ Holds p' (y :: xs) := by
  have hsize : p.size = xs.length + 1 := h.size
  have hroom := h.room
  have halloc := h.alloc
  refine ⟨_, if_pos ⟨by omega, by omega⟩, ⟨?_, hsize, hroom, h.start, ?_⟩⟩
  · rw [List.length_set, halloc]
  · show ((p.ptr.set p.offset (some y)).drop p.offset).take p.size = (y :: xs).map some
    rw [List.drop_set, if_neg (by omega), Nat.sub_self, List.take_set, h.cells]
    rfl

/-! ## Runs -/

inductive Call (α : Type) where
  | pushBack (elem : α)
  | popFront
  | popBack
  | front
  | back
  | setFront (elem : α)
  | size
  | empty
  | clear
  | cleanup
  deriving Repr

inductive Answer (α : Type) where
  | nothing
  /-- the element that the pointer is of, if it is not null -/
  | elem (x : Option α)
  | size (n : Nat)
  | empty (b : Bool)
  deriving DecidableEq, Repr

/-- The queue behind a call, and what the call returned. -/
def Call.onQueue : Call α → Queue α → Option (Queue α × Answer α)
  | .pushBack x, p => (NetmtQueue.pushBack x p).map fun p => (p, .nothing)
  | .popFront, p => (NetmtQueue.popFront p).map fun p => (p, .nothing)
  | .popBack, p => (NetmtQueue.popBack p).map fun p => (p, .nothing)
  | .front, p => (NetmtQueue.front p).map fun x => (p, .elem x)
  | .back, p => (NetmtQueue.back p).map fun x => (p, .elem x)
  | .setFront x, p => (NetmtQueue.setFront x p).map fun p => (p, .nothing)
  | .size, p => some (p, .size p.size)
  | .empty, p => some (p, .empty p.empty)
  | .clear, p => some (NetmtQueue.clear p, .nothing)
  | .cleanup, p => some (NetmtQueue.cleanup p, .nothing)

/-- What the same call is for, on the elements alone. -/
def Call.onList : Call α → List α → Option (List α × Answer α)
  | .pushBack x, xs => some (xs ++ [x], .nothing)
  | .popFront, xs => if xs = [] then none else some (xs.tail, .nothing)
  | .popBack, xs => if xs = [] then none else some (xs.dropLast, .nothing)
  | .front, xs => some (xs, .elem xs.head?)
  | .back, xs => some (xs, .elem xs.getLast?)
  | .setFront x, xs => if xs = [] then none else some (x :: xs.tail, .nothing)
  | .size, xs => some (xs, .size xs.length)
  | .empty, xs => some (xs, .empty xs.isEmpty)
  | .clear, _ => some ([], .nothing)
  | .cleanup, _ => some ([], .nothing)

/-- Calls one after the other, with all that they return. -/
def run {σ : Type} (call : Call α → σ → Option (σ × Answer α)) :
    List (Call α) → σ → Option (σ × List (Answer α))
  | [], s => some (s, [])
  | c :: cs, s => (call c s).bind fun r => (run call cs r.1).map fun t => (t.1, r.2 :: t.2)

/-- Both end, with the same answers, or both stop. -/
inductive Agree {β : Type} : Option (Queue α × β) → Option (List α × β) → Prop where
  | stop : Agree none none
  | done {p : Queue α} {xs : List α} (b : β) : Holds p xs → Agree (some (p, b)) (some (xs, b))

theorem agree_of {p : Option (Queue α)} {xs : List α} (h : ∃ p', p = some p' ∧ Holds p' xs) :
    Agree (p.map fun p => (p, (Answer.nothing : Answer α))) (some (xs, .nothing)) := by
  obtain ⟨p', rfl, hheld⟩ := h
  exact .done _ hheld

theorem call_agree (c : Call α) {p : Queue α} {xs : List α} (h : Holds p xs) :
    Agree (c.onQueue p) (c.onList xs) := by
  cases c with
  | pushBack x => exact agree_of (pushBack_spec h x)
  | popFront =>
    cases xs with
    | nil =>
      rw [Call.onQueue, popFront_nil h]
      exact .stop
    | cons x xs => exact agree_of (popFront_spec h)
  | popBack =>
    rcases List.eq_nil_or_concat xs with rfl | ⟨ys, y, rfl⟩
    · rw [Call.onQueue, popBack_nil h]
      exact .stop
    · rw [Call.onList, if_neg (by simp), List.concat_eq_append, List.dropLast_concat]
      exact agree_of (popBack_spec (List.concat_eq_append ▸ h))
  | front =>
    rw [Call.onQueue, front_spec h]
    exact .done _ h
  | back =>
    rw [Call.onQueue, back_spec h]
    exact .done _ h
  | setFront x =>
    cases xs with
    | nil =>
      have hempty : setFront x p = none :=
        if_neg (by rw [h.size]; exact fun h => Nat.lt_irrefl 0 h.1)
      rw [Call.onQueue, hempty]
      exact .stop
    | cons y xs => exact agree_of (setFront_spec h x)
  | size =>
    have hsize : p.size = xs.length := h.size
    rw [Call.onQueue, hsize]
    exact .done _ h
  | empty =>
    have hempty : p.empty = xs.isEmpty := by
      rw [Bool.eq_iff_iff, h.empty_iff, List.isEmpty_iff]
    rw [Call.onQueue, hempty]
    exact .done _ h
  | clear => exact .done _ holds_clear
  | cleanup => exact .done _ (holds_cleanup p)

theorem run_agree (cs : List (Call α)) {p : Queue α} {xs : List α} (h : Holds p xs) :
    Agree (run Call.onQueue cs p) (run Call.onList cs xs) := by
  induction cs generalizing p xs with
  | nil => exact .done [] h
  | cons c cs ih =>
    have hcall := call_agree c h
    rw [run, run]
    generalize c.onQueue p = r, c.onList xs = t at hcall
    cases hcall with
    | stop => exact .stop
    | done b hheld =>
      have hrest := ih hheld
      simp only [Option.bind_some]
      generalize run Call.onQueue cs _ = r, run Call.onList cs _ = t at hrest
      cases hrest with
      | stop => exact .stop
      | done bs hheld => exact .done (b :: bs) hheld

/-- Whatever the capacity at first and however often it is outgrown: any calls return
what they would on the list of the elements, and none of them leaves the array. The
only calls that stop are those that ask an empty queue for an element. -/
theorem queue_is_list (maxsize : Nat) (cs : List (Call α)) :
    (run Call.onQueue cs (init maxsize)).map Prod.snd = (run Call.onList cs []).map Prod.snd := by
  have hrun := run_agree cs (holds_init maxsize)
  generalize run Call.onQueue cs (init maxsize) = r, run Call.onList cs [] = t at hrun
  cases hrun <;> rfl

end NetmtQueue
