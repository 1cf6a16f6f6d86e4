import Netmt.ThreadRuns
import Mathlib.Algebra.Order.Group.Multiset
import Mathlib.Tactic.Abel

/-!
# What becomes of a task

A task that was added is handed out once, or cancelled, or it waits: none is lost, and none
runs twice. Events are handed out in the order they were added in and before all else, timers
when their time has come and the earliest first.
-/
namespace NetmtThreadFates

open Links Shelves NetmtThread NetmtThreadLists NetmtThreadMachine NetmtThreadSound NetmtThreadRuns

variable {φ α : Type}

/-- What a task is for. -/
abbrev Task (φ α : Type) := φ × α × Payload

def task (x : Thread φ α) : Task φ α := (x.func, x.arg, x.u)

def tasksOn (l : ListName) (T : Tasks φ α) : List (Task φ α) := (T.lists l).map fun c => task c.2

/-- The tasks that wait. -/
def pending (T : Tasks φ α) : Multiset (Task φ α) :=
  (tasksOn .read T : Multiset (Task φ α)) + tasksOn .write T + tasksOn .timer T +
    tasksOn .event T + tasksOn .ready T

/-! ## One operation -/

section Steps

variable {T : Tasks φ α}

theorem pending_put {l : ListName} (hl : l ≠ .unuse) (cells : List (Cell φ α)) (T : Tasks φ α) :
    pending (T.put l cells) + tasksOn l T = pending T +
      (cells.map fun c => task c.2 : List (Task φ α)) := by
  cases l with
  | unuse => exact absurd rfl hl
  | read => simp only [pending, tasksOn, Tasks.put, Function.update, reduceCtorEq, dite_true,
      dite_false]; abel
  | write => simp only [pending, tasksOn, Tasks.put, Function.update, reduceCtorEq, dite_true,
      dite_false]; abel
  | timer => simp only [pending, tasksOn, Tasks.put, Function.update, reduceCtorEq, dite_true,
      dite_false]; abel
  | event => simp only [pending, tasksOn, Tasks.put, Function.update, reduceCtorEq, dite_true,
      dite_false]; abel
  | ready => simp only [pending, tasksOn, Tasks.put, Function.update, reduceCtorEq, dite_true,
      dite_false]; abel

theorem pending_take (T : Tasks φ α) : pending T.take.2 = pending T := by
  rw [Tasks.take]
  split <;> rfl

theorem pending_clear (l : ListName) (u : Payload) (T : Tasks φ α) :
    pending (clearFd l u T) = pending T := by
  simp only [pending, tasksOn, clearFd_lists]

theorem pending_addAt {l : ListName} (hl : l ≠ .unuse) (x : Thread φ α) {pre post : List (Cell φ α)}
    (hcells : T.lists l = pre ++ post) : pending (addAt l pre post x T) = pending T + {task x} := by
  have hput := pending_put hl (pre ++ (T.take.1, x) :: post) T.take.2
  rw [pending_take, tasksOn, take_lists T hl, hcells] at hput
  have hlist : (((pre ++ (T.take.1, x) :: post).map fun c => task c.2 : List (Task φ α)) : Multiset
    (Task φ α)) =
      {task x} + ((pre ++ post).map fun c => task c.2 : List (Task φ α)) := by
    simp only [List.map_append, List.map_cons, ← Multiset.coe_add, ← Multiset.cons_coe,
      ← Multiset.singleton_add]
    abel
  rw [hlist, ← add_assoc] at hput
  exact add_right_cancel hput

theorem pending_addFd {l : ListName} (hl : l ≠ .unuse) (x : Thread φ α) (fd : Nat) :
    (addFd l x fd T = (none, T)) ∨ (∃ p, (addFd l x fd T).1 = some p) ∧ pending (addFd l x fd T).2 =
      pending T + {task x} := by
  rw [addFd]
  split
  · exact .inl rfl
  · exact .inr ⟨⟨_, rfl⟩, pending_addAt hl x (List.append_nil _).symm⟩

/-- A task leaves its list. -/
theorem pending_out {l : ListName} (hl : l ≠ .unuse) {pre post : List (Cell φ α)} {c : Cell φ α}
    (hcells : T.lists l = pre ++ c :: post) :
    pending (recycle c ((clearFd l c.2.u T).put l (pre ++ post))) + {task c.2} = pending T := by
  have hput := pending_put hl (pre ++ post) (clearFd l c.2.u T)
  rw [pending_clear, tasksOn, clearFd_lists, hcells] at hput
  have hlist :
    (((pre ++ c :: post).map fun c => task c.2 : List (Task φ α)) : Multiset (Task φ α)) =
      {task c.2} + ((pre ++ post).map fun c => task c.2 : List (Task φ α)) := by
    simp only [List.map_append, List.map_cons, ← Multiset.coe_add, ← Multiset.cons_coe,
      ← Multiset.singleton_add]
    abel
  rw [hlist, ← add_assoc] at hput
  exact add_right_cancel hput

theorem filter_split (p : Cell φ α → Bool) (cells : List (Cell φ α)) :
    (((cells.filter p).map fun c => task c.2 : List (Task φ α)) : Multiset (Task φ α)) +
      ((cells.filter fun c => !p c).map fun c => task c.2 : List (Task φ α)) =
      (cells.map fun c => task c.2 : List (Task φ α)) := by
  rw [Multiset.coe_add, ← List.map_append]
  exact Multiset.coe_eq_coe.mpr ((List.filter_append_perm p cells).map _)

theorem pending_wake {l : ListName} (hl : Watched l) (fdset : Nat → Bool) :
    pending (wake l fdset T) = pending T := by
  have hsplit := filter_split (wakes fdset) (T.lists l)
  have hmoved : ((T.lists l).filter (wakes fdset)).map (fun c => task (readied c).2) =
      ((T.lists l).filter (wakes fdset)).map fun c => task c.2 := rfl
  rcases hl with rfl | rfl
  · have hself : (wake .read fdset T).lists .read = _ := wake_self (.inl rfl) fdset T
    simp only [pending, tasksOn, hself, wake_ready, wake_other (k := .write) (l := .read)
      (by decide) (by decide),
      wake_other (k := .timer) (l := .read) (by decide) (by decide),
      wake_other (k := .event) (l := .read) (by decide) (by decide), List.map_append, List.map_map,
      Function.comp_def, hmoved, ← Multiset.coe_add, ← hsplit]
    abel
  · have hself : (wake .write fdset T).lists .write = _ := wake_self (.inr rfl) fdset T
    simp only [pending, tasksOn, hself, wake_ready, wake_other (k := .read) (l := .write)
      (by decide) (by decide),
      wake_other (k := .timer) (l := .write) (by decide) (by decide),
      wake_other (k := .event) (l := .write) (by decide) (by decide), List.map_append, List.map_map,
      Function.comp_def, hmoved, ← Multiset.coe_add, ← hsplit]
    abel

/-- What `fetch` may do before it hands a task out. -/
structure Stirred (T T' : Tasks φ α) : Prop where
  sound : Sound T'
  pending : pending T' = pending T
  event : T'.lists .event = T.lists .event
  timer : T'.lists .timer = T.lists .timer

theorem Stirred.refl (hT : Sound T) : Stirred T T := ⟨hT, rfl, rfl, rfl⟩

theorem Stirred.wake {T' : Tasks φ α} (h : Stirred T T') {l : ListName} (hl : Watched l)
    (fdset : Nat → Bool) :
    Stirred T (wake l fdset T') := by
  refine ⟨sound_wake h.sound hl fdset, (pending_wake hl fdset).trans h.pending, ?_, ?_⟩
  · rw [wake_other (by rcases hl with rfl | rfl <;> decide) (by decide)]
    exact h.event
  · rw [wake_other (by rcases hl with rfl | rfl <;> decide) (by decide)]
    exact h.timer

/-- `r` may be handed out: it is the first of its list, no event waits before it, and it is no
timer before its time. -/
structure Chosen (T : Tasks φ α) (rounds : List Round) (r : ListName × Cell φ α × List (Cell φ α))
    (T₁ : Tasks φ α) :
    Prop where
  stirred : Stirred T T₁
  running : Running r.1
  cells : T₁.lists r.1 = r.2.1 :: r.2.2
  events : r.1 ≠ .event → T.lists .event = []
  due : r.1 = .timer → ∃ round ∈ rounds, micros (time r.2.1.2) ≤ micros round.now

variable {rounds : List Round} {r : ListName × Cell φ α × List (Cell φ α)} {T₁ : Tasks φ α}

theorem Chosen.later (h : Chosen T rounds r T₁) (round : Round) :
    Chosen T (round :: rounds) r T₁ := by
  refine ⟨h.stirred, h.running, h.cells, h.events, fun ht => ?_⟩
  obtain ⟨turn, hturn, hle⟩ := h.due ht
  exact ⟨turn, List.mem_cons_of_mem round hturn, hle⟩

theorem chosen_event (h : Stirred T T₁) (hr : front .event T₁ = some r) : Chosen T rounds r T₁ := by
  obtain ⟨hl, hcells⟩ := front_eq hr
  refine ⟨h, .inl hl, hl.symm ▸ hcells, fun hne => absurd hl hne, fun ht => ?_⟩
  rw [hl] at ht
  cases ht

theorem chosen_timer (h : Stirred T T₁) (hnone : T.lists .event = [])
    (hr : front .timer T₁ = some r) {round : Round}
    (hle : micros (time r.2.1.2) ≤ micros round.now) : Chosen T (round :: rounds) r T₁ := by
  obtain ⟨hl, hcells⟩ := front_eq hr
  exact ⟨h, .inr (.inl hl), hl.symm ▸ hcells, fun _ => hnone, fun _ =>
    ⟨round, List.mem_cons_self, hle⟩⟩

theorem chosen_ready (h : Stirred T T₁) (hnone : T.lists .event = [])
    (hr : front .ready T₁ = some r) :
    Chosen T rounds r T₁ := by
  obtain ⟨hl, hcells⟩ := front_eq hr
  refine ⟨h, .inr (.inr hl), hl.symm ▸ hcells, fun _ => hnone, fun ht => ?_⟩
  rw [hl] at ht
  cases ht

/-- `fetch` hands out a task that may be, or none. -/
theorem fetch_cases (rounds : List Round) {T' : Tasks φ α} (h : Stirred T T') :
    (∃ r T₁, fetch rounds T' = handOut r T₁ ∧ Chosen T rounds r T₁) ∨
      ∃ f T₁, fetch rounds T' = (f, T₁) ∧ Stirred T T₁ ∧ ∀ x, f ≠ .task x := by
  induction rounds generalizing T' with
  | nil => exact .inr ⟨.waiting, T', rfl, h, fun x hx => by cases hx⟩
  | cons round rounds ih =>
    have later : ∀ {T₂ : Tasks φ α}, Stirred T T₂ →
        (∃ r T₁, fetch rounds T₂ = handOut r T₁ ∧ Chosen T (round :: rounds) r T₁) ∨
          ∃ f T₁, fetch rounds T₂ = (f, T₁) ∧ Stirred T T₁ ∧ ∀ x, f ≠ .task x := by
      intro T₂ h₂
      refine (ih h₂).imp_left ?_
      rintro ⟨r, T₁, hfetch, hr⟩
      exact ⟨r, T₁, hfetch, hr.later round⟩
    rw [fetch, next]
    cases hevent : front .event T' with
    | some r => exact .inl ⟨r, T', rfl, chosen_event h hevent⟩
    | none =>
      have hnone : T.lists .event = [] := h.event ▸ front_none.mp hevent
      cases htimer : (front .timer T').filter fun r => micros (time r.2.1.2) ≤ micros round.now with
      | some r =>
        obtain ⟨hfront, hle⟩ := Option.filter_eq_some_iff.mp htimer
        exact .inl ⟨r, T', rfl, chosen_timer h hnone hfront (of_decide_eq_true hle)⟩
      | none =>
        cases hready : front .ready T' with
        | some r => exact .inl ⟨r, T', rfl, chosen_ready h hnone hready⟩
        | none =>
          simp only [Option.none_or]
          cases hanswer : round.answer with
          | timeout => exact later h
          | interrupted => exact later h
          | failed => exact .inr ⟨.null, T', rfl, h, fun x hx => by cases hx⟩
          | ready readfd writefd =>
            have h₂ := (h.wake (.inl rfl) readfd).wake (.inr rfl) writefd
            cases hwoken : front .ready
              (NetmtThreadMachine.wake .write writefd
                (NetmtThreadMachine.wake .read readfd T')) with
            | some r =>
              refine .inl ⟨r, _, ?_, chosen_ready h₂ hnone hwoken⟩
              simp only [hwoken]
            | none =>
              simp only [hwoken]
              exact later h₂

end Steps

/-! ## No task is lost -/

/-- The task that a call adds, if the reply says so. -/
def accepted : Call φ α → Reply φ α → Multiset (Task φ α)
  | .addRead func arg fd, .added (some _) => {(func, arg, .fd fd)}
  | .addWrite func arg fd, .added (some _) => {(func, arg, .fd fd)}
  | .addTimer func arg now timer, .added (some _) =>
    {(func, arg, .sands ⟨now.tv_sec + timer, now.tv_usec⟩)}
  | .addEvent func arg val, .added (some _) => {(func, arg, .val val)}
  | _, _ => 0

/-- The task that a reply hands out. -/
def handed : Reply φ α → Multiset (Task φ α)
  | .fetched (.task x) => {task x}
  | _ => 0

/-- The tasks that a call cancels. -/
def dropped [DecidableEq α] (T : Tasks φ α) : Call φ α → Multiset (Task φ α)
  | .cancel p => match findCell p T with
    | some r => {task r.2.2}
    | none => 0
  | .cancelEvent arg => ((T.lists .event).filter fun c => c.2.arg = arg).map fun c => task c.2
  | _ => 0

/-- All of a run. -/
def droppedRun [DecidableEq α] : List (Call φ α) → Tasks φ α → Multiset (Task φ α)
  | [], _ => 0
  | call :: calls, T => dropped T call + droppedRun calls (call.on T).2

def acceptedRun : List (Call φ α) → List (Reply φ α) → Multiset (Task φ α)
  | call :: calls, reply :: replies => accepted call reply + acceptedRun calls replies
  | _, _ => 0

def handedRun : List (Reply φ α) → Multiset (Task φ α)
  | [] => 0
  | reply :: replies => handed reply + handedRun replies

section Fates

variable [DecidableEq α] {m : ThreadMaster φ α} {T : Tasks φ α}

/-- What comes in and what was there is what goes out and what is left. -/
theorem call_conserves (h : Holds m T) (hT : Sound T) (call : Call φ α) (hcall : call.Allowed T) :
    pending T + accepted call (call.on T).1 = handed (call.on T).1 + dropped T call +
      pending (call.on T).2 := by
  cases call with
  | addRead func arg fd =>
    simp only [Call.on, handed, dropped, zero_add]
    rcases pending_addFd (T := T) (l := .read) (by decide) ⟨.THREAD_READ, func, arg, .fd fd⟩
      fd with hnone | ⟨⟨p, hp⟩, hsome⟩
    · rw [hnone]
      exact add_zero _
    · rw [hp, hsome]
      rfl
  | addWrite func arg fd =>
    simp only [Call.on, handed, dropped, zero_add]
    rcases pending_addFd (T := T) (l := .write) (by decide) ⟨.THREAD_WRITE, func, arg, .fd fd⟩
      fd with hnone | ⟨⟨p, hp⟩, hsome⟩
    · rw [hnone]
      exact add_zero _
    · rw [hp, hsome]
      rfl
  | addTimer func arg now timer =>
    simp only [Call.on, handed, dropped, zero_add]
    rw [NetmtThreadMachine.addTimer,
      pending_addAt (by decide) _ List.takeWhile_append_dropWhile.symm]
    rfl
  | addEvent func arg val =>
    simp only [Call.on, handed, dropped, zero_add]
    rw [addLast, pending_addAt (by decide) _ (List.append_nil _).symm]
    rfl
  | cancel p =>
    obtain ⟨l, hl, c, hc, rfl⟩ := hcall
    obtain ⟨pre, post, hcells⟩ := List.mem_iff_append.mp hc
    have hout := pending_out hl hcells
    simp only [Call.on, NetmtThreadMachine.cancel, dropped, handed, accepted, findCell_eq h hl hc,
      filter_cells h hcells]
    rw [← hout, add_zero, zero_add, add_comm]
  | cancelEvent arg =>
    have hput :=
      pending_put (l := .event) (by decide) ((T.lists .event).filter fun c => c.2.arg ≠ arg) T
    have hsplit := filter_split (fun c => c.2.arg = arg) (T.lists .event)
    simp only [ne_eq, decide_not, tasksOn] at hput
    have hsame : pending (cancelEvents arg T) =
        pending (T.put .event ((T.lists .event).filter fun c => !decide (c.2.arg = arg))) := by
      simp only [cancelEvents, ne_eq, decide_not]
      rfl
    simp only [Call.on, dropped, handed, accepted, hsame]
    rw [← hsplit, add_comm, add_comm (pending T)] at hput
    rw [add_zero, zero_add]
    have hcancel : ∀ a b c d : Multiset (Task φ α), a + b + c = b + d → a + c = d := by
      intro a b c d habc
      rw [add_comm a b, add_assoc] at habc
      exact add_left_cancel habc
    exact (hcancel _ _ _ _ hput).symm
  | fetch rounds =>
    simp only [Call.on, dropped, accepted, add_zero]
    rcases fetch_cases rounds (Stirred.refl hT) with ⟨r, T₁, hfetch, hr⟩ | ⟨f,
      T₁, hfetch, hstir, hnone⟩
    · have hout := pending_out hr.running.ne (hr.cells.trans (List.nil_append _).symm)
      rw [hr.running.clear, hr.stirred.pending] at hout
      rw [hfetch, ← hout, add_comm]
      rfl
    · rw [hfetch]
      cases f with
      | task x => exact absurd rfl (hnone x)
      | null => exact hstir.pending.symm.trans (zero_add _).symm
      | waiting => exact hstir.pending.symm.trans (zero_add _).symm

theorem run_conserves (calls : List (Call φ α)) (h : Holds m T) (hT : Sound T)
    (hlegal : LegalRun calls T) :
    pending T + acceptedRun calls (onRun calls T).1 =
      handedRun (onRun calls T).1 + droppedRun calls T + pending (onRun calls T).2 := by
  induction calls generalizing m T with
  | nil => simp only [acceptedRun, onRun, handedRun, droppedRun, add_zero, zero_add]
  | cons call calls ih =>
    obtain ⟨m₁, -, h₁, hT₁⟩ := step_exact h hT call hlegal.1
    have hstep := call_conserves h hT call hlegal.1
    have hrest := ih h₁ hT₁ hlegal.2
    simp only [acceptedRun, onRun, handedRun, droppedRun]
    calc pending T + (accepted call (call.on T).1 + acceptedRun calls (onRun calls (call.on T).2).1)
        = handed (call.on T).1 + dropped T call +
            (pending (call.on T).2 + acceptedRun calls (onRun calls (call.on T).2).1) := by
          rw [← add_assoc, hstep, add_assoc]
      _ = _ := by
          rw [hrest]
          abel

/-- In every run each task that was added was handed out once, or was cancelled, or waits. -/
theorem tasks_conserved (calls : List (Call φ α)) (hlegal : LegalRun calls nothing) :
    ∃ replies m T, run calls threadMasterCreate = some (replies, m) ∧ Holds m T ∧
      acceptedRun calls replies = handedRun replies + droppedRun calls nothing + pending T := by
  obtain ⟨m, hrun, h, -⟩ := run_exact calls create_holds sound_nil hlegal
  refine ⟨_, m, _, hrun, h, ?_⟩
  have hlaw := run_conserves calls create_holds sound_nil hlegal
  exact (zero_add _).symm.trans hlaw

theorem tasks_conserved_hour :
    LegalRun hour nothing ∧ ∃ replies m T, run hour threadMasterCreate = some (replies, m) ∧
    Holds m T ∧ acceptedRun hour replies = handedRun replies +
      droppedRun hour nothing + pending T :=
  ⟨hour_legal, tasks_conserved hour hour_legal⟩

end Fates

/-! ## Events come in turn -/

/-- The event that a call adds. -/
def newEvent : Call φ α → List (Task φ α)
  | .addEvent func arg val => [(func, arg, .val val)]
  | _ => []

/-- The event that a reply hands out. -/
def ranEvent : Reply φ α → List (Task φ α)
  | .fetched (.task x) => if x.type = .THREAD_EVENT then [task x] else []
  | _ => []

section Turns

variable {m : ThreadMaster φ α} {T : Tasks φ α}

theorem addAt_other {l l' : ListName} (hl : l' ≠ l) (hunuse : l' ≠ .unuse)
    (pre post : List (Cell φ α)) (x : Thread φ α) :
    (addAt l pre post x T).lists l' = T.lists l' := by
  rw [addAt, put_other hl, take_lists T hunuse]

theorem addFd_event {l : ListName} (hl : Watched l) (x : Thread φ α) (fd : Nat) :
    (addFd l x fd T).2.lists .event = T.lists .event := by
  rw [addFd]
  split
  · rfl
  · exact addAt_other (by rcases hl with rfl | rfl <;> decide) (by decide) _ _ x

theorem cancel_event (p : Nat) : ((cancel p T).lists .event).Sublist (T.lists .event) := by
  rw [NetmtThreadMachine.cancel]
  split
  · exact .refl _
  · next l c _ =>
    rw [recycle, put_other (by decide)]
    by_cases hl : ListName.event = l
    · subst hl
      rw [put_self]
      exact List.filter_sublist
    · rw [put_other hl, clearFd_lists]

/-- A task that is handed out is of the type that its list is for. -/
theorem front_type (hT : Sound T) {r : ListName × Cell φ α × List (Cell φ α)}
    (hcells : T.lists r.1 = r.2.1 :: r.2.2) :
    r.2.1.2.type = typeOf r.1 := by
  refine (hT.fits r.1 r.2.1 ?_).type
  rw [hcells]
  exact List.mem_cons_self

theorem handOut_event (hT : Sound T) {r : ListName × Cell φ α × List (Cell φ α)} (hr : Running r.1)
    (hcells : T.lists r.1 = r.2.1 :: r.2.2) :
    ranEvent (.fetched (handOut r T).1) ++ tasksOn .event (handOut r T).2 = tasksOn .event T := by
  obtain ⟨l, c, cells⟩ := r
  have htype : c.2.type = typeOf l := front_type hT hcells
  simp only [handOut, ranEvent, htype, tasksOn, recycle,
    put_other (by decide : ListName.event ≠ .unuse)]
  rcases hr with rfl | rfl | rfl
  · rw [show T.lists .event = c :: cells from hcells, put_self]
    rfl
  · rw [put_other (by decide)]
    rfl
  · rw [put_other (by decide)]
    rfl

/-- What is handed out comes off the front, and what is added comes to the end. -/
theorem call_turns [DecidableEq α] (hT : Sound T) (call : Call φ α) :
    (ranEvent (call.on T).1 ++ tasksOn .event (call.on T).2).Sublist
      (tasksOn .event T ++ newEvent call) := by
  cases call with
  | addRead func arg fd =>
    simp only [Call.on, ranEvent, newEvent, tasksOn, addFd_event (.inl rfl),
      List.nil_append, List.append_nil]
    exact .refl _
  | addWrite func arg fd =>
    simp only [Call.on, ranEvent, newEvent, tasksOn, addFd_event (.inr rfl),
      List.nil_append, List.append_nil]
    exact .refl _
  | addTimer func arg now timer =>
    simp only [Call.on, ranEvent, newEvent, tasksOn, NetmtThreadMachine.addTimer,
      List.nil_append, List.append_nil]
    rw [addAt_other (by decide) (by decide)]
  | addEvent func arg val =>
    simp only [Call.on, ranEvent, newEvent, tasksOn, addLast, addAt, put_self,
      List.map_append, List.nil_append]
    exact .refl _
  | cancel p =>
    simp only [Call.on, ranEvent, newEvent, List.nil_append, List.append_nil]
    exact (cancel_event p).map _
  | cancelEvent arg =>
    simp only [Call.on, ranEvent, newEvent, tasksOn, cancelEvents, List.nil_append, List.append_nil]
    rw [put_other (by decide), put_self]
    exact List.filter_sublist.map _
  | fetch rounds =>
    simp only [Call.on, newEvent, List.append_nil]
    rcases fetch_cases rounds (Stirred.refl hT) with ⟨r, T₁, hfetch, hr⟩ | ⟨f,
      T₁, hfetch, hstir, hnone⟩
    · rw [hfetch, handOut_event hr.stirred.sound hr.running hr.cells, tasksOn, hr.stirred.event]
      exact .refl _
    · rw [hfetch]
      have hran : ranEvent (.fetched f : Reply φ α) = [] := by
        cases f with
        | task x => exact absurd rfl (hnone x)
        | null => rfl
        | waiting => rfl
      rw [hran, List.nil_append, tasksOn, hstir.event]
      exact .refl _

theorem run_turns [DecidableEq α] (calls : List (Call φ α)) (h : Holds m T) (hT : Sound T)
    (hlegal : LegalRun calls T) :
    ((onRun calls T).1.flatMap ranEvent ++ tasksOn .event (onRun calls T).2).Sublist
      (tasksOn .event T ++ calls.flatMap newEvent) := by
  induction calls generalizing m T with
  | nil =>
    simp only [onRun, List.flatMap_nil, List.nil_append, List.append_nil]
    exact .refl _
  | cons call calls ih =>
    obtain ⟨m₁, -, h₁, hT₁⟩ := step_exact h hT call hlegal.1
    have hfirst := call_turns hT call
    have hrest := ih h₁ hT₁ hlegal.2
    simp only [onRun, List.flatMap_cons, List.append_assoc]
    refine (hrest.append_left _).trans ?_
    rw [← List.append_assoc, ← List.append_assoc]
    exact hfirst.append_right _

/-- In every run the events are handed out in the order they were added in, each once, and
those that wait come behind them. -/
theorem events_in_turn [DecidableEq α] (calls : List (Call φ α)) (hlegal : LegalRun calls nothing) :
    ∃ replies m T, run calls threadMasterCreate = some (replies, m) ∧ Holds m T ∧
      (replies.flatMap ranEvent ++ tasksOn .event T).Sublist (calls.flatMap newEvent) := by
  obtain ⟨m, hrun, h, -⟩ := run_exact calls create_holds sound_nil hlegal
  exact ⟨_, m, _, hrun, h, run_turns calls create_holds sound_nil hlegal⟩

theorem events_in_turn_hour :
    LegalRun hour nothing ∧ ∃ replies m T, run hour threadMasterCreate = some (replies, m) ∧
    Holds m T ∧ (replies.flatMap ranEvent ++ tasksOn .event T).Sublist (hour.flatMap newEvent) :=
  ⟨hour_legal, events_in_turn hour hour_legal⟩

/-! ## What comes first -/

theorem fetch_first (hT : Sound T) {rounds : List Round} {x : Thread φ α}
    (hfetch : (fetch rounds T).1 = .task x) :
    (x.type ≠ .THREAD_EVENT → T.lists .event = []) ∧
      (x.type = .THREAD_TIMER → (∃ round ∈ rounds, micros (time x) ≤ micros round.now) ∧
        ∀ c ∈ T.lists .timer, micros (time x) ≤ micros (time c.2)) := by
  rcases fetch_cases rounds (Stirred.refl hT) with ⟨r, T₁, hout, hr⟩ | ⟨f, T₁, hout, -, hnone⟩
  · rw [hout] at hfetch
    obtain rfl : r.2.1.2 = x := Fetched.task.inj hfetch
    have htype := front_type hr.stirred.sound hr.cells
    refine ⟨fun hne => hr.events fun hl => hne ?_, fun ht => ?_⟩
    · rw [htype, hl]
      rfl
    · have hl : r.1 = .timer := by
        rw [htype] at ht
        rcases hr.running with hl | hl | hl
        · rw [hl] at ht
          cases ht
        · exact hl
        · rw [hl] at ht
          cases ht
      refine ⟨hr.due hl, ?_⟩
      -- it is the first of the timers, which are in order
      have hsorted := hr.stirred.sound.sorted
      have hcells := hr.cells
      rw [hl] at hcells
      rw [hcells, List.pairwise_cons] at hsorted
      rw [← hr.stirred.timer, hcells]
      intro c hc
      cases List.mem_cons.mp hc with
      | inl heq => rw [heq]
      | inr hc => exact hsorted.1 c hc
  · rw [hout] at hfetch
    exact absurd hfetch (hnone x)

/-- Whatever was called before, a task that is no event is handed out when no event waits, and
a timer when its time has come, before all timers that come later. -/
theorem first_in_time [DecidableEq α] (calls : List (Call φ α)) (hlegal : LegalRun calls nothing)
    (rounds : List Round) (hrounds : ∀ round ∈ rounds, InRange round.now) :
    ∃ replies m T f m', run calls threadMasterCreate = some (replies, m) ∧ Holds m T ∧
      threadFetch rounds m = some (f, m') ∧ ∀ x, f = .task x →
        (x.type ≠ .THREAD_EVENT → T.lists .event = []) ∧
          (x.type = .THREAD_TIMER → (∃ round ∈ rounds, micros (time x) ≤ micros round.now) ∧
            ∀ c ∈ T.lists .timer, micros (time x) ≤ micros (time c.2)) := by
  obtain ⟨m, hrun, h, hT⟩ := run_exact calls create_holds sound_nil hlegal
  obtain ⟨m', hfetch, -⟩ := fetch_holds rounds hrounds h hT
  exact ⟨_, m, _, _, m', hrun, h, hfetch, fun x hx => fetch_first hT hx⟩

theorem first_in_time_hour :
    ∃ replies m T f m', run hour threadMasterCreate = some (replies, m) ∧ Holds m T ∧
    threadFetch [⟨⟨14, 0⟩, .timeout⟩] m = some (f, m') ∧ ∀ x, f = .task x →
      (x.type ≠ .THREAD_EVENT → T.lists .event = []) ∧
        (x.type = .THREAD_TIMER →
          (∃ round ∈ [(⟨⟨14, 0⟩, .timeout⟩ : Round)], micros (time x) ≤ micros round.now) ∧
          ∀ c ∈ T.lists .timer, micros (time x) ≤ micros (time c.2)) :=
  first_in_time hour hour_legal [⟨⟨14, 0⟩, .timeout⟩] fun round hround =>
    List.mem_singleton.mp hround ▸ ⟨by decide, by decide⟩

end Turns

end NetmtThreadFates
