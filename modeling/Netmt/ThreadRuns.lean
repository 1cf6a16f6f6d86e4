import Netmt.ThreadSound

/-!
# Runs of the scheduler

Calls in any order, from a new master on: what they reply is what the machine replies, no
assertion fails, and the machine stays sound.
-/
namespace NetmtThreadRuns

open Links Shelves NetmtThread NetmtThreadLists NetmtThreadMachine NetmtThreadSound

variable {φ α : Type}

/-- What the main loop and the callbacks call. -/
inductive Call (φ α : Type) where
  | addRead (func : φ) (arg : α) (fd : Nat)
  | addWrite (func : φ) (arg : α) (fd : Nat)
  | addTimer (func : φ) (arg : α) (now : Timeval) (timer : Int)
  | addEvent (func : φ) (arg : α) (val : Int)
  | cancel (p : Nat)
  | cancelEvent (arg : α)
  | fetch (rounds : List Round)

inductive Reply (φ α : Type) where
  | added (p : Option Nat)
  | done
  | fetched (f : Fetched φ α)

def Call.step [DecidableEq α] (m : ThreadMaster φ α) :
    Call φ α → Option (Reply φ α × ThreadMaster φ α)
  | .addRead func arg fd => (threadAddRead func arg fd m).map fun r => (.added r.1, r.2)
  | .addWrite func arg fd => (threadAddWrite func arg fd m).map fun r => (.added r.1, r.2)
  | .addTimer func arg now timer => (threadAddTimer func arg now timer m).map fun r =>
    (.added r.1, r.2)
  | .addEvent func arg val => (threadAddEvent func arg val m).map fun r => (.added r.1, r.2)
  | .cancel p => (threadCancel p m).map fun m => (.done, m)
  | .cancelEvent arg => (threadCancelEvent arg m).map fun m => (.done, m)
  | .fetch rounds => (threadFetch rounds m).map fun r => (.fetched r.1, r.2)

def run [DecidableEq α] :
    List (Call φ α) → ThreadMaster φ α → Option (List (Reply φ α) × ThreadMaster φ α)
  | [], m => some ([], m)
  | call :: calls, m => (call.step m).bind fun r => (run calls r.2).map fun rest =>
    (r.1 :: rest.1, rest.2)

/-- The task of a call that adds one. -/
def newTimer (func : φ) (arg : α) (now : Timeval) (timer : Int) : Thread φ α :=
  ⟨.THREAD_TIMER, func, arg, .sands ⟨now.tv_sec + timer, now.tv_usec⟩⟩

/-- The call on the machine. -/
def Call.on [DecidableEq α] (T : Tasks φ α) : Call φ α → Reply φ α × Tasks φ α
  | .addRead func arg fd =>
    (.added (addFd .read ⟨.THREAD_READ, func, arg, .fd fd⟩ fd T).1,
      (addFd .read ⟨.THREAD_READ, func, arg, .fd fd⟩ fd T).2)
  | .addWrite func arg fd =>
    (.added (addFd .write ⟨.THREAD_WRITE, func, arg, .fd fd⟩ fd T).1,
      (addFd .write ⟨.THREAD_WRITE, func, arg, .fd fd⟩ fd T).2)
  | .addTimer func arg now timer =>
    (.added (some T.take.1), NetmtThreadMachine.addTimer (newTimer func arg now timer) T)
  | .addEvent func arg val =>
    (.added (some T.take.1), addLast .event ⟨.THREAD_EVENT, func, arg, .val val⟩ T)
  | .cancel p => (.done, NetmtThreadMachine.cancel p T)
  | .cancelEvent arg => (.done, cancelEvents arg T)
  | .fetch rounds =>
    (.fetched (NetmtThreadMachine.fetch rounds T).1, (NetmtThreadMachine.fetch rounds T).2)

def onRun [DecidableEq α] : List (Call φ α) → Tasks φ α → List (Reply φ α) × Tasks φ α
  | [], T => ([], T)
  | call :: calls, T =>
    ((call.on T).1 :: (onRun calls (call.on T).2).1, (onRun calls (call.on T).2).2)

/-- What the callers see to: descriptors that the sets have room for, times of this age, and
that only a task that waits is cancelled. -/
def Call.Allowed (T : Tasks φ α) : Call φ α → Prop
  | .addRead _ _ fd => fd < FD_SETSIZE
  | .addWrite _ _ fd => fd < FD_SETSIZE
  | .addTimer _ _ now timer => InRange ⟨now.tv_sec + timer, now.tv_usec⟩
  | .addEvent _ _ _ => True
  | .cancel p => ∃ l, l ≠ .unuse ∧ ∃ c ∈ T.lists l, c.1 = p
  | .cancelEvent _ => True
  | .fetch rounds => ∀ round ∈ rounds, InRange round.now

def LegalRun [DecidableEq α] : List (Call φ α) → Tasks φ α → Prop
  | [], _ => True
  | call :: calls, T => call.Allowed T ∧ LegalRun calls (call.on T).2

/-- No task, and no node. -/
def nothing : Tasks φ α := ⟨fun _ => [], fun _ _ => false, 0⟩

section Steps

variable {m : ThreadMaster φ α} {T : Tasks φ α}

theorem sound_addFd (hT : Sound T) {l : ListName} (hl : Watched l) {x : Thread φ α} {fd : Nat}
    (hx : Fits l x) (hu : x.u = .fd fd) : Sound (addFd l x fd T).2 := by
  rw [addFd]
  split
  · exact hT
  · next hset =>
    have hne : l ≠ .unuse := by rcases hl with rfl | rfl <;> decide
    have hfds : (addLast l x T).fds = T.fds := take_fds T
    refine sound_in hT hne hx (List.append_nil _).symm (fun ht => ?_) (fun _ c hc heq => hset ?_)
      fun l' hw fd' => ?_
    · rcases hl with rfl | rfl <;> cases ht
    · exact (hT.watched l hl fd).mpr ⟨c, hc, heq.trans hu⟩
    · rw [hfds]
      by_cases heq : l' = l
      · subst heq
        rw [Function.update_self, hu]
        by_cases hfd : fd' = fd
        · subst hfd
          rw [Function.update_self]
          exact iff_of_true rfl (.inr ⟨rfl, rfl⟩)
        · rw [Function.update_of_ne hfd]
          exact (or_iff_left fun hboth => hfd (Payload.fd.inj hboth.2).symm).symm
      · rw [Function.update_of_ne heq]
        exact (or_iff_left fun hboth => heq hboth.1).symm

/-- A task that waits for no descriptor comes onto its list. -/
theorem sound_addAt (hT : Sound T) {l : ListName} (hne : l ≠ .unuse) (hl : ¬ Watched l)
    {x : Thread φ α} (hx : Fits l x) {pre post : List (Cell φ α)} (hcells : T.lists l = pre ++ post)
    (hsorted : l = .timer → (∀ c ∈ pre, micros (time c.2) ≤ micros (time x)) ∧ ∀ c ∈ post,
      micros (time x) ≤ micros (time c.2)) :
    Sound (addAt l pre post x T) := by
  refine sound_in hT hne hx hcells hsorted (fun hw => absurd hw hl) fun l' hw fd => ?_
  rw [take_fds]
  refine (or_iff_left fun hboth => hl ?_).symm
  rw [← hboth.1]
  exact hw

theorem sound_addTimer (hT : Sound T) {x : Thread φ α} (hx : Fits .timer x) :
    Sound (addTimer x T) := by
  have hlate : ∀ cells : List (Cell φ α),
    cells.Pairwise (fun c d => micros (time c.2) ≤ micros (time d.2)) →
      ∀ c ∈ cells.dropWhile (earlier x), micros (time x) ≤ micros (time c.2) := by
    intro cells hsorted
    induction cells with
    | nil => exact fun c hc => nomatch hc
    | cons d cells ih =>
      obtain ⟨hfirst, hrest⟩ := List.pairwise_cons.mp hsorted
      cases hd : earlier x d with
      | true =>
        rw [List.dropWhile_cons_of_pos hd]
        exact ih hrest
      | false =>
        have hle : micros (time x) ≤ micros (time d.2) := Int.not_lt.mp (of_decide_eq_false hd)
        rw [List.dropWhile_cons_of_neg (by simp [hd])]
        intro c hc
        cases List.mem_cons.mp hc with
        | inl heq =>
          rw [heq]
          exact hle
        | inr hc => exact Int.le_trans hle (hfirst c hc)
  refine sound_addAt hT (by decide) (by rintro (h | h) <;> cases h) hx
    List.takeWhile_append_dropWhile.symm fun _ => ⟨?_, ?_⟩
  · intro c hc
    have hin : earlier x c = true := List.mem_takeWhile_imp hc
    exact Int.le_of_lt (of_decide_eq_true hin)
  · exact hlate _ hT.sorted

theorem step_exact [DecidableEq α] (h : Holds m T) (hT : Sound T) (call : Call φ α)
    (hcall : call.Allowed T) :
    ∃ m', call.step m = some ((call.on T).1, m') ∧ Holds m' (call.on T).2 ∧
    Sound (call.on T).2 := by
  cases call with
  | addRead func arg fd =>
    obtain ⟨m', hadd, h'⟩ := addFd_holds h (l := .read) (by decide) .THREAD_READ func arg hcall
    refine ⟨m', ?_, h',
      sound_addFd hT (.inl rfl) ⟨rfl, fun _ => ⟨fd, rfl⟩, fun ht => by cases ht⟩ rfl⟩
    rw [Call.step, threadAddRead, hadd]
    rfl
  | addWrite func arg fd =>
    obtain ⟨m', hadd, h'⟩ := addFd_holds h (l := .write) (by decide) .THREAD_WRITE func arg hcall
    refine ⟨m', ?_, h',
      sound_addFd hT (.inr rfl) ⟨rfl, fun _ => ⟨fd, rfl⟩, fun ht => by cases ht⟩ rfl⟩
    rw [Call.step, threadAddWrite, hadd]
    rfl
  | addTimer func arg now timer =>
    obtain ⟨m', hadd, h'⟩ := addTimer_holds h hT func arg now timer hcall
    refine ⟨m', ?_, h', sound_addTimer hT ⟨rfl, fun hw => ?_, fun _ => ⟨_, rfl, hcall⟩⟩⟩
    · rw [Call.step, hadd]
      rfl
    · rcases hw with hw | hw <;> cases hw
  | addEvent func arg val =>
    obtain ⟨m', hadd, h'⟩ := addEvent_holds h func arg val
    have hnot : ¬ Watched .event := by rintro (h | h) <;> cases h
    refine ⟨m', ?_, h',
      sound_addAt hT (by decide) hnot ⟨rfl, fun hw => absurd hw hnot, fun ht => by cases ht⟩
      (List.append_nil _).symm fun ht => by cases ht⟩
    rw [Call.step, hadd]
    rfl
  | cancel p =>
    obtain ⟨l, hl, c, hc, rfl⟩ := hcall
    obtain ⟨m', hcancel, h'⟩ := cancel_holds h hT hl hc
    refine ⟨m', ?_, h', ?_⟩
    · rw [Call.step, hcancel]
      rfl
    · obtain ⟨pre, post, hcells⟩ := List.mem_iff_append.mp hc
      rw [Call.on, NetmtThreadMachine.cancel, findCell_eq h hl hc]
      simp only [filter_cells h hcells]
      exact sound_out hT hl hcells
  | cancelEvent arg =>
    obtain ⟨m', hcancel, h'⟩ := cancelEvents_holds h arg
    refine ⟨m', ?_, h', sound_cancelEvents hT arg⟩
    rw [Call.step, hcancel]
    rfl
  | fetch rounds =>
    obtain ⟨m', hfetch, h', hT'⟩ := fetch_holds rounds hcall h hT
    refine ⟨m', ?_, h', hT'⟩
    rw [Call.step, hfetch]
    rfl

theorem run_exact [DecidableEq α] (calls : List (Call φ α)) (h : Holds m T) (hT : Sound T)
    (hlegal : LegalRun calls T) :
    ∃ m', run calls m = some ((onRun calls T).1, m') ∧ Holds m' (onRun calls T).2 ∧
    Sound (onRun calls T).2 := by
  induction calls generalizing m T with
  | nil => exact ⟨m, rfl, h, hT⟩
  | cons call calls ih =>
    obtain ⟨m₁, hstep, h₁, hT₁⟩ := step_exact h hT call hlegal.1
    obtain ⟨m', hrun, h', hT'⟩ := ih h₁ hT₁ hlegal.2
    refine ⟨m', ?_, h', hT'⟩
    rw [run, hstep, Option.bind_some, hrun]
    rfl

end Steps

/-- Every run of calls on a new master gives the replies of the machine, and leaves its lists. -/
theorem scheduler_exact [DecidableEq α] (calls : List (Call φ α))
    (hlegal : LegalRun calls nothing) :
    ∃ m, run calls threadMasterCreate = some ((onRun calls nothing).1, m) ∧
    Holds m (onRun calls nothing).2 ∧
      Sound (onRun calls nothing).2 :=
  run_exact calls create_holds sound_nil hlegal

/-- Two events, two timers of which one is cancelled, and a descriptor that `select` names. -/
def hour : List (Call Nat Nat) :=
  [.addTimer 1 0 ⟨10, 0⟩ 5, .addTimer 2 0 ⟨10, 0⟩ 3, .addEvent 3 7 1, .addRead 4 0 6,
    .addEvent 5 8 2, .cancel 0,
    .cancelEvent 8, .fetch [⟨⟨11, 0⟩, .timeout⟩],
    .fetch [⟨⟨11, 0⟩, .ready (fun fd => fd == 6) fun _ => false⟩]]

theorem hour_legal : LegalRun hour nothing := by
  refine ⟨⟨by decide, by decide⟩, ⟨by decide, by decide⟩, trivial, (by decide : 6 < FD_SETSIZE),
    trivial, ⟨.timer, by decide, (0, newTimer 1 0 ⟨10, 0⟩ 5), .tail _ (.head _), rfl⟩,
    trivial, ?_, ?_, trivial⟩
  · intro round hround
    exact List.mem_singleton.mp hround ▸ ⟨by decide, by decide⟩
  · intro round hround
    exact List.mem_singleton.mp hround ▸ ⟨by decide, by decide⟩

theorem scheduler_exact_hour : LegalRun hour nothing ∧
    ∃ m, run hour threadMasterCreate = some ((onRun hour nothing).1, m) ∧
    Holds m (onRun hour nothing).2 ∧
      Sound (onRun hour nothing).2 :=
  ⟨hour_legal, scheduler_exact hour hour_legal⟩

end NetmtThreadRuns
