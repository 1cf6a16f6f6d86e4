import Netmt.HeapRuns

/-!
# Timers

The timers of `hloop.c`: those in the heap of their next timeouts, and the list of those
that wait for their callback. A timer is an address; a step that touches a freed one gives
nothing. Times are in microseconds, timeouts in milliseconds.
-/
namespace NetmtTimers

open NetmtHeapRuns

/-- `htimeout_t`, but for its node and `next_timeout`. -/
structure Timer where
  repeats : Nat
  timeout : Nat
  destroy : Bool
  active : Bool
  pending : Bool
  pending_next : Option Nat

def INFINITE : Nat := 4294967295

/-- What the loop knows of its timers, which all have the highest priority; `invoked` are
those whose callback was called, in order. -/
structure EventLoop where
  tree : State Nat
  timers : Nat → Option Timer
  pendings : Option Nat
  npendings : Nat
  nactives : Int
  ntimers : Int
  invoked : List Nat

def EventLoop.put (a : Nat) (t : Timer) (s : EventLoop) : EventLoop :=
  { s with timers := Function.update s.timers a (some t) }

def EventLoop.heapStep (op : Op Nat) (s : EventLoop) : Option EventLoop :=
  (op.step s.tree).map fun tree => { s with tree := tree }

/-- The node in a timer that is allocated or freed. -/
def setNode (a : Nat) (node : Option NetmtHeap.HeapNode) (tree : State Nat) : State Nat :=
  { tree with heap := { tree.heap with nodes := Function.update tree.heap.nodes a node } }

/-- `HV_ALLOC_SIZEOF(timer)` -/
def hvAlloc (a : Nat) (t : Timer) (s : EventLoop) : EventLoop :=
  { s.put a t with tree := setNode a (some .null) s.tree }

/-- `HV_FREE(timer)` -/
def hvFree (a : Nat) (s : EventLoop) : EventLoop :=
  { s with timers := Function.update s.timers a none, tree := setNode a none s.tree }

def eventActive (a : Nat) (s : EventLoop) : Option EventLoop :=
  (s.timers a).map fun t =>
    if t.active then s else { s.put a { t with active := true } with nactives := s.nactives + 1 }

def eventInactive (a : Nat) (s : EventLoop) : Option EventLoop :=
  (s.timers a).map fun t =>
    if t.active then { s.put a { t with active := false } with nactives := s.nactives - 1 } else s

def eventPending (a : Nat) (s : EventLoop) : Option EventLoop :=
  (s.timers a).map fun t =>
    if t.pending then s
    else { s.put a { t with pending := true, pending_next := s.pendings } with
      pendings := some a, npendings := s.npendings + 1 }

def eventDel (a : Nat) (s : EventLoop) : Option EventLoop :=
  (eventInactive a s).bind fun s => (s.timers a).map fun t => if t.pending then s else hvFree a s

def eventReset (a : Nat) (s : EventLoop) : Option EventLoop :=
  (s.timers a).bind fun t =>
  (eventActive a (s.put a { t with destroy := false })).bind fun s =>
  (s.timers a).map fun t => s.put a { t with pending := false }

/-- `timeout*1000`, in 32 bits. -/
def delay (timeout : Nat) : Nat := timeout * 1000 % 4294967296

/-- `htimer_add`, with the address that the timer is allocated at. -/
def htimerAdd (a now timeout repeats : Nat) (s : EventLoop) : Option EventLoop :=
  if timeout = 0 then some s
  else
    ((hvAlloc a ⟨repeats, timeout, false, false, false, none⟩ s).heapStep
      (.insert a (now + delay timeout))).bind fun s =>
    (eventActive a s).map fun s => { s with ntimers := s.ntimers + 1 }

/-- `__htimer_del` -/
def htimerUnlink (a : Nat) (s : EventLoop) : Option EventLoop :=
  (s.timers a).bind fun t =>
    if t.destroy then some s
    else (s.heapStep (.remove a)).map fun s =>
      { s.put a { t with destroy := true } with ntimers := s.ntimers - 1 }

def htimerDel (a : Nat) (s : EventLoop) : Option EventLoop :=
  (s.timers a).bind fun t => if t.active then (htimerUnlink a s).bind (eventDel a) else some s

def htimerReset (a now : Nat) (s : EventLoop) : Option EventLoop :=
  (s.timers a).bind fun t =>
  (if t.destroy then some { s with ntimers := s.ntimers + 1 }
    else s.heapStep (.remove a)).bind fun s =>
  ((s.put a { t with repeats := if t.repeats = 0 then 1 else t.repeats }).heapStep
    (.insert a (now + delay t.timeout))).bind (eventReset a)

/-- `while (timer->next_timeout <= now_hrtime) timer->next_timeout += timeout * 1000`; no
timer has the timeout 0. -/
def catchUp (now step next : Nat) : Nat :=
  if next ≤ now ∧ 0 < step then catchUp now step (next + step) else next
termination_by now + 1 - next
decreasing_by omega

/-- `if (timer->repeat != INFINITE) --timer->repeat` -/
def countDown (repeats : Nat) : Nat :=
  if repeats = INFINITE then repeats else (repeats + 4294967295) % 4294967296

/-- A timer that is due: gone from the heap, or in it for its next timeout. -/
def fire (now a : Nat) (s : EventLoop) : Option EventLoop :=
  (s.timers a).bind fun t =>
    let s := s.put a { t with repeats := countDown t.repeats }
    (if countDown t.repeats = 0 then htimerUnlink a s
      else
        (s.heapStep .dequeue).bind fun s =>
          s.heapStep (.insert a (catchUp now (t.timeout * 1000) (s.tree.key a)))).bind
            (eventPending a)

/-- `hloop_process_timers` -/
def processTimers (now : Nat) : Nat → EventLoop → Option EventLoop
  | 0, _ => none
  | fuel + 1, s =>
    match s.tree.heap.root with
    | none => some s
    | some a => if now < s.tree.key a then some s else (fire now a s).bind (processTimers now fuel)

/-- What a callback does. -/
inductive Act where
  | add (a now timeout repeats : Nat)
  | del (a : Nat)
  | reset (a now : Nat)

def Act.timer : Act → Nat
  | .add a _ _ _ => a
  | .del a => a
  | .reset a _ => a

def Act.step : Act → EventLoop → Option EventLoop
  | .add a now timeout repeats, s => htimerAdd a now timeout repeats s
  | .del a, s => htimerDel a s
  | .reset a now, s => htimerReset a now s

def runActs (acts : List Act) (s : EventLoop) : Option EventLoop :=
  acts.foldlM (fun s act => act.step s) s

/-- The body of the loop over the list, with the callback of each timer as its acts. -/
def visit (script : Nat → List Act) (a : Nat) (s : EventLoop) : Option EventLoop :=
  (s.timers a).bind fun cur =>
    if cur.pending then
      (if cur.active then runActs (script a) { s with invoked := s.invoked ++ [a] }
        else some s).bind fun s =>
      (s.timers a).bind fun cur =>
        let s := s.put a { cur with pending := false }
        if cur.destroy then eventDel a s else some s
    else some s

/-- The list from `cur` on; `next` is read before the callback. -/
def pendingsLoop (script : Nat → List Act) : Nat → Option Nat → EventLoop → Option EventLoop
  | _, none, s => some s
  | 0, some _, _ => none
  | fuel + 1, some a, s =>
    (s.timers a).bind fun cur => (visit script a s).bind (pendingsLoop script fuel cur.pending_next)

/-- `hloop_process_pendings` -/
def processPendings (script : Nat → List Act) (s : EventLoop) : Option EventLoop :=
  if s.npendings = 0 then some s
  else (pendingsLoop script s.npendings s.pendings s).map fun s =>
    { s with pendings := none, npendings := 0 }

/-- `process_timers:` in `hloop_process_events` -/
def processEvents (now : Nat) (script : Nat → List Act) (s : EventLoop) : Option EventLoop :=
  (if s.ntimers ≠ 0 then processTimers now (s.tree.heap.nelts + 1) s else some s).bind
    (processPendings script)

/-! ## One timer changed -/

/-- A timer with other contents or none, and what the loop keeps besides. -/
def EventLoop.set (a : Nat) (o : Option Timer) (tree : State Nat) (nactives ntimers : Int)
    (s : EventLoop) :
    EventLoop :=
      ⟨tree, Function.update s.timers a o, s.pendings, s.npendings, nactives, ntimers, s.invoked⟩

section Set

variable (a : Nat) (o : Option Timer) (tree : State Nat) (nactives ntimers : Int) (s : EventLoop)

@[simp] theorem set_tree : (s.set a o tree nactives ntimers).tree = tree := rfl
@[simp] theorem set_nactives : (s.set a o tree nactives ntimers).nactives = nactives := rfl
@[simp] theorem set_ntimers : (s.set a o tree nactives ntimers).ntimers = ntimers := rfl

@[simp] theorem set_self : (s.set a o tree nactives ntimers).timers a = o := Function.update_self ..

theorem set_other {b : Nat} (hb : b ≠ a) :
    (s.set a o tree nactives ntimers).timers b = s.timers b :=
  Function.update_of_ne hb _ _

theorem set_set (o' : Option Timer) (tree' : State Nat) (nactives' ntimers' : Int) :
    (s.set a o tree nactives ntimers).set a o' tree' nactives' ntimers' =
      s.set a o' tree' nactives' ntimers' := by
  simp only [EventLoop.set, Function.update_idem]

theorem put_eq (t : Timer) : s.put a t = s.set a (some t) s.tree s.nactives s.ntimers := rfl

end Set

/-! ## What holds while callbacks run -/

/-- The list `w` by its links. -/
def Chain (timers : Nat → Option Timer) : List Nat → Prop
  | [] => True
  | a :: w => (∃ t, timers a = some t ∧ t.pending_next = w.head?) ∧ Chain timers w

/-- The timers of the heap are armed, and any other one is to be freed when its turn in the
list `w` comes. -/
structure Busy (w : List Nat) (s : EventLoop) : Prop where
  tree : Sound s.tree
  nodes : ∀ a, (s.tree.heap.nodes a).isSome = (s.timers a).isSome
  armed : ∀ a ∈ s.tree.members, ∃ t, s.timers a = some t ∧ t.destroy = false ∧ t.active = true
  spent : ∀ a t, s.timers a = some t → a ∉ s.tree.members → t.destroy = true ∧ t.pending = true
  timeouts : ∀ a t, s.timers a = some t → 0 < t.timeout
  waits : ∀ a t, s.timers a = some t → t.pending = true → a ∈ w
  chain : Chain s.timers w
  nodup : w.Nodup
  ntimers : s.ntimers = s.tree.members.card
  nactives : ∃ A : Finset Nat, (∀ a, a ∈ A ↔ ∃ t, s.timers a = some t ∧ t.active = true) ∧
    s.nactives = A.card

theorem Chain.there {timers : Nat → Option Timer} {w : List Nat} (h : Chain timers w)
    {a : Nat} (ha : a ∈ w) :
    ∃ t, timers a = some t := by
  induction w with
  | nil => cases ha
  | cons b w ih =>
    rcases List.mem_cons.mp ha with rfl | ha
    · obtain ⟨⟨t, ht, -⟩, -⟩ := h
      exact ⟨t, ht⟩
    · exact ih h.2 ha

/-- Links are kept where timers keep them. -/
theorem Chain.keep {timers timers' : Nat → Option Timer} {w : List Nat} (h : Chain timers w)
    (hkeep : ∀ a ∈ w, ∀ t, timers a = some t → ∃ t', timers' a = some t' ∧
      t'.pending_next = t.pending_next) :
    Chain timers' w := by
  induction w with
  | nil => trivial
  | cons b w ih =>
    obtain ⟨⟨t, ht, hnext⟩, hrest⟩ := h
    obtain ⟨t', ht', hnext'⟩ := hkeep b List.mem_cons_self t ht
    exact ⟨⟨t', ht', hnext'.trans hnext⟩, ih hrest fun a ha => hkeep a (List.mem_cons_of_mem b ha)⟩

theorem Busy.destroy_iff {w : List Nat} {s : EventLoop} (h : Busy w s) {a : Nat} {t : Timer}
    (ha : s.timers a = some t) :
    t.destroy = true ↔ a ∉ s.tree.members := by
  constructor
  · intro hdestroy hmem
    obtain ⟨t', ht', hkept, -⟩ := h.armed a hmem
    obtain rfl := Option.some.inj (ha.symm.trans ht')
    rw [hkept] at hdestroy
    cases hdestroy
  · exact fun hout => (h.spent a t ha hout).1

def activeCount (t : Timer) : Int := if t.active then 1 else 0

/-- One timer that is active or not makes the count. -/
theorem count_changed {timers timers' : Nat → Option Timer} {a : Nat} {n n' : Int} {A : Finset Nat}
    (hA : ∀ b, b ∈ A ↔ ∃ t, timers b = some t ∧ t.active = true) (hn : n = A.card)
    (hother : ∀ b, b ≠ a → timers' b = timers b)
    (hn' : n' = n - (timers a).elim 0 activeCount + (timers' a).elim 0 activeCount) :
    ∃ A' : Finset Nat, (∀ b, b ∈ A' ↔ ∃ t, timers' b = some t ∧ t.active = true) ∧
    n' = A'.card := by
  have hold : (timers a).elim 0 activeCount = if a ∈ A then 1 else 0 := by
    by_cases hin : a ∈ A
    · obtain ⟨t, ht, hactive⟩ := (hA a).mp hin
      rw [if_pos hin, ht, Option.elim_some, activeCount, if_pos hactive]
    · rw [if_neg hin]
      cases ht : timers a with
      | none => rfl
      | some t => exact if_neg fun hactive => hin ((hA a).mpr ⟨t, ht, hactive⟩)
  have hrest : ∀ b, b ≠ a → (b ∈ A ↔ ∃ t, timers' b = some t ∧ t.active = true) := fun b hb => by
    rw [hA b, hother b hb]
  by_cases hnow : ∃ t', timers' a = some t' ∧ t'.active = true
  · obtain ⟨t', ht', hactive'⟩ := hnow
    refine ⟨insert a A, fun b => ?_, ?_⟩
    · rw [Finset.mem_insert]
      by_cases hb : b = a
      · rw [hb]
        exact iff_of_true (.inl rfl) ⟨t', ht', hactive'⟩
      · rw [← hrest b hb]
        exact or_iff_right hb
    · rw [hn', hold, hn, ht', Option.elim_some, activeCount, if_pos hactive']
      by_cases hin : a ∈ A
      · rw [if_pos hin, Finset.insert_eq_of_mem hin]
        omega
      · rw [if_neg hin, Finset.card_insert_of_notMem hin]
        omega
  · refine ⟨A.erase a, fun b => ?_, ?_⟩
    · rw [Finset.mem_erase]
      by_cases hb : b = a
      · rw [hb]
        exact iff_of_false (fun h => h.1 rfl) hnow
      · rw [← hrest b hb]
        exact and_iff_right hb
    · have hzero : (timers' a).elim 0 activeCount = 0 := by
        cases ht' : timers' a with
        | none => rfl
        | some t' => exact if_neg fun hactive => hnow ⟨t', ht', hactive⟩
      rw [hn', hzero, hold, hn]
      by_cases hin : a ∈ A
      · have hpos := Finset.card_pos.mpr ⟨a, hin⟩
        rw [if_pos hin, Finset.card_erase_of_mem hin]
        omega
      · rw [if_neg hin, Finset.erase_eq_of_notMem hin]
        omega

/-- A timer that is there before and after, and a list that it may have come into. -/
theorem Busy.changedIn {w : List Nat} {s : EventLoop} (h : Busy w s) {a : Nat} {t : Timer}
    (ha : s.timers a = some t) (t' : Timer)
    {tree : State Nat} (htree : Sound tree)
    (hnodes : ∀ b, (tree.heap.nodes b).isSome = (s.tree.heap.nodes b).isSome)
    (hmembers : ∀ b, b ≠ a → (b ∈ tree.members ↔ b ∈ s.tree.members)) {w' : List Nat}
    (hw : ∀ b ∈ w, b ∈ w') (hchain : Chain (Function.update s.timers a (some t')) w')
    (hnodup : w'.Nodup) (htimeout : t'.timeout = t.timeout)
    (harmed : a ∈ tree.members → t'.destroy = false ∧ t'.active = true)
    (hspent : a ∉ tree.members → t'.destroy = true ∧ t'.pending = true)
    (hwaits : t'.pending = true → a ∈ w') {nactives ntimers : Int}
    (hntimers : ntimers = tree.members.card)
    (hnactives : nactives = s.nactives - activeCount t + activeCount t') :
    Busy w' (s.set a (some t') tree nactives ntimers) := by
  have hself := set_self a (some t') tree nactives ntimers s
  have hother : ∀ b, b ≠ a → (s.set a (some t') tree nactives ntimers).timers b = s.timers b :=
    fun b hb => set_other a (some t') tree nactives ntimers s hb
  refine ⟨htree, fun b => ?_, fun b hb => ?_, fun b u hu hb => ?_, fun b u hu => ?_,
    fun b u hu hp => ?_, hchain, hnodup,
    hntimers, ?_⟩
  · rw [set_tree, hnodes b, h.nodes b]
    by_cases hba : b = a
    · rw [hba, hself, ha]
      rfl
    · rw [hother b hba]
  · by_cases hba : b = a
    · subst hba
      exact ⟨t', hself, harmed hb⟩
    · rw [hother b hba]
      exact h.armed b ((hmembers b hba).mp hb)
  · by_cases hba : b = a
    · subst hba
      obtain rfl := Option.some.inj (hself.symm.trans hu)
      exact hspent hb
    · rw [hother b hba] at hu
      exact h.spent b u hu fun hin => hb ((hmembers b hba).mpr hin)
  · by_cases hba : b = a
    · subst hba
      obtain rfl := Option.some.inj (hself.symm.trans hu)
      rw [htimeout]
      exact h.timeouts b t ha
    · rw [hother b hba] at hu
      exact h.timeouts b u hu
  · by_cases hba : b = a
    · subst hba
      obtain rfl := Option.some.inj (hself.symm.trans hu)
      exact hwaits hp
    · rw [hother b hba] at hu
      exact hw b (h.waits b u hu hp)
  · obtain ⟨A, hA, hn⟩ := h.nactives
    exact count_changed hA hn hother (by rw [ha, hself]; exact hnactives)

/-- One that is linked as before. -/
theorem Busy.changed {w : List Nat} {s : EventLoop} (h : Busy w s) {a : Nat} {t : Timer}
    (ha : s.timers a = some t) (t' : Timer)
    {tree : State Nat} (htree : Sound tree)
    (hnodes : ∀ b, (tree.heap.nodes b).isSome = (s.tree.heap.nodes b).isSome)
    (hmembers : ∀ b, b ≠ a → (b ∈ tree.members ↔ b ∈ s.tree.members))
    (hnext : t'.pending_next = t.pending_next) (htimeout : t'.timeout = t.timeout)
    (harmed : a ∈ tree.members → t'.destroy = false ∧ t'.active = true)
    (hspent : a ∉ tree.members → t'.destroy = true ∧ t'.pending = true)
    (hwaits : t'.pending = true → a ∈ w) {nactives ntimers : Int}
    (hntimers : ntimers = tree.members.card)
    (hnactives : nactives = s.nactives - activeCount t + activeCount t') :
    Busy w (s.set a (some t') tree nactives ntimers) := by
  have hchain : Chain (Function.update s.timers a (some t')) w := by
    refine h.chain.keep fun b _ u hu => ?_
    by_cases hba : b = a
    · subst hba
      obtain rfl := Option.some.inj (ha.symm.trans hu)
      exact ⟨t', Function.update_self .., hnext⟩
    · exact ⟨u, by rw [Function.update_of_ne hba, hu], rfl⟩
  exact h.changedIn ha t' htree hnodes hmembers (fun _ hb => hb) hchain h.nodup htimeout harmed
    hspent hwaits hntimers
    hnactives

theorem setNode_sound {tree : State Nat} (h : Sound tree) {a : Nat} (ha : a ∉ tree.members)
    {node : Option NetmtHeap.HeapNode} (hnull : ∀ n, node = some n → n = .null) :
    Sound (setNode a node tree) := by
  obtain ⟨slots, hheap, hstands⟩ := h.tree
  refine ⟨⟨slots,
    ⟨⟨hheap.rep.nelts, hheap.rep.root, fun k hk hn => ?_, hheap.rep.apart⟩,
      hheap.ordered⟩, hstands⟩,
    fun b n hb hn => ?_⟩
  · have hne : slots k ≠ a := fun heq => ha ((hstands a).mp ⟨k, hk, hn, heq⟩)
    show Function.update tree.heap.nodes a node (slots k) = _
    rw [Function.update_of_ne hne]
    exact hheap.rep.nodes k hk hn
  · have hn' : Function.update tree.heap.nodes a node b = some n := hn
    by_cases hba : b = a
    · rw [hba, Function.update_self] at hn'
      exact hnull n hn'
    · rw [Function.update_of_ne hba] at hn'
      exact h.others b n hb hn'

/-- A timer that is nowhere any more. -/
theorem Busy.freed {w : List Nat} {s : EventLoop} (h : Busy w s) {a : Nat} {t : Timer}
    (ha : s.timers a = some t) {tree : State Nat} (htree : Sound tree)
    (hnodes : ∀ b, (tree.heap.nodes b).isSome = (s.tree.heap.nodes b).isSome)
    (hmembers : ∀ b, b ≠ a → (b ∈ tree.members ↔ b ∈ s.tree.members)) (hout : a ∉ tree.members)
    {w' : List Nat} (hw : ∀ b, b ≠ a → b ∈ w → b ∈ w') (hchain : Chain s.timers w')
    (hnodup : w'.Nodup) (hnot : a ∉ w') {nactives ntimers : Int}
    (hntimers : ntimers = tree.members.card) (hnactives : nactives = s.nactives - activeCount t) :
    Busy w' (s.set a none (setNode a none tree) nactives ntimers) := by
  have hself := set_self a none (setNode a none tree) nactives ntimers s
  have hother : ∀ b, b ≠ a →
      (s.set a none (setNode a none tree) nactives ntimers).timers b = s.timers b :=
    fun b hb => set_other a none (setNode a none tree) nactives ntimers s hb
  have hne : ∀ {b u},
      (s.set a none (setNode a none tree) nactives ntimers).timers b = some u → b ≠ a :=
    fun hu heq => by
      rw [heq, hself] at hu
      cases hu
  refine ⟨setNode_sound htree hout fun n hn => (by cases hn), fun b => ?_, fun b hb => ?_,
    fun b u hu hb => ?_,
    fun b u hu => ?_, fun b u hu hp => ?_, ?_, hnodup, hntimers, ?_⟩
  · show (Function.update tree.heap.nodes a none b).isSome = _
    by_cases hba : b = a
    · rw [hba, Function.update_self, hself]
      rfl
    · rw [Function.update_of_ne hba, hnodes b, h.nodes b, hother b hba]
  · have hba : b ≠ a := fun heq => hout (heq ▸ hb)
    rw [hother b hba]
    exact h.armed b ((hmembers b hba).mp hb)
  · have hba := hne hu
    rw [hother b hba] at hu
    exact h.spent b u hu fun hin => hb ((hmembers b hba).mpr hin)
  · rw [hother b (hne hu)] at hu
    exact h.timeouts b u hu
  · have hba := hne hu
    rw [hother b hba] at hu
    exact hw b hba (h.waits b u hu hp)
  · refine hchain.keep fun b hb u hu => ⟨u, ?_, rfl⟩
    rw [hother b fun heq => hnot (heq ▸ hb), hu]
  · obtain ⟨A, hA, hn⟩ := h.nactives
    exact count_changed hA hn hother
      (by rw [ha, hself, Option.elim_none, Int.add_zero]; exact hnactives)

/-! ## The calls of a callback -/

/-- At most the timers of `l` are changed. -/
structure Touches (l : List Nat) (s s' : EventLoop) : Prop where
  timers : ∀ b, b ∉ l → s'.timers b = s.timers b
  keys : ∀ b, b ∉ l → s'.tree.key b = s.tree.key b
  members : ∀ b, b ∉ l → (b ∈ s'.tree.members ↔ b ∈ s.tree.members)
  pendings : s'.pendings = s.pendings
  npendings : s'.npendings = s.npendings
  invoked : s'.invoked = s.invoked

theorem Touches.refl (l : List Nat) (s : EventLoop) : Touches l s s :=
  ⟨fun _ _ => rfl, fun _ _ => rfl, fun _ _ => Iff.rfl, rfl, rfl, rfl⟩

theorem Touches.trans {l l' : List Nat} {s s' s'' : EventLoop} (h : Touches l s s')
    (h' : Touches l' s' s'') :
    Touches (l ++ l') s s'' := by
  have hleft : ∀ {b}, b ∉ l ++ l' → b ∉ l := fun hb hin => hb (List.mem_append_left _ hin)
  have hright : ∀ {b}, b ∉ l ++ l' → b ∉ l' := fun hb hin => hb (List.mem_append_right _ hin)
  constructor
  · exact fun b hb => (h'.timers b (hright hb)).trans (h.timers b (hleft hb))
  · exact fun b hb => (h'.keys b (hright hb)).trans (h.keys b (hleft hb))
  · exact fun b hb => (h'.members b (hright hb)).trans (h.members b (hleft hb))
  · exact h'.pendings.trans h.pendings
  · exact h'.npendings.trans h.npendings
  · exact h'.invoked.trans h.invoked

/-- The timer's callback will not be called in this pass. -/
def Dropped (a : Nat) (s : EventLoop) : Prop :=
  ∀ t, s.timers a = some t → ¬ (t.pending = true ∧ t.active = true)

/-- A call with a timer that is there, and no delete of one that is still in the list but
not pending any more. -/
def Act.Allowed (w : List Nat) (s : EventLoop) : Act → Prop
  | .add a _ _ _ => s.timers a = none
  | .del a => ∃ t, s.timers a = some t ∧ (a ∈ w → t.pending = true)
  | .reset a _ => ∃ t, s.timers a = some t

theorem removed_members {tree : State Nat} {a : Nat} :
    ∀ b, b ≠ a → (b ∈ tree.members.erase a ↔ b ∈ tree.members) :=
  fun b hb => by rw [Finset.mem_erase]; exact and_iff_right hb

theorem inserted_members {tree : State Nat} {a : Nat} :
    ∀ b, b ≠ a → (b ∈ insert a tree.members ↔ b ∈ tree.members) :=
  fun b hb => by rw [Finset.mem_insert]; exact or_iff_right hb

section Calls

variable {w : List Nat} {s : EventLoop} {a : Nat} {t : Timer}

theorem unlink_spent (ha : s.timers a = some t) (hdestroy : t.destroy = true) :
    htimerUnlink a s = some s := by
  rw [htimerUnlink, ha, Option.bind_some, if_pos hdestroy]

/-- `__htimer_del` of a timer in the heap. -/
theorem unlink_armed (htree : Sound s.tree) (ha : s.timers a = some t)
    (hdestroy : t.destroy = false) (hmem : a ∈ s.tree.members) :
    ∃ h', htimerUnlink a s = some (s.set a (some { t with destroy := true })
        ⟨h', s.tree.key, s.tree.members.erase a⟩ s.nactives (s.ntimers - 1)) ∧
      Sound (⟨h', s.tree.key, s.tree.members.erase a⟩ : State Nat) ∧
      ∀ b, (h'.nodes b).isSome = (s.tree.heap.nodes b).isSome := by
  obtain ⟨h', hstep, hsound, hnodes⟩ := remove_sound htree hmem
  refine ⟨h', ?_, hsound, hnodes⟩
  rw [htimerUnlink, ha, Option.bind_some, if_neg (by rw [hdestroy]; exact Bool.false_ne_true),
    EventLoop.heapStep, hstep]
  rfl

/-- `EVENT_DEL` of an active timer that is pending. -/
theorem eventDel_pending (ha : s.timers a = some t) (hactive : t.active = true)
    (hpending : t.pending = true) :
    eventDel a s =
      some (s.set a (some { t with active := false }) s.tree (s.nactives - 1) s.ntimers) := by
  simp only [eventDel, eventInactive, ha, Option.map_some, hactive, if_true, Option.bind_some,
    EventLoop.put, Function.update_self, hpending]
  rfl

/-- `EVENT_DEL` of one that is not. -/
theorem eventDel_idle (ha : s.timers a = some t) (hpending : t.pending = false) :
    eventDel a s =
      some (s.set a none (setNode a none s.tree) (s.nactives - activeCount t) s.ntimers) := by
  by_cases hactive : t.active = true
  · simp only [eventDel, eventInactive, ha, Option.map_some, hactive, if_true,
      Option.bind_some, EventLoop.put,
      Function.update_self, hpending, Bool.false_eq_true, if_false, hvFree,
      Function.update_idem, activeCount]
    rfl
  · simp only [eventDel, eventInactive, ha, Option.map_some, hactive, if_false, Option.bind_some,
      hpending, Bool.false_eq_true, hvFree, activeCount, Int.sub_zero]
    rfl

theorem set_touches {o : Option Timer} {tree : State Nat} {nactives ntimers : Int}
    (hkeys : ∀ b, b ≠ a → tree.key b = s.tree.key b)
    (hmembers : ∀ b, b ≠ a → (b ∈ tree.members ↔ b ∈ s.tree.members)) :
    Touches [a] s (s.set a o tree nactives ntimers) :=
  ⟨fun _ hb => set_other _ _ _ _ _ _ (List.ne_of_not_mem_cons hb),
    fun b hb => hkeys b (List.ne_of_not_mem_cons hb),
    fun b hb => hmembers b (List.ne_of_not_mem_cons hb), rfl, rfl, rfl⟩

theorem set_dropped {o : Option Timer} {tree : State Nat} {nactives ntimers : Int}
    (hdropped : ∀ t, o = some t → ¬ (t.pending = true ∧ t.active = true)) :
    Dropped a (s.set a o tree nactives ntimers) := fun u hu => hdropped u (by rw [← hu, set_self])

/-- A timer that is in no list is freed at once. -/
theorem del_idle (htree : Sound s.tree) (ha : s.timers a = some t) (hactive : t.active = true)
    (hdestroy : t.destroy = false) (hmem : a ∈ s.tree.members) (hpending : t.pending = false) :
    ∃ h', htimerDel a s =
      some (s.set a none (setNode a none ⟨h', s.tree.key, s.tree.members.erase a⟩)
        (s.nactives - activeCount t) (s.ntimers - 1)) ∧
      Sound (⟨h', s.tree.key, s.tree.members.erase a⟩ : State Nat) ∧
      ∀ b, (h'.nodes b).isSome = (s.tree.heap.nodes b).isSome := by
  obtain ⟨h', hunlink, hsound, hnodes⟩ := unlink_armed htree ha hdestroy hmem
  refine ⟨h', ?_, hsound, hnodes⟩
  rw [htimerDel, ha, Option.bind_some, if_pos hactive, hunlink, Option.bind_some,
    eventDel_idle (t := { t with destroy := true }) (set_self ..) hpending, set_set]
  rfl

theorem del_spec (h : Busy w s) (ha : s.timers a = some t) (hstale : a ∈ w → t.pending = true) :
    ∃ s', htimerDel a s = some s' ∧ Busy w s' ∧ Touches [a] s s' ∧ Dropped a s' := by
  by_cases hactive : t.active = true
  · have hinactive : ∀ t' u : Timer, some { t' with active := false } = some u →
        ¬ (u.pending = true ∧ u.active = true) := by
      intro t' u hu hboth
      rw [← Option.some.inj hu] at hboth
      exact Bool.false_ne_true hboth.2
    by_cases hdestroy : t.destroy = true
    · -- it waits to be freed
      have hout := (h.destroy_iff ha).mp hdestroy
      have hpending := (h.spent a t ha hout).2
      refine ⟨s.set a (some { t with active := false }) s.tree (s.nactives - 1) s.ntimers, ?_, ?_,
        set_touches (fun _ _ => rfl) (fun _ _ => Iff.rfl), set_dropped fun u hu => hinactive t u hu⟩
      · rw [htimerDel, ha, Option.bind_some, if_pos hactive, unlink_spent ha hdestroy,
          Option.bind_some,
          eventDel_pending ha hactive hpending]
      · refine h.changed ha { t with active := false } h.tree (fun _ => rfl) (fun _ _ => Iff.rfl)
          rfl rfl (fun hin => absurd hin hout)
          (fun _ => ⟨hdestroy, hpending⟩) (fun hp => h.waits a t ha hpending) h.ntimers ?_
        simp [activeCount, hactive]
    · rw [Bool.not_eq_true] at hdestroy
      have hmem : a ∈ s.tree.members := by
        by_contra hout
        rw [(h.spent a t ha hout).1] at hdestroy
        cases hdestroy
      obtain ⟨h', hunlink, hsound, hnodes⟩ := unlink_armed h.tree ha hdestroy hmem
      have hout : a ∉ s.tree.members.erase a := Finset.notMem_erase a _
      have hcount : s.ntimers - 1 = ((s.tree.members.erase a).card : Int) := by
        have hpos := Finset.card_pos.mpr ⟨a, hmem⟩
        rw [h.ntimers, Finset.card_erase_of_mem hmem]
        omega
      by_cases hpending : t.pending = true
      · -- it is freed when its turn comes
        refine ⟨s.set a (some { t with destroy := true, active := false })
          ⟨h', s.tree.key, s.tree.members.erase a⟩
          (s.nactives - 1) (s.ntimers - 1), ?_, ?_, set_touches (fun _ _ => rfl) removed_members,
          set_dropped fun u hu => hinactive { t with destroy := true } u hu⟩
        · rw [htimerDel, ha, Option.bind_some, if_pos hactive, hunlink, Option.bind_some,
            eventDel_pending (t := { t with destroy := true }) (set_self ..)
              hactive hpending, set_set]
          rfl
        · refine h.changed ha { t with destroy := true, active := false } hsound hnodes
            removed_members rfl rfl (fun hin => absurd hin hout)
            (fun _ => ⟨rfl, hpending⟩) (fun _ => h.waits a t ha hpending) hcount ?_
          simp [activeCount, hactive]
      · have hnot : a ∉ w := fun hin => hpending (hstale hin)
        rw [Bool.not_eq_true] at hpending
        obtain ⟨h'', hdel, hsound', hnodes'⟩ := del_idle h.tree ha hactive hdestroy hmem hpending
        exact ⟨_, hdel, h.freed ha hsound' hnodes' removed_members hout (fun _ _ hb => hb) h.chain
          h.nodup hnot hcount rfl,
          set_touches (fun _ _ => rfl) removed_members, set_dropped fun u hu => (by cases hu)⟩
  · refine ⟨s, ?_, h, Touches.refl [a] s, fun u hu => ?_⟩
    · rw [htimerDel, ha, Option.bind_some, if_neg hactive]
    · obtain rfl := Option.some.inj (ha.symm.trans hu)
      exact fun hboth => hactive hboth.2

/-- The timer behind `htimer_reset`. -/
def rearmed (t : Timer) : Timer :=
  { t with
    repeats := if t.repeats = 0 then 1 else t.repeats
    destroy := false
    active := true
    pending := false }

/-- `EVENT_RESET` -/
theorem eventReset_eq (ha : s.timers a = some t) :
    eventReset a s =
      some (s.set a (some { t with destroy := false, active := true, pending := false }) s.tree
      (s.nactives - activeCount t + 1) s.ntimers) := by
  by_cases hactive : t.active = true
  · simp only [eventReset, eventActive, ha, Option.bind_some, EventLoop.put, Function.update_self,
      Option.map_some, hactive, if_true, Function.update_idem, activeCount, Int.sub_add_cancel]
    rfl
  · simp only [eventReset, eventActive, ha, Option.bind_some, EventLoop.put,
      Function.update_self, Option.map_some,
      hactive, if_false, Function.update_idem, activeCount, Int.sub_zero, Bool.false_eq_true]
    rfl

theorem sub_count (n : Int) (t t' : Timer) (hactive : t'.active = true) :
    n - activeCount t + 1 = n - activeCount t + activeCount t' := by
  rw [activeCount, activeCount, if_pos hactive]

/-- The timer goes into the heap again, for a later time. -/
theorem reinsert_spec (h : Busy w s) (ha : s.timers a = some t) (now : Nat) {tree : State Nat}
    {ntimers : Int} (htree : Sound tree)
    (hnodes : ∀ b, (tree.heap.nodes b).isSome = (s.tree.heap.nodes b).isSome)
    (hkeys : tree.key = s.tree.key) (hout : a ∉ tree.members)
    (hmembers : ∀ b, b ≠ a → (b ∈ tree.members ↔ b ∈ s.tree.members))
    (hntimers : ntimers = tree.members.card + 1) :
    ∃ s', (({ s with tree := tree, ntimers := ntimers } : EventLoop).put a
          { t with repeats := if t.repeats = 0 then 1 else t.repeats }).heapStep
            (.insert a now) = some s' ∧
      ∃ s'', eventReset a s' = some s'' ∧ Busy w s'' ∧ Touches [a] s s'' ∧
        s''.timers a = some (rearmed t) := by
  have hthere : (tree.heap.nodes a).isSome := by
    rw [hnodes, h.nodes a, ha]
    rfl
  obtain ⟨h', hstep, hsound, hnodes'⟩ := insert_sound htree now hout hthere
  refine ⟨s.set a (some { t with repeats := if t.repeats = 0 then 1 else t.repeats })
    ⟨h', Function.update tree.key a now, insert a tree.members⟩ s.nactives ntimers, ?_, _,
    eventReset_eq (set_self ..), ?_⟩
  · rw [EventLoop.heapStep]
    show Option.map _ ((Op.insert a now).step tree) = _
    rw [hstep]
    rfl
  rw [set_set]
  have hmem : a ∈ insert a tree.members := Finset.mem_insert_self a _
  refine ⟨?_, ?_, ?_⟩
  · refine h.changed ha (rearmed t) hsound (fun b => (hnodes' b).trans (hnodes b)) ?_ rfl rfl
      (fun _ => ⟨rfl, rfl⟩) (fun hnot => absurd hmem hnot)
      (fun hp => absurd hp Bool.false_ne_true) ?_ ?_
    · exact fun b hb => (inserted_members b hb).trans (hmembers b hb)
    · show ntimers = _
      rw [hntimers, Finset.card_insert_of_notMem hout]
      rfl
    · exact sub_count _ _ _ rfl
  · refine set_touches (fun b hb => ?_) fun b hb => (inserted_members b hb).trans (hmembers b hb)
    show Function.update tree.key a now b = _
    rw [Function.update_of_ne hb, hkeys]
  · exact set_self ..

theorem reset_spec (h : Busy w s) (ha : s.timers a = some t) (now : Nat) :
    ∃ s', htimerReset a now s = some s' ∧ Busy w s' ∧ Touches [a] s s' ∧
    s'.timers a = some (rearmed t) := by
  by_cases hdestroy : t.destroy = true
  · have hout := (h.destroy_iff ha).mp hdestroy
    obtain ⟨s', hinsert, s'', hreset, hspec⟩ :=
      reinsert_spec h ha (now + delay t.timeout) h.tree (fun _ => rfl) rfl hout
      (fun _ _ => Iff.rfl) (show s.ntimers + 1 = _ by rw [h.ntimers])
    refine ⟨s'', ?_, hspec⟩
    rw [htimerReset, ha, Option.bind_some, if_pos hdestroy, Option.bind_some]
    rw [show ({ s with ntimers := s.ntimers + 1 } : EventLoop) =
      { s with tree := s.tree, ntimers := s.ntimers + 1 } from rfl,
      hinsert, Option.bind_some, hreset]
  · have hmem : a ∈ s.tree.members := by
      by_contra hout
      exact hdestroy ((h.destroy_iff ha).mpr hout)
    obtain ⟨h', hstep, hsound, hnodes⟩ := remove_sound h.tree hmem
    have hcount : s.ntimers = ((s.tree.members.erase a).card : Int) + 1 := by
      have hpos := Finset.card_pos.mpr ⟨a, hmem⟩
      rw [h.ntimers, Finset.card_erase_of_mem hmem]
      omega
    obtain ⟨s', hinsert, s'', hreset, hspec⟩ :=
      reinsert_spec h ha (now + delay t.timeout) hsound hnodes rfl
      (Finset.notMem_erase a _) removed_members hcount
    refine ⟨s'', ?_, hspec⟩
    rw [htimerReset, ha, Option.bind_some, if_neg hdestroy, EventLoop.heapStep, hstep,
      Option.map_some, Option.bind_some]
    exact (congrArg (fun o : Option EventLoop => o.bind (eventReset a)) hinsert).trans hreset

theorem Busy.unknown (h : Busy w s) (ha : s.timers a = none) : a ∉ s.tree.members := fun hin => by
  obtain ⟨t, ht, -⟩ := h.armed a hin
  rw [ha] at ht
  cases ht

/-- `htimer_add` of a timer that has a timeout. -/
theorem add_eq (h : Busy w s) (ha : s.timers a = none) (now repeats : Nat) {timeout : Nat}
    (htimeout : timeout ≠ 0) :
    ∃ h', htimerAdd a now timeout repeats s =
      some (s.set a (some ⟨repeats, timeout, false, true, false, none⟩)
        ⟨h', Function.update s.tree.key a (now + delay timeout), insert a s.tree.members⟩
          (s.nactives + 1) (s.ntimers + 1)) ∧
      Sound (⟨h', Function.update s.tree.key a (now + delay timeout),
        insert a s.tree.members⟩ : State Nat) ∧
      ∀ b, (h'.nodes b).isSome = (Function.update s.tree.heap.nodes a (some .null) b).isSome := by
  have hout := h.unknown ha
  have hfresh : Sound (setNode a (some .null) s.tree) :=
    setNode_sound h.tree hout fun n hn => (Option.some.inj hn).symm
  have hthere : ((setNode a (some .null) s.tree).heap.nodes a).isSome := by
    show (Function.update s.tree.heap.nodes a _ a).isSome
    rw [Function.update_self]
    rfl
  obtain ⟨h', hstep, hsound, hnodes⟩ := insert_sound hfresh (now + delay timeout) hout hthere
  refine ⟨h', ?_, hsound, hnodes⟩
  rw [htimerAdd, if_neg htimeout, EventLoop.heapStep]
  show ((Option.map _
    ((Op.insert a (now + delay timeout)).step (setNode a (some .null) s.tree))).bind _) = _
  rw [hstep, Option.map_some, Option.bind_some]
  simp only [eventActive, hvAlloc, EventLoop.put, Function.update_self, Option.map_some,
    Bool.false_eq_true, if_false,
    Function.update_idem]
  rfl

theorem add_spec (h : Busy w s) (ha : s.timers a = none) (now timeout repeats : Nat) :
    ∃ s', htimerAdd a now timeout repeats s = some s' ∧ Busy w s' ∧ Touches [a] s s' ∧
    Dropped a s' := by
  by_cases hzero : timeout = 0
  · refine ⟨s, if_pos hzero, h, Touches.refl [a] s, fun t ht => ?_⟩
    rw [ha] at ht
    cases ht
  have hout := h.unknown ha
  have hnot : a ∉ w := fun hin => by
    obtain ⟨t, ht⟩ := h.chain.there hin
    rw [ha] at ht
    cases ht
  obtain ⟨h', hadd, hsound, hnodes⟩ := add_eq h ha now repeats hzero
  refine ⟨_, hadd, ?_, set_touches (fun b hb => Function.update_of_ne hb _ _) inserted_members, ?_⟩
  · generalize hs' : s.set a _ _ _ _ = s'
    have hself : s'.timers a = some ⟨repeats, timeout, false, true, false, none⟩ := by
      rw [← hs', set_self]
    have hother : ∀ b, b ≠ a → s'.timers b = s.timers b := fun b hb => by
      rw [← hs', set_other _ _ _ _ _ _ hb]
    have htree : s'.tree = ⟨h', Function.update s.tree.key a (now + delay timeout),
        insert a s.tree.members⟩ := by
      rw [← hs', set_tree]
    have hmembers : s'.tree.members = insert a s.tree.members := congrArg State.members htree
    refine ⟨by rw [htree]; exact hsound, fun b => ?_, fun b hb => ?_, fun b u hu hb => ?_,
      fun b u hu => ?_, fun b u hu hp => ?_, ?_, h.nodup, ?_, ?_⟩
    · rw [htree]
      show (h'.nodes b).isSome = _
      rw [hnodes b]
      by_cases hba : b = a
      · rw [hba, hself, Function.update_self]
        rfl
      · rw [hother b hba, ← h.nodes b, Function.update_of_ne hba]
    · by_cases hba : b = a
      · exact ⟨_, by rw [hba, hself], rfl, rfl⟩
      · rw [hother b hba]
        rw [hmembers] at hb
        exact h.armed b ((inserted_members b hba).mp hb)
    · by_cases hba : b = a
      · rw [hmembers, hba] at hb
        exact absurd (Finset.mem_insert_self a _) hb
      · rw [hother b hba] at hu
        rw [hmembers] at hb
        exact h.spent b u hu fun hin => hb (Finset.mem_insert_of_mem hin)
    · by_cases hba : b = a
      · rw [hba, hself] at hu
        rw [← Option.some.inj hu]
        exact Nat.pos_of_ne_zero hzero
      · rw [hother b hba] at hu
        exact h.timeouts b u hu
    · by_cases hba : b = a
      · rw [hba, hself] at hu
        rw [← Option.some.inj hu] at hp
        exact absurd hp Bool.false_ne_true
      · rw [hother b hba] at hu
        exact h.waits b u hu hp
    · exact h.chain.keep fun b hb u hu => ⟨u, by rw [hother b fun heq => hnot (heq ▸ hb), hu], rfl⟩
    · rw [hmembers, Finset.card_insert_of_notMem hout, ← hs']
      show s.ntimers + 1 = _
      rw [h.ntimers]
      rfl
    · obtain ⟨A, hA, hn⟩ := h.nactives
      refine count_changed hA hn hother ?_
      rw [ha, hself, ← hs']
      show s.nactives + 1 = s.nactives - 0 + 1
      omega
  · refine set_dropped fun u hu hboth => ?_
    rw [← Option.some.inj hu] at hboth
    exact Bool.false_ne_true hboth.1

/-- Any call that is allowed. -/
theorem act_spec (h : Busy w s) {act : Act} (hallowed : act.Allowed w s) :
    ∃ s', act.step s = some s' ∧ Busy w s' ∧ Touches [act.timer] s s' ∧ Dropped act.timer s' := by
  cases act with
  | add a now timeout repeats => exact add_spec h hallowed now timeout repeats
  | del a =>
    obtain ⟨t, ht, hstale⟩ := hallowed
    exact del_spec h ht hstale
  | reset a now =>
    obtain ⟨t, ht⟩ := hallowed
    obtain ⟨s', hstep, hbusy, htouches, hself⟩ := reset_spec h ht now
    refine ⟨s', hstep, hbusy, htouches, fun u hu hboth => ?_⟩
    rw [← Option.some.inj (hself.symm.trans hu)] at hboth
    exact Bool.false_ne_true hboth.1

end Calls

end NetmtTimers
