import Netmt.Timers

/-!
# Passes over the timers

A pass of the event loop takes the timers that are due out of the heap in the order of
their times, puts them on the list of those that wait, and then calls their callbacks from
the head of that list, so the last one first. A callback may add, delete and reset timers.
-/
namespace NetmtTimerPasses

open NetmtHeapRuns NetmtTimers

/-! ## Callbacks -/

def LegalActs (w : List Nat) : List Act → EventLoop → Prop
  | [], _ => True
  | act :: acts, s => act.Allowed w s ∧ ∀ s', act.step s = some s' → LegalActs w acts s'

theorem Dropped.kept {a : Nat} {l : List Nat} {s s' : EventLoop} (h : Dropped a s)
    (htouches : Touches l s s') (ha : a ∉ l) : Dropped a s' :=
      fun t ht => h t (by rw [← htouches.timers a ha, ht])

theorem acts_spec {w : List Nat} (acts : List Act) {s : EventLoop} (h : Busy w s)
    (hlegal : LegalActs w acts s) :
    ∃ s', runActs acts s = some s' ∧ Busy w s' ∧ Touches (acts.map Act.timer) s s' ∧
      ∀ a ∈ acts.map Act.timer, Dropped a s' := by
  induction acts generalizing s with
  | nil => exact ⟨s, rfl, h, Touches.refl [] s, fun a ha => (by cases ha)⟩
  | cons act acts ih =>
    obtain ⟨s₁, hstep, hbusy₁, htouches₁, hdropped₁⟩ := act_spec h hlegal.1
    obtain ⟨s', hrun, hbusy', htouches', hdropped'⟩ := ih hbusy₁ (hlegal.2 s₁ hstep)
    refine ⟨s', ?_, hbusy', htouches₁.trans htouches', fun a ha => ?_⟩
    · rw [runActs, List.foldlM_cons, hstep]
      exact hrun
    · by_cases hin : a ∈ acts.map Act.timer
      · exact hdropped' a hin
      · rw [List.map_cons] at ha
        obtain rfl := (List.mem_cons.mp ha).resolve_right hin
        exact Dropped.kept hdropped₁ htouches' hin

/-- The loop's own marks are nothing to its timers. -/
theorem Busy.marked {w : List Nat} {s : EventLoop} (h : Busy w s) (pendings : Option Nat)
    (npendings : Nat) (invoked : List Nat) :
    Busy w { s with pendings := pendings, npendings := npendings, invoked := invoked } :=
  ⟨h.tree, h.nodes, h.armed, h.spent, h.timeouts, h.waits, h.chain, h.nodup, h.ntimers, h.nactives⟩

/-- `++ncbs`, with the timer whose callback it is. -/
def called (a : Nat) (s : EventLoop) : EventLoop := { s with invoked := s.invoked ++ [a] }

/-- The timer's callback is still to be called. -/
def Ready (a : Nat) (s : EventLoop) : Prop :=
  ∃ t, s.timers a = some t ∧ t.pending = true ∧ t.active = true

/-- A timer after its turn. -/
def settled (t : Timer) : Option Timer :=
  if t.destroy then none else some { t with pending := false }

section Turns

variable {w : List Nat} {a : Nat} {s : EventLoop}

/-- `cur->pending = 0`, and the timer is freed if it is marked as destroy. -/
theorem settle_spec (h : Busy (a :: w) s) {t : Timer} (ha : s.timers a = some t) :
    ∃ s', (if t.destroy then eventDel a (s.put a { t with pending := false })
      else some (s.put a { t with pending := false }))
        = some s' ∧ Busy w s' ∧ Touches [a] s s' ∧ s'.timers a = settled t ∧
        s'.tree.key a = s.tree.key a ∧
      (a ∈ s'.tree.members ↔ a ∈ s.tree.members) := by
  have hnot : a ∉ w := (List.nodup_cons.mp h.nodup).1
  have hnodup : w.Nodup := (List.nodup_cons.mp h.nodup).2
  by_cases hdestroy : t.destroy = true
  · have hout := (h.destroy_iff ha).mp hdestroy
    refine ⟨s.set a none (setNode a none s.tree) (s.nactives - activeCount t) s.ntimers, ?_, ?_,
      set_touches (fun _ _ => rfl) (fun _ _ => Iff.rfl), ?_, rfl, Iff.rfl⟩
    · rw [if_pos hdestroy, put_eq, eventDel_idle (t := { t with pending := false })
        (set_self ..) rfl, set_set]
      rfl
    · exact h.freed ha h.tree (fun _ => rfl) (fun _ _ => Iff.rfl) hout
        (fun b hb hin => (List.mem_cons.mp hin).resolve_left hb) h.chain.2 hnodup hnot h.ntimers rfl
    · rw [set_self, settled, if_pos hdestroy]
  · have hmem : a ∈ s.tree.members := by
      by_contra hout
      exact hdestroy ((h.destroy_iff ha).mpr hout)
    obtain ⟨t', ht', -, hactive⟩ := h.armed a hmem
    obtain rfl := Option.some.inj (ha.symm.trans ht')
    have hkept :=
      h.changed ha { t with pending := false } h.tree (fun _ => rfl) (fun _ _ => Iff.rfl) rfl rfl
      (fun _ => ⟨Bool.eq_false_iff.mpr hdestroy, hactive⟩) (fun hout => absurd hmem hout)
      (fun hp => absurd hp Bool.false_ne_true) h.ntimers (show s.nactives = _ from by
        show s.nactives = s.nactives - activeCount t + activeCount t
        omega)
    refine ⟨s.put a { t with pending := false }, if_neg hdestroy, ?_,
      set_touches (fun _ _ => rfl) (fun _ _ => Iff.rfl), ?_,
      rfl, Iff.rfl⟩
    · refine ⟨hkept.tree, hkept.nodes, hkept.armed, hkept.spent, hkept.timeouts,
        fun b u hu hp => ?_, hkept.chain.2,
        hnodup, hkept.ntimers, hkept.nactives⟩
      refine (List.mem_cons.mp (hkept.waits b u hu hp)).resolve_left fun hb => ?_
      rw [hb, put_eq, set_self] at hu
      rw [← Option.some.inj hu] at hp
      exact Bool.false_ne_true hp
    · rw [put_eq, set_self, settled, if_neg hdestroy]

/-- The turn of a timer that an earlier callback has dropped. -/
theorem visit_dropped (script : Nat → List Act) (h : Busy (a :: w) s) (hdropped : Dropped a s) :
    ∃ s', visit script a s = some s' ∧ Busy w s' ∧ Touches [a] s s' := by
  obtain ⟨⟨t, ha, -⟩, -⟩ := h.chain
  by_cases hpending : t.pending = true
  · obtain ⟨s', hsettle, hbusy, htouches, -⟩ := settle_spec h ha
    refine ⟨s', ?_, hbusy, htouches⟩
    simp only [visit, ha, Option.bind_some, if_pos hpending,
      if_neg (fun hactive => hdropped t ha ⟨hpending, hactive⟩)]
    exact hsettle
  · refine ⟨s, ?_, ?_, Touches.refl [a] s⟩
    · simp only [visit, ha, Option.bind_some, if_neg hpending]
    · refine ⟨h.tree, h.nodes, h.armed, h.spent, h.timeouts, fun b u hu hp => ?_, h.chain.2,
        (List.nodup_cons.mp h.nodup).2,
        h.ntimers, h.nactives⟩
      refine (List.mem_cons.mp (h.waits b u hu hp)).resolve_left fun hb => ?_
      rw [hb, ha] at hu
      rw [← Option.some.inj hu] at hp
      exact hpending hp

/-- The turn of one whose callback is called. -/
theorem visit_ready (script : Nat → List Act) (h : Busy (a :: w) s) (hready : Ready a s)
    (hlegal : LegalActs (a :: w) (script a) (called a s)) :
    ∃ s', visit script a s = some s' ∧ Busy w s' ∧ Touches ((script a).map Act.timer ++ [a])
      (called a s) s' ∧
      (∀ b ∈ (script a).map Act.timer, Dropped b s') ∧
      (a ∉ (script a).map Act.timer → s'.timers a = (s.timers a).bind settled ∧
        s'.tree.key a = s.tree.key a ∧
        (a ∈ s'.tree.members ↔ a ∈ s.tree.members)) := by
  obtain ⟨t, ha, hpending, hactive⟩ := hready
  obtain ⟨s₁, hacts, hbusy₁, htouches₁, hdropped₁⟩ :=
    acts_spec (script a) (s := called a s) (Busy.marked h _ _ _) hlegal
  obtain ⟨⟨t₁, ha₁, -⟩, -⟩ := hbusy₁.chain
  obtain ⟨s', hsettle, hbusy', htouches', hself, hkey, hmembers⟩ := settle_spec hbusy₁ ha₁
  refine ⟨s', ?_, hbusy', ?_, fun b hb => ?_, fun hnot => ⟨?_, ?_, ?_⟩⟩
  · simp only [visit, ha, Option.bind_some, if_pos hpending, if_pos hactive]
    change ((runActs (script a) (called a s)).bind _) = _
    simp only [hacts, Option.bind_some, ha₁]
    exact hsettle
  · exact htouches₁.trans htouches'
  · by_cases hba : b = a
    · intro u hu
      rw [hba, hself, settled] at hu
      by_cases hdestroy : t₁.destroy = true
      · rw [if_pos hdestroy] at hu
        cases hu
      · rw [if_neg hdestroy] at hu
        rw [← Option.some.inj hu]
        exact fun hboth => Bool.false_ne_true hboth.1
    · exact Dropped.kept (hdropped₁ b hb) htouches'
        (List.not_mem_cons_of_ne_of_not_mem hba List.not_mem_nil)
  · have hsame : s₁.timers a = s.timers a := htouches₁.timers a hnot
    rw [hself, ← hsame, ha₁]
    rfl
  · exact hkey.trans (htouches₁.keys a hnot)
  · exact hmembers.trans (htouches₁.members a hnot)

end Turns

/-! ## The list -/

def LegalTurns (script : Nat → List Act) : List Nat → EventLoop → Prop
  | [], _ => True
  | a :: w, s => (Ready a s → LegalActs (a :: w) (script a) (called a s)) ∧
      ∀ s', visit script a s = some s' → LegalTurns script w s'

/-- The timers of the list whose callbacks are called: those that no earlier callback of the
pass has added, deleted or reset. -/
def turns (script : Nat → List Act) : List Nat → List Nat → List Nat
  | _, [] => []
  | acted, a :: w =>
    if a ∈ acted then turns script acted w
      else a :: turns script (acted ++ (script a).map Act.timer) w

/-- The timers that callbacks add, delete or reset. -/
def actedOn (script : Nat → List Act) (l : List Nat) : List Nat :=
  l.flatMap fun a => (script a).map Act.timer

/-- The loop over the list `w`, from where callbacks have dropped the timers `acted` of it and
no others. -/
theorem pendingsLoop_spec (script : Nat → List Act) (w : List Nat) {s : EventLoop}
    {acted : List Nat} (h : Busy w s) (hdropped : ∀ a ∈ w, a ∈ acted → Dropped a s)
    (hready : ∀ a ∈ w, a ∉ acted → Ready a s) (hlegal : LegalTurns script w s) {fuel : Nat}
    (hfuel : w.length ≤ fuel) :
    ∃ s', pendingsLoop script fuel w.head? s = some s' ∧ Busy [] s' ∧
      s'.invoked = s.invoked ++ turns script acted w ∧
      ∀ b, b ∉ acted → b ∉ actedOn script (turns script acted w) →
        s'.timers b = (if b ∈ w then (s.timers b).bind settled else s.timers b) ∧
        s'.tree.key b = s.tree.key b ∧ (b ∈ s'.tree.members ↔ b ∈ s.tree.members) := by
  induction w generalizing s acted fuel with
  | nil =>
    refine ⟨s, ?_, h, (List.append_nil _).symm, fun b _ _ =>
      ⟨(if_neg List.not_mem_nil).symm, rfl, Iff.rfl⟩⟩
    cases fuel <;> rfl
  | cons a w ih =>
    obtain ⟨fuel, rfl⟩ := Nat.exists_eq_add_of_le' (Nat.lt_of_lt_of_le (Nat.succ_pos _) hfuel)
    have hfuel' : w.length ≤ fuel := Nat.le_of_succ_le_succ hfuel
    obtain ⟨⟨t, ha, hnext⟩, -⟩ := h.chain
    have hnot : a ∉ w := (List.nodup_cons.mp h.nodup).1
    have hwalk : ∀ {s₁}, visit script a s = some s₁ →
        pendingsLoop script (fuel + 1) (some a) s = pendingsLoop script fuel w.head? s₁ :=
          fun hvisit => by
      rw [pendingsLoop, ha, Option.bind_some, hvisit, Option.bind_some, hnext]
    by_cases hacted : a ∈ acted
    · obtain ⟨s₁, hvisit, hbusy₁, htouches⟩ :=
        visit_dropped script h (hdropped a List.mem_cons_self hacted)
      have hrest : ∀ b ∈ w, s₁.timers b = s.timers b := fun b hb =>
        htouches.timers b fun hin => hnot (List.mem_singleton.mp hin ▸ hb)
      have hdropped' : ∀ b ∈ w, b ∈ acted → Dropped b s₁ := fun b hb hin u hu =>
        hdropped b (List.mem_cons_of_mem a hb) hin u (by rw [← hrest b hb, hu])
      have hready' : ∀ b ∈ w, b ∉ acted → Ready b s₁ := fun b hb hin => by
        rw [Ready, hrest b hb]
        exact hready b (List.mem_cons_of_mem a hb) hin
      obtain ⟨s', hloop, hbusy', hinvoked, hother⟩ :=
        ih hbusy₁ hdropped' hready' (hlegal.2 s₁ hvisit) hfuel'
      refine ⟨s', (hwalk hvisit).trans hloop, hbusy', ?_, ?_⟩
      · rw [hinvoked, htouches.invoked, turns, if_pos hacted]
      · intro b hb hb'
        rw [turns, if_pos hacted] at hb'
        obtain ⟨htimers, hkey, hmembers⟩ := hother b hb hb'
        have hba : b ≠ a := fun heq => hb (heq ▸ hacted)
        have hout : b ∉ [a] := fun hin => hba (List.mem_singleton.mp hin)
        refine ⟨?_, hkey.trans (htouches.keys b hout), hmembers.trans (htouches.members b hout)⟩
        rw [htimers, htouches.timers b hout]
        simp only [List.mem_cons, hba, false_or]
    · obtain ⟨s₁, hvisit, hbusy₁, htouches, hdropped₁, hself⟩ := visit_ready script h
        (hready a List.mem_cons_self hacted) (hlegal.1 (hready a List.mem_cons_self hacted))
      have hout : ∀ b, b ≠ a → b ∉ (script a).map Act.timer → b ∉ (script a).map Act.timer ++ [a] :=
        fun b hba hb hin =>
        (List.mem_append.mp hin).elim hb fun hin => hba (List.mem_singleton.mp hin)
      have hne : ∀ b ∈ w, b ≠ a := fun b hb heq => hnot (heq ▸ hb)
      have hdropped' : ∀ b ∈ w, b ∈ acted ++ (script a).map Act.timer → Dropped b s₁ :=
        fun b hb hin => by
        by_cases hact : b ∈ (script a).map Act.timer
        · exact hdropped₁ b hact
        · have hold :=
            hdropped b (List.mem_cons_of_mem a hb) ((List.mem_append.mp hin).resolve_right hact)
          exact Dropped.kept (show Dropped b (called a s) from hold) htouches
            (hout b (hne b hb) hact)
      have hready' : ∀ b ∈ w, b ∉ acted ++ (script a).map Act.timer → Ready b s₁ :=
        fun b hb hin => by
        have hact : b ∉ (script a).map Act.timer := fun h => hin (List.mem_append_right _ h)
        have hold := hready b (List.mem_cons_of_mem a hb) fun h => hin (List.mem_append_left _ h)
        rw [Ready, htouches.timers b (hout b (hne b hb) hact)]
        exact hold
      obtain ⟨s', hloop, hbusy', hinvoked, hother⟩ :=
        ih hbusy₁ hdropped' hready' (hlegal.2 s₁ hvisit) hfuel'
      refine ⟨s', (hwalk hvisit).trans hloop, hbusy', ?_, ?_⟩
      · rw [hinvoked, htouches.invoked, turns, if_neg hacted, called, List.append_assoc]
        rfl
      · intro b hb hb'
        rw [turns, if_neg hacted, actedOn, List.flatMap_cons, List.mem_append, not_or] at hb'
        obtain ⟨htimers, hkey, hmembers⟩ := hother b
          (fun hin => (List.mem_append.mp hin).elim hb hb'.1) hb'.2
        by_cases hba : b = a
        · subst hba
          obtain ⟨hself', hkey', hmembers'⟩ := hself hb'.1
          refine ⟨?_, hkey.trans hkey', hmembers.trans hmembers'⟩
          rw [htimers, if_neg hnot, if_pos List.mem_cons_self, hself']
        · have hb'' := hout b hba hb'.1
          refine ⟨?_, hkey.trans (htouches.keys b hb''), hmembers.trans (htouches.members b hb'')⟩
          rw [htimers, htouches.timers b hb'']
          simp only [List.mem_cons, hba, false_or]
          rfl

/-! ## The timers that are due -/

theorem catchUp_eq (now step : Nat) (hstep : 0 < step) (next : Nat) (hdue : next ≤ now) :
    catchUp now step next = next + ((now - next) / step + 1) * step := by
  induction hn : now - next using Nat.strong_induction_on generalizing next with
  | _ n ih =>
    rw [catchUp, if_pos ⟨hdue, hstep⟩]
    by_cases hagain : next + step ≤ now
    · have hless : now - (next + step) < n := by omega
      rw [ih _ hless (next + step) hagain rfl, show n = now - (next + step) + step by omega,
        Nat.add_div_right _ hstep, Nat.add_mul (_ + 1) 1 step]
      omega
    · rw [Nat.div_eq_of_lt (show n < step by omega), Nat.zero_add, Nat.one_mul, catchUp,
        if_neg fun h => hagain h.1]

theorem lt_catchUp (now step : Nat) (hstep : 0 < step) (next : Nat) (hdue : next ≤ now) :
    now < catchUp now step next := by
  have hmod := Nat.div_add_mod (now - next) step
  have hlt := Nat.mod_lt (now - next) hstep
  rw [catchUp_eq now step hstep next hdue, Nat.add_mul, Nat.mul_comm]
  omega

/-- A timer that has fired and waits for its callback. -/
def fired (t : Timer) (next : Option Nat) : Timer :=
  { t with
    repeats := countDown t.repeats
    destroy := decide (countDown t.repeats = 0)
    pending := true
    pending_next := next }

/-- What a timer that is due has become. -/
structure Fired (now a : Nat) (t : Timer) (s s' : EventLoop) : Prop where
  timer : ∃ next, s'.timers a = some (fired t next)
  last : countDown t.repeats = 0 → a ∉ s'.tree.members
  again : countDown t.repeats ≠ 0 → a ∈ s'.tree.members ∧
    s'.tree.key a = catchUp now (t.timeout * 1000) (s.tree.key a)

section Due

variable {w : List Nat} {s : EventLoop}

/-- `EVENT_PENDING` of a timer that has fired. -/
theorem pend_spec (h : Busy w s) (hpendings : s.pendings = w.head?) {a : Nat} (hnot : a ∉ w)
    {t : Timer} (ha : s.timers a = some t) (hactive : t.active = true) {tree : State Nat}
    {ntimers : Int} (htree : Sound tree)
    (hnodes : ∀ b, (tree.heap.nodes b).isSome = (s.tree.heap.nodes b).isSome)
    (hmembers : ∀ b, b ≠ a → (b ∈ tree.members ↔ b ∈ s.tree.members))
    (hntimers : ntimers = tree.members.card) (hself : a ∈ tree.members ↔ countDown t.repeats ≠ 0) :
    ∃ s', eventPending a (s.set a (some { t with
        repeats := countDown t.repeats, destroy := decide (countDown t.repeats = 0) }) tree
          s.nactives ntimers) = some s' ∧
      Busy (a :: w) s' ∧ s'.pendings = some a ∧ s'.npendings = s.npendings + 1 ∧
        s'.invoked = s.invoked ∧
      s'.timers a = some (fired t s.pendings) ∧ (∀ b, b ≠ a → s'.timers b = s.timers b) ∧
      s'.tree = tree := by
  have hpending : t.pending = false := Bool.eq_false_iff.mpr fun hp => hnot (h.waits a t ha hp)
  have hchain : Chain (Function.update s.timers a (some (fired t s.pendings))) (a :: w) := by
    refine ⟨⟨_, Function.update_self .., hpendings⟩, h.chain.keep fun b hb u hu => ⟨u, ?_, rfl⟩⟩
    have hba : b ≠ a := fun heq => hnot (heq ▸ hb)
    rw [Function.update_of_ne hba, hu]
  have hbusy : Busy (a :: w) (s.set a (some (fired t s.pendings)) tree s.nactives ntimers) := by
    refine h.changedIn ha (fired t s.pendings) htree hnodes hmembers
      (fun b hb => List.mem_cons_of_mem a hb) hchain
      (List.nodup_cons.mpr ⟨hnot, h.nodup⟩) rfl
      (fun hin => ⟨decide_eq_false (hself.mp hin), hactive⟩)
      (fun hout => ⟨decide_eq_true (not_not.mp fun hne => hout (hself.mpr hne)), rfl⟩)
      (fun _ => List.mem_cons_self) hntimers ?_
    show s.nactives = s.nactives - activeCount t + activeCount t
    omega
  refine ⟨_, ?_, Busy.marked hbusy (some a) (s.npendings + 1) s.invoked, rfl, rfl, rfl,
    set_self a (some (fired t s.pendings)) tree s.nactives ntimers s, fun b hb => ?_, rfl⟩
  · rw [eventPending, set_self, Option.map_some,
        if_neg (by rw [hpending]; exact Bool.false_ne_true), put_eq, set_set]
    rfl
  · exact set_other a (some (fired t s.pendings)) tree s.nactives ntimers s hb

theorem fire_spec (h : Busy w s) (hpendings : s.pendings = w.head?) (now : Nat) {a : Nat}
    (hroot : s.tree.heap.root = some a) (hsome : s.tree.heap.nelts ≠ 0) (hmem : a ∈ s.tree.members)
    (hnot : a ∉ w) {t : Timer} (ha : s.timers a = some t) :
    ∃ s', fire now a s = some s' ∧ Busy (a :: w) s' ∧ s'.pendings = some a ∧
    s'.npendings = s.npendings + 1 ∧
      s'.invoked = s.invoked ∧ Fired now a t s s' ∧
      ∀ b, b ≠ a → s'.timers b = s.timers b ∧ s'.tree.key b = s.tree.key b ∧
      (b ∈ s'.tree.members ↔ b ∈ s.tree.members) := by
  obtain ⟨t', ht', hdestroy, hactive⟩ := h.armed a hmem
  obtain rfl := Option.some.inj (ha.symm.trans ht')
  have hcard : s.ntimers = ((s.tree.members.erase a).card : Int) + 1 := by
    have hpos := Finset.card_pos.mpr ⟨a, hmem⟩
    rw [h.ntimers, Finset.card_erase_of_mem hmem]
    omega
  have hout : a ∉ s.tree.members.erase a := Finset.notMem_erase a _
  rw [fire, ha, Option.bind_some]
  by_cases hlast : countDown t.repeats = 0
  · -- it is only marked, and freed after its callback
    obtain ⟨h', hunlink, hsound, hnodes⟩ :=
      unlink_armed (s := s.put a { t with repeats := countDown t.repeats }) h.tree
      (set_self ..) hdestroy hmem
    obtain ⟨s', hpend, hbusy, hhead, hnp, hinvoked, hself, hother, htree⟩ :=
      pend_spec h hpendings hnot ha hactive
      hsound hnodes removed_members
        (show s.ntimers - 1 = _ by rw [hcard]; exact Int.add_sub_cancel _ _)
      (iff_of_false hout (fun hne => hne hlast))
    refine ⟨s', ?_, hbusy, hhead, hnp, hinvoked,
      ⟨⟨_, hself⟩, ?_, fun hne => absurd hlast hne⟩, fun b hb => ⟨hother b hb, ?_, ?_⟩⟩
    · simp only [if_pos hlast, hunlink, Option.bind_some, ← hpend, decide_eq_true hlast]
      rw [put_eq, set_set]
      rfl
    · rw [htree]
      exact fun _ => hout
    · rw [htree]
      rfl
    · rw [htree]
      exact removed_members b hb
  · obtain ⟨h₁, hstep, hsound₁, hnodes₁⟩ := remove_sound h.tree hmem
    have hthere : (h₁.nodes a).isSome := by
      rw [hnodes₁]
      exact h.tree.there hmem
    obtain ⟨h', hinsert, hsound, hnodes⟩ :=
      insert_sound hsound₁ (catchUp now (t.timeout * 1000) (s.tree.key a)) hout hthere
    obtain ⟨s', hpend, hbusy, hhead, hnp, hinvoked, hself, hother, htree⟩ :=
      pend_spec h hpendings hnot ha hactive
      hsound (fun b => (hnodes b).trans (hnodes₁ b))
      (fun b hb => (inserted_members b hb).trans (removed_members b hb))
      (show s.ntimers = _ by rw [hcard, Finset.card_insert_of_notMem hout]; rfl)
      (iff_of_true (Finset.mem_insert_self a _) hlast)
    refine ⟨s', ?_, hbusy, hhead, hnp, hinvoked,
      ⟨⟨_, hself⟩, fun heq => absurd heq hlast, fun _ => ?_⟩,
      fun b hb => ⟨hother b hb, ?_, ?_⟩⟩
    · have hkept : ({ t with repeats := countDown t.repeats } : Timer) =
          { t with
            repeats := countDown t.repeats
            destroy := decide (countDown t.repeats = 0) } := by
        rw [decide_eq_false hlast, ← hdestroy]
      simp only [if_neg hlast, hkept, EventLoop.heapStep]
      rw [← hpend]
      change ((Option.map _ (Op.dequeue.step s.tree)).bind _).bind _ = _
      rw [dequeue_eq hroot hsome, hstep, Option.map_some, Option.bind_some]
      change (Option.map _
        (Op.step (.insert a (catchUp now (t.timeout * 1000) (s.tree.key a))) ⟨h₁, _, _⟩)).bind _ = _
      rw [hinsert]
      rfl
    · rw [htree]
      exact ⟨Finset.mem_insert_self a _, Function.update_self ..⟩
    · rw [htree]
      exact Function.update_of_ne hb _ _
    · rw [htree]
      exact (inserted_members b hb).trans (removed_members b hb)

/-- `hloop_process_timers`: `p` are the timers that are due, in the order they are taken. -/
structure Passed (now : Nat) (w p : List Nat) (s s' : EventLoop) : Prop where
  busy : Busy (p.reverse ++ w) s'
  pendings : s'.pendings = (p.reverse ++ w).head?
  npendings : s'.npendings = (p.reverse ++ w).length
  invoked : s'.invoked = s.invoked
  due : ∀ a, a ∈ p ↔ a ∈ s.tree.members ∧ s.tree.key a ≤ now
  sorted : p.Pairwise fun a b => s.tree.key a ≤ s.tree.key b
  fired : ∀ a ∈ p, ∀ t, s.timers a = some t → Fired now a t s s'
  others : ∀ a, a ∉ p → s'.timers a = s.timers a ∧ s'.tree.key a = s.tree.key a ∧
    (a ∈ s'.tree.members ↔ a ∈ s.tree.members)

theorem processTimers_spec (now : Nat) (fuel : Nat) {w : List Nat} {s : EventLoop} (h : Busy w s)
    (hpendings : s.pendings = w.head?) (hnpendings : s.npendings = w.length)
    (hlater : ∀ a ∈ w, a ∈ s.tree.members → now < s.tree.key a)
    (hfuel : (s.tree.members.filter fun a => s.tree.key a ≤ now).card < fuel) :
    ∃ p s', processTimers now fuel s = some s' ∧ Passed now w p s s' := by
  induction fuel generalizing w s with
  | zero => exact absurd hfuel (Nat.not_lt_zero _)
  | succ fuel ih =>
    have hstop : (∀ a ∈ s.tree.members, now < s.tree.key a) → Passed now w [] s s := fun hnone =>
      ⟨h, hpendings, hnpendings, rfl,
        fun a => iff_of_false List.not_mem_nil fun hdue => absurd (hnone a hdue.1)
          (Nat.not_lt.mpr hdue.2), .nil,
        fun a ha => (by cases ha), fun _ _ => ⟨rfl, rfl, Iff.rfl⟩⟩
    rcases h.tree.root with ⟨hempty, -, hroot⟩ | ⟨a, hroot, hsome, hmem, hleast⟩
    · refine ⟨[], s, by simp only [processTimers, hroot], hstop fun a ha => ?_⟩
      rw [hempty] at ha
      cases ha
    by_cases hlate : now < s.tree.key a
    · exact ⟨[], s, by simp only [processTimers, hroot, if_pos hlate],
        hstop fun b hb => Nat.lt_of_lt_of_le hlate (hleast b hb)⟩
    have hdue : s.tree.key a ≤ now := Nat.le_of_not_lt hlate
    have hnot : a ∉ w := fun hin => hlate (hlater a hin hmem)
    obtain ⟨t, ha, hdestroy, hactive⟩ := h.armed a hmem
    obtain ⟨s₁, hfire, hbusy₁, hhead₁, hnp₁, hinvoked₁, hfired, hother⟩ :=
      fire_spec h hpendings now hroot hsome hmem hnot ha
    have hstep : 0 < t.timeout * 1000 := Nat.mul_pos (h.timeouts a t ha) (by decide)
    have hself : a ∈ s₁.tree.members → now < s₁.tree.key a := fun hin => by
      have hagain : countDown t.repeats ≠ 0 := fun hlast => hfired.last hlast hin
      rw [(hfired.again hagain).2]
      exact lt_catchUp now _ hstep _ hdue
    have hfirst : a ∈ s.tree.members.filter fun b => s.tree.key b ≤ now :=
      Finset.mem_filter.mpr ⟨hmem, hdue⟩
    have hless : (s₁.tree.members.filter fun b => s₁.tree.key b ≤ now).card < fuel := by
      have hsub : (s₁.tree.members.filter fun b => s₁.tree.key b ≤ now) ⊆
          (s.tree.members.filter fun b => s.tree.key b ≤ now).erase a := fun b hb => by
        obtain ⟨hin, hkey⟩ := Finset.mem_filter.mp hb
        have hba : b ≠ a := fun heq => Nat.not_lt.mpr hkey (heq ▸ hself (heq ▸ hin))
        obtain ⟨-, hkeys, hmembers⟩ := hother b hba
        exact Finset.mem_erase.mpr ⟨hba, Finset.mem_filter.mpr ⟨hmembers.mp hin, hkeys ▸ hkey⟩⟩
      have hcard := Finset.card_le_card hsub
      rw [Finset.card_erase_of_mem hfirst] at hcard
      have hpos := Finset.card_pos.mpr ⟨a, hfirst⟩
      omega
    obtain ⟨p, s', hrun, hpassed⟩ := ih hbusy₁ hhead₁ (by rw [hnp₁, hnpendings]; rfl)
      (fun b hb hin => by
        by_cases hba : b = a
        · rw [hba] at hin ⊢
          exact hself hin
        · obtain ⟨-, hkeys, hmembers⟩ := hother b hba
          rw [hkeys]
          exact hlater b ((List.mem_cons.mp hb).resolve_left hba) (hmembers.mp hin)) hless
    have hap : a ∉ p := fun hin => by
      obtain ⟨hin', hkey⟩ := (hpassed.due a).mp hin
      exact Nat.not_lt.mpr hkey (hself hin')
    have hap' : ∀ b ∈ p, b ≠ a := fun b hb heq => hap (heq ▸ hb)
    have hlist : (a :: p).reverse ++ w = p.reverse ++ (a :: w) := by
      rw [List.reverse_cons, List.append_assoc]
      rfl
    refine ⟨a :: p, s', ?_, ?_⟩
    · simp only [processTimers, hroot, if_neg hlate, hfire, Option.bind_some]
      exact hrun
    · refine ⟨hlist ▸ hpassed.busy, hlist ▸ hpassed.pendings, hlist ▸ hpassed.npendings,
        hpassed.invoked.trans hinvoked₁,
        fun b => ?_, ?_, fun b hb u hu => ?_, fun b hb => ?_⟩
      · by_cases hba : b = a
        · rw [hba]
          exact iff_of_true List.mem_cons_self ⟨hmem, hdue⟩
        · obtain ⟨-, hkeys, hmembers⟩ := hother b hba
          rw [List.mem_cons, or_iff_right hba, hpassed.due b, hkeys, hmembers]
      · refine List.pairwise_cons.mpr ⟨fun b hb => ?_, ?_⟩
        · obtain ⟨-, -, hmembers⟩ := hother b (hap' b hb)
          exact hleast b (hmembers.mp ((hpassed.due b).mp hb).1)
        · refine hpassed.sorted.imp_of_mem fun {b c} hb hc hle => ?_
          rw [← (hother b (hap' b hb)).2.1, ← (hother c (hap' c hc)).2.1]
          exact hle
      · rcases List.mem_cons.mp hb with rfl | hb
        · obtain rfl := Option.some.inj (ha.symm.trans hu)
          obtain ⟨htimers, hkey, hmembers⟩ := hpassed.others b hap
          exact ⟨by rw [htimers]; exact hfired.timer,
        fun hlast => by rw [hmembers]; exact hfired.last hlast,
            fun hagain => by rw [hmembers, hkey]; exact hfired.again hagain⟩
        · obtain ⟨htimers, hkey, -⟩ := hother b (hap' b hb)
          have hlast := hpassed.fired b hb u (by rw [htimers, hu])
          exact ⟨hlast.timer, hlast.last, hkey ▸ hlast.again⟩
      · obtain ⟨htimers, hkey, hmembers⟩ := hpassed.others b fun hin =>
          hb (List.mem_cons_of_mem a hin)
        obtain ⟨htimers', hkey', hmembers'⟩ := hother b fun heq => hb (heq ▸ List.mem_cons_self)
        exact ⟨htimers.trans htimers', hkey.trans hkey', hmembers.trans hmembers'⟩

end Due

/-! ## Runs of the loop -/

/-- No timer waits for its callback. -/
structure Quiet (s : EventLoop) : Prop where
  busy : Busy [] s
  pendings : s.pendings = none
  npendings : s.npendings = 0

/-- A call between passes, or a pass with what the callbacks do in it. -/
inductive Event where
  | call (act : Act)
  | pass (now : Nat) (script : Nat → List Act)

def Event.step : Event → EventLoop → Option EventLoop
  | .call act, s => act.step s
  | .pass now script, s => processEvents now script s

/-- In a pass the callbacks' calls are allowed, with the list `w` that the timers which are due
make. -/
def Event.Allowed (s : EventLoop) : Event → Prop
  | .call act => act.Allowed [] s
  | .pass now script => ∀ s' w,
      (if s.ntimers ≠ 0 then processTimers now (s.tree.heap.nelts + 1) s else some s) = some s' →
        Chain s'.timers w → s'.pendings = w.head? → LegalTurns script w s'

def runEvents (events : List Event) (s : EventLoop) : Option EventLoop :=
  events.foldlM (fun s event => event.step s) s

def LegalRun : List Event → EventLoop → Prop
  | [], _ => True
  | event :: events, s => event.Allowed s ∧ ∀ s', event.step s = some s' → LegalRun events s'

/-- `hloop_init` -/
def initial : EventLoop :=
  ⟨NetmtHeapRuns.initial (fun _ => none) fun _ => 0, fun _ => none, none, 0, 0, 0, []⟩

theorem initial_quiet : Quiet initial := by
  refine ⟨⟨initial_sound (fun _ _ h => (by cases h)) _, fun _ => rfl, fun a ha => ?_,
    fun a t ht => ?_, fun a t ht => ?_,
    fun a t ht => ?_, trivial, List.nodup_nil, rfl, ∅, fun a => ?_, rfl⟩, rfl, rfl⟩
  · exact absurd ha (Finset.notMem_empty a)
  · cases ht
  · cases ht
  · cases ht
  · refine iff_of_false (Finset.notMem_empty a) ?_
    rintro ⟨t, ht, -⟩
    cases ht

/-- The first half of a pass. -/
theorem Quiet.processTimers {s : EventLoop} (h : Quiet s) (now : Nat) :
    ∃ p s', (if s.ntimers ≠ 0 then NetmtTimers.processTimers now (s.tree.heap.nelts + 1) s
      else some s) = some s' ∧
      Passed now [] p s s' := by
  by_cases hnone : s.ntimers = 0
  · have hempty : s.tree.members = ∅ := by
      rw [h.busy.ntimers] at hnone
      exact Finset.card_eq_zero.mp (Int.ofNat_eq_zero.mp hnone)
    refine ⟨[], s, if_neg (not_not.mpr hnone), h.busy, h.pendings, h.npendings,
      rfl, fun a => ?_, .nil,
      fun a ha => (by cases ha), fun _ _ => ⟨rfl, rfl, Iff.rfl⟩⟩
    rw [hempty]
    exact iff_of_false List.not_mem_nil fun hin => Finset.notMem_empty a hin.1
  · obtain ⟨slots, hheap, -⟩ := h.busy.tree.tree
    rw [if_pos hnone]
    apply processTimers_spec now _ h.busy h.pendings h.npendings
    · exact fun a ha => (by cases ha)
    · rw [hheap.rep.nelts]
      exact Nat.lt_succ_of_le (Finset.card_filter_le _ _)

/-- Those on the list wait for their callbacks. -/
theorem Passed.ready {now : Nat} {p : List Nat} {s s' : EventLoop} (h : Quiet s)
    (hpassed : Passed now [] p s s') :
    ∀ a ∈ p.reverse, Ready a s' := by
  intro a ha
  have hp := List.mem_reverse.mp ha
  obtain ⟨t, ht, -, hactive⟩ := h.busy.armed a ((hpassed.due a).mp hp).1
  obtain ⟨next, hself⟩ := (hpassed.fired a hp t ht).timer
  exact ⟨_, hself, rfl, hactive⟩

/-- A timer that fires again is as before, but for its count and its place in the list. -/
theorem settled_fired {t : Timer} {next : Option Nat} (hagain : countDown t.repeats ≠ 0)
    (hdestroy : t.destroy = false) (hpending : t.pending = false) :
    settled (fired t next) =
      some { t with repeats := countDown t.repeats, pending_next := next } := by
  obtain ⟨repeats, timeout, destroy, active, pending, pending_next⟩ := t
  subst hdestroy hpending
  simp only [fired, settled, decide_eq_false hagain, Bool.false_eq_true, if_false]

/-- A pass does to a timer that no callback touches what its time says. -/
structure PassExact (now : Nat) (script : Nat → List Act) (due : List Nat)
    (s s' : EventLoop) : Prop where
  nodup : due.Nodup
  sorted : due.Pairwise fun a b => s.tree.key a ≤ s.tree.key b
  mem_due : ∀ a, a ∈ due ↔ a ∈ s.tree.members ∧ s.tree.key a ≤ now
  invoked : s'.invoked = s.invoked ++ turns script [] due.reverse
  waiting : ∀ a t, s.timers a = some t →
    a ∉ actedOn script (turns script [] due.reverse) → a ∉ due →
    s'.timers a = some t ∧ s'.tree.key a = s.tree.key a
  last : ∀ a t, s.timers a = some t → a ∉ actedOn script (turns script [] due.reverse) → a ∈ due →
    countDown t.repeats = 0 → s'.timers a = none
  again : ∀ a t, s.timers a = some t → a ∉ actedOn script (turns script [] due.reverse) → a ∈ due →
    countDown t.repeats ≠ 0 →
      (∃ next, s'.timers a = some { t with repeats := countDown t.repeats, pending_next := next }) ∧
      s'.tree.key a = s.tree.key a + ((now - s.tree.key a) / (t.timeout * 1000) + 1) *
        (t.timeout * 1000)

theorem pass_spec {s : EventLoop} (h : Quiet s) {now : Nat} {script : Nat → List Act}
    (hallowed : (Event.pass now script).Allowed s) :
    ∃ due s', processEvents now script s = some s' ∧ Quiet s' ∧ PassExact now script due s s' := by
  obtain ⟨p, s₁, hrun, hpassed⟩ := h.processTimers now
  have hbusy := hpassed.busy
  have hlegal := hallowed s₁ (p.reverse ++ []) hrun hbusy.chain hpassed.pendings
  have hhead := hpassed.pendings
  have hlength := hpassed.npendings
  rw [List.append_nil] at hbusy hlegal hhead hlength
  have hnone : ∀ a ∈ p.reverse, a ∈ ([] : List Nat) → Dropped a s₁ := fun a _ hin => (by cases hin)
  obtain ⟨s₂, hloop, hbusy₂, hinvoked, hother⟩ := pendingsLoop_spec script p.reverse hbusy hnone
    (fun a ha _ => hpassed.ready h a ha) hlegal (Nat.le_refl _)
  have hprocess : ∃ s', processPendings script s₁ = some s' ∧ Quiet s' ∧ s'.timers = s₂.timers ∧
    s'.tree = s₂.tree ∧
      s'.invoked = s₂.invoked := by
    by_cases hnone : s₁.npendings = 0
    · have hnil : p.reverse = [] := List.length_eq_zero_iff.mp (hlength.symm.trans hnone)
      rw [hnil] at hloop hhead
      have hsame : s₂ = s₁ := by
        cases h₁ : ([] : List Nat).length <;> exact (Option.some.inj hloop).symm
      refine ⟨s₁, if_pos hnone,
        ⟨hsame ▸ hbusy₂, hhead, hnone⟩, by rw [hsame], by rw [hsame], by rw [hsame]⟩
    · refine ⟨{ s₂ with pendings := none, npendings := 0 }, ?_,
        ⟨Busy.marked hbusy₂ none 0 s₂.invoked, rfl, rfl⟩, rfl, rfl, rfl⟩
      rw [processPendings, if_neg hnone, hlength, hhead, hloop]
      rfl
  obtain ⟨s', hpend, hquiet, htimers, htree, hinvoked'⟩ := hprocess
  refine ⟨p, s', ?_, hquiet, List.nodup_reverse.mp hbusy.nodup, hpassed.sorted,
    hpassed.due, ?_, ?_, ?_, ?_⟩
  · rw [processEvents, hrun, Option.bind_some, hpend]
  · rw [hinvoked', hinvoked, hpassed.invoked]
  · intro a t ha hacted hdue
    obtain ⟨hsame, hkey, -⟩ := hother a List.not_mem_nil hacted
    obtain ⟨hsame', hkey', -⟩ := hpassed.others a hdue
    rw [htimers, htree, hsame, hkey,
      if_neg fun hin => hdue (List.mem_reverse.mp hin), hsame', hkey']
    exact ⟨ha, rfl⟩
  · intro a t ha hacted hdue hlast
    obtain ⟨hsame, -⟩ := hother a List.not_mem_nil hacted
    obtain ⟨next, hself⟩ := (hpassed.fired a hdue t ha).timer
    rw [htimers, hsame, if_pos (List.mem_reverse.mpr hdue), hself, Option.bind_some, settled,
      if_pos (show (fired t next).destroy = true from decide_eq_true hlast)]
  · intro a t ha hacted hdue hagain
    obtain ⟨hsame, hkey, -⟩ := hother a List.not_mem_nil hacted
    have hfired := hpassed.fired a hdue t ha
    obtain ⟨hmem, hdue'⟩ := (hpassed.due a).mp hdue
    obtain ⟨t', ht', hdestroy, -⟩ := h.busy.armed a hmem
    obtain rfl := Option.some.inj (ha.symm.trans ht')
    have hpending : t.pending = false := Bool.eq_false_iff.mpr fun hp =>
      (by cases h.busy.waits a t ha hp)
    obtain ⟨next, hself⟩ := hfired.timer
    refine ⟨⟨next, ?_⟩, ?_⟩
    · rw [htimers, hsame, if_pos (List.mem_reverse.mpr hdue), hself, Option.bind_some,
        settled_fired hagain hdestroy hpending]
    · rw [htree, hkey, (hfired.again hagain).2,
        catchUp_eq now _ (Nat.mul_pos (h.busy.timeouts a t ha) (by decide)) _ hdue']

theorem Quiet.step {s : EventLoop} (h : Quiet s) {event : Event} (hallowed : event.Allowed s) :
    ∃ s', event.step s = some s' ∧ Quiet s' := by
  cases event with
  | call act =>
    obtain ⟨s', hstep, hbusy, htouches, -⟩ := act_spec h.busy hallowed
    exact ⟨s', hstep, hbusy, htouches.pendings.trans h.pendings,
      htouches.npendings.trans h.npendings⟩
  | pass now script =>
    obtain ⟨due, s', hstep, hquiet, -⟩ := pass_spec h hallowed
    exact ⟨s', hstep, hquiet⟩

theorem Quiet.run (events : List Event) {s : EventLoop} (h : Quiet s) (hlegal : LegalRun events s) :
    ∃ s', runEvents events s = some s' ∧ Quiet s' := by
  induction events generalizing s with
  | nil => exact ⟨s, rfl, h⟩
  | cons event events ih =>
    obtain ⟨s₁, hstep, hquiet₁⟩ := h.step hlegal.1
    obtain ⟨s', hrun, hquiet'⟩ := ih hquiet₁ (hlegal.2 s₁ hstep)
    refine ⟨s', ?_, hquiet'⟩
    rw [runEvents, List.foldlM_cons, hstep]
    exact hrun

/-- Any calls and passes, with callbacks that add, delete and reset timers: no freed timer is
touched, and between the passes the timers that are there are those of the heap, each of
them armed, and both counters are their number. -/
theorem timers_exact {events : List Event} (hlegal : LegalRun events initial) :
    ∃ s, runEvents events initial = some s ∧
      (∀ a, a ∈ s.tree.members ↔ (s.timers a).isSome) ∧
      (∀ a t, s.timers a = some t → t.destroy = false ∧ t.active = true ∧ t.pending = false) ∧
      (∀ r, s.tree.heap.root = some r → r ∈ s.tree.members ∧ ∀ a ∈ s.tree.members,
        s.tree.key r ≤ s.tree.key a) ∧
      s.ntimers = s.tree.members.card ∧ s.nactives = s.tree.members.card ∧ s.npendings = 0 := by
  obtain ⟨s, hrun, hquiet⟩ := initial_quiet.run events hlegal
  have hbusy := hquiet.busy
  have hidle : ∀ a t, s.timers a = some t → t.pending = false := fun a t ht =>
    Bool.eq_false_iff.mpr fun hp => (by cases hbusy.waits a t ht hp)
  have hmembers : ∀ a, a ∈ s.tree.members ↔ (s.timers a).isSome := by
    intro a
    constructor
    · intro ha
      obtain ⟨t, ht, -⟩ := hbusy.armed a ha
      exact Option.isSome_iff_exists.mpr ⟨t, ht⟩
    · intro hsome
      obtain ⟨t, ht⟩ := Option.isSome_iff_exists.mp hsome
      by_contra hout
      have hpending := (hbusy.spent a t ht hout).2
      rw [hidle a t ht] at hpending
      cases hpending
  have harmed : ∀ a t, s.timers a = some t → t.destroy = false ∧ t.active = true := by
    intro a t ht
    obtain ⟨t', ht', hboth⟩ := hbusy.armed a ((hmembers a).mpr (by rw [ht]; rfl))
    obtain rfl := Option.some.inj (ht.symm.trans ht')
    exact hboth
  refine ⟨s, hrun, hmembers, fun a t ht => ⟨(harmed a t ht).1, (harmed a t ht).2, hidle a t ht⟩,
    fun r hr => ?_,
    hbusy.ntimers, ?_, hquiet.npendings⟩
  · rcases hbusy.tree.root with ⟨-, -, hnone⟩ | ⟨r', hroot, -, hmem, hleast⟩
    · rw [hnone] at hr
      cases hr
    · obtain rfl := Option.some.inj (hroot.symm.trans hr)
      exact ⟨hmem, hleast⟩
  · obtain ⟨A, hA, hn⟩ := hbusy.nactives
    have hsame : A = s.tree.members := by
      ext a
      rw [hA a, hmembers a, Option.isSome_iff_exists]
      constructor
      · rintro ⟨t, ht, -⟩
        exact ⟨t, ht⟩
      · rintro ⟨t, ht⟩
        exact ⟨t, ht, (harmed a t ht).2⟩
    rw [hn, hsame]

/-- Callbacks that do nothing or start their own timer again. -/
theorem reset_legal {script : Nat → List Act} (later : Nat)
    (hscript : ∀ a, script a = [] ∨ script a = [.reset a later]) (w : List Nat) :
    ∀ s, LegalTurns script w s := by
  induction w with
  | nil => exact fun _ => trivial
  | cons a w ih =>
    intro s
    constructor
    · rintro ⟨t, ht, -⟩
      rcases hscript a with hnone | hreset
      · rw [hnone]
        trivial
      · rw [hreset]
        exact ⟨⟨t, ht⟩, fun _ _ => trivial⟩
    · exact fun s' _ => ih s'

/-- Timers of different addresses that are added at the start, each with its timeout and its
repeats. -/
def adding (l : List (Nat × Nat × Nat)) : List Event :=
  l.map fun x => .call (.add x.1 0 x.2.1 x.2.2)

theorem adding_legal (l : List (Nat × Nat × Nat)) (hapart : (l.map Prod.fst).Nodup) :
    ∀ {s : EventLoop}, Busy [] s → (∀ a ∈ l.map Prod.fst, s.timers a = none) →
    LegalRun (adding l) s := by
  induction l with
  | nil => exact fun _ _ => trivial
  | cons x l ih =>
    intro s hbusy hfree
    rw [List.map_cons, List.nodup_cons] at hapart
    have hnew : s.timers x.1 = none := hfree x.1 List.mem_cons_self
    refine ⟨hnew, fun s' hstep => ?_⟩
    obtain ⟨s₁, hadd, hbusy₁, htouches, -⟩ := add_spec hbusy hnew 0 x.2.1 x.2.2
    obtain rfl := Option.some.inj (hadd.symm.trans hstep)
    refine ih hapart.2 hbusy₁ fun b hb => ?_
    have hother : b ∉ [x.1] := fun hin => hapart.1 (List.mem_singleton.mp hin ▸ hb)
    rw [htouches.timers b hother]
    exact hfree b (List.mem_cons_of_mem _ hb)

/-- A timer that starts itself again in its callback. -/
theorem timers_exact_reset :
    ∃ s, runEvents [.call (.add 7 0 5 2), .pass 6000 fun a => [.reset a 6000]] initial = some s ∧
      (∀ a, a ∈ s.tree.members ↔ (s.timers a).isSome) ∧
      (∀ a t, s.timers a = some t → t.destroy = false ∧ t.active = true ∧ t.pending = false) ∧
      (∀ r, s.tree.heap.root = some r → r ∈ s.tree.members ∧ ∀ a ∈ s.tree.members,
        s.tree.key r ≤ s.tree.key a) ∧
      s.ntimers = s.tree.members.card ∧ s.nactives = s.tree.members.card ∧ s.npendings = 0 :=
  timers_exact
    ⟨rfl, fun _ _ =>
      ⟨fun _ w _ _ _ => reset_legal 6000 (fun _ => .inr rfl) w _, fun _ _ => trivial⟩⟩

/-- Any pass after any calls and passes: the callbacks of the timers that are due, the last
one first, and every other timer as it was. -/
theorem pass_exact {events : List Event} (hlegal : LegalRun events initial) {s : EventLoop}
    (hrun : runEvents events initial = some s) {now : Nat} {script : Nat → List Act}
    (hallowed : (Event.pass now script).Allowed s) :
    ∃ due s', processEvents now script s = some s' ∧ PassExact now script due s s' := by
  obtain ⟨s₀, hrun₀, hquiet⟩ := initial_quiet.run events hlegal
  obtain rfl := Option.some.inj (hrun.symm.trans hrun₀)
  obtain ⟨due, s', hpass, -, hexact⟩ := pass_spec hquiet hallowed
  exact ⟨due, s', hpass, hexact⟩

theorem add_legal (a : Nat) : LegalRun [.call (.add a 0 5 2)] initial := ⟨rfl, fun _ _ => trivial⟩

/-- One timer, 5 milliseconds from the start. -/
theorem add_seven : ∃ s, runEvents [.call (.add 7 0 5 2)] initial = some s ∧ 7 ∈ s.tree.members ∧
    s.tree.key 7 ≤ 6000 := by
  obtain ⟨h', hadd, -⟩ := add_eq initial_quiet.busy (a := 7) rfl 0 2 (show 5 ≠ 0 by decide)
  have hrun : runEvents [.call (.add 7 0 5 2)] initial = htimerAdd 7 0 5 2 initial := by
    rw [runEvents, List.foldlM_cons, Event.step, Act.step]
    exact Option.bind_fun_some _
  refine ⟨_, hrun.trans hadd, ?_, ?_⟩
  · exact Finset.mem_insert_self 7 _
  · show Function.update initial.tree.key 7 (0 + delay 5) 7 ≤ 6000
    rw [Function.update_self]
    decide

/-- Of three timers, one starts itself again in its callback, one fires for the last time, and
one is not due. -/
theorem pass_exact_three :
    ∃ s, runEvents (adding [(7, 5, 2), (8, 3, 1), (9, 50, 4)]) initial = some s ∧
      ∃ due s', processEvents 6000 (fun a => if a = 7 then [.reset a 6000] else []) s = some s' ∧
        PassExact 6000 (fun a => if a = 7 then [.reset a 6000] else []) due s s' := by
  have hlegal :=
    adding_legal [(7, 5, 2), (8, 3, 1), (9, 50, 4)] (by decide) initial_quiet.busy fun _ _ => rfl
  obtain ⟨s, hrun, -⟩ := initial_quiet.run _ hlegal
  refine ⟨s, hrun, pass_exact hlegal hrun fun _ w _ _ _ => reset_legal 6000 (fun a => ?_) w _⟩
  by_cases ha : a = 7
  · exact .inr (if_pos ha)
  · exact .inl (if_neg ha)

/-- A callback that resets its timer and then deletes it: the timer is in the list and not
pending, so it is freed at once, and the loop touches it behind the callback. -/
theorem visit_deleted {w : List Nat} {a : Nat} {s : EventLoop} (h : Busy (a :: w) s)
    (hready : Ready a s) (later : Nat) :
    visit (fun a => [.reset a later, .del a]) a s = none := by
  obtain ⟨t, ha, hpending, hactive⟩ := hready
  obtain ⟨s₁, hreset, hbusy₁, -, hself⟩ :=
    reset_spec (s := called a s) (Busy.marked h _ _ _) ha later
  have hmem : a ∈ s₁.tree.members := by
    by_contra hout
    cases (hbusy₁.spent a _ hself hout).1
  obtain ⟨h', hdel, -⟩ := del_idle hbusy₁.tree hself rfl rfl hmem rfl
  have hacts : runActs [.reset a later, .del a] (called a s) = some (s₁.set a none
      (setNode a none ⟨h', s₁.tree.key, s₁.tree.members.erase a⟩)
        (s₁.nactives - activeCount (rearmed t)) (s₁.ntimers - 1)) := by
    rw [runActs, List.foldlM_cons, Act.step, hreset]
    simp only [Option.bind_eq_bind, Option.bind_some, List.foldlM_cons,
      Act.step, hdel, List.foldlM_nil]
    rfl
  simp only [visit, ha, Option.bind_some, if_pos hpending, if_pos hactive]
  change ((runActs _ (called a s)).bind _) = _
  rw [hacts, Option.bind_some, set_self, Option.bind_none]

/-- So no pass with such callbacks gets to its end once a timer is due. -/
theorem reset_then_delete {events : List Event} (hlegal : LegalRun events initial) {s : EventLoop}
    (hrun : runEvents events initial = some s) {now : Nat}
    (hdue : ∃ a ∈ s.tree.members, s.tree.key a ≤ now) (later : Nat) :
    processEvents now (fun a => [.reset a later, .del a]) s = none := by
  obtain ⟨s₀, hrun₀, hquiet⟩ := initial_quiet.run events hlegal
  obtain rfl := Option.some.inj (hrun.symm.trans hrun₀)
  obtain ⟨a, hmem, hkey⟩ := hdue
  obtain ⟨p, s₁, hfirst, hpassed⟩ := hquiet.processTimers now
  have hready := hpassed.ready hquiet
  have hbusy := hpassed.busy
  have hhead := hpassed.pendings
  have hlength := hpassed.npendings
  rw [List.append_nil] at hbusy hhead hlength
  have hin : a ∈ p.reverse := List.mem_reverse.mpr ((hpassed.due a).mpr ⟨hmem, hkey⟩)
  rw [processEvents, hfirst, Option.bind_some, processPendings, hlength, hhead]
  cases hlist : p.reverse with
  | nil =>
    rw [hlist] at hin
    cases hin
  | cons b w =>
    rw [hlist] at hbusy hready
    obtain ⟨⟨t, hb, -⟩, -⟩ := hbusy.chain
    rw [List.length_cons, if_neg (Nat.succ_ne_zero _), List.head?_cons, pendingsLoop, hb,
      Option.bind_some,
      visit_deleted hbusy (hready b List.mem_cons_self) later]
    rfl

theorem reset_then_delete_seven :
    ∃ s, runEvents [.call (.add 7 0 5 2)] initial = some s ∧
      processEvents 6000 (fun a => [.reset a 6000, .del a]) s = none := by
  obtain ⟨s, hrun, hmem, hkey⟩ := add_seven
  exact ⟨s, hrun, reset_then_delete (add_legal 7) hrun ⟨7, hmem, hkey⟩ 6000⟩

end NetmtTimerPasses
