import Netmt.ThreadMachine

/-!
# The machine stays sound

Every operation keeps the timers in order, the sets of descriptors those of the tasks that wait
for them, and each node on one list. Fetching rests on it: the first timer is the one to look at.
-/
namespace NetmtThreadSound

open Links Shelves NetmtThread NetmtThreadLists NetmtThreadMachine

variable {φ α : Type}

section Steps

variable {m : ThreadMaster φ α} {T : Tasks φ α}

theorem clearFd_lists (l : ListName) (u : Payload) (T : Tasks φ α) :
    (clearFd l u T).lists = T.lists := by
  cases l <;> cases u <;> rfl

theorem clearFd_alloc (l : ListName) (u : Payload) (T : Tasks φ α) :
    (clearFd l u T).alloc = T.alloc := by
  cases l <;> cases u <;> rfl

theorem clearFd_other {l l' : ListName} (hne : l' ≠ l) (u : Payload) (T : Tasks φ α) :
    (clearFd l u T).fds l' = T.fds l' := by
  cases l <;> cases u <;> first | rfl | exact Function.update_of_ne hne _ _

theorem clearFd_self {l : ListName} (hl : Watched l) {u : Payload} {fd : Nat} (hu : u = .fd fd)
    (T : Tasks φ α) :
    (clearFd l u T).fds l = Function.update (T.fds l) fd false := by
  subst hu
  rcases hl with rfl | rfl
  · exact Function.update_self ListName.read _ T.fds
  · exact Function.update_self ListName.write _ T.fds

theorem not_watched_unuse : ¬ Watched .unuse := by
  rintro (h | h) <;> cases h

theorem fits_unused (x : Thread φ α) : Fits .unuse (unused x) := by
  refine ⟨rfl, fun hl => absurd hl not_watched_unuse, fun hl => ?_⟩
  cases hl

/-- A task leaves its list, and its node is kept for later. -/
theorem sound_out (hT : Sound T) {l : ListName} (hl : l ≠ .unuse) {pre post : List (Cell φ α)}
    {c : Cell φ α} (hcells : T.lists l = pre ++ c :: post) :
    Sound (recycle c ((clearFd l c.2.u T).put l (pre ++ post))) := by
  have hsub : (pre ++ post).Sublist (T.lists l) := by
    rw [hcells]
    exact (List.Sublist.refl pre).append (List.sublist_cons_self c post)
  have hunuse : (recycle c ((clearFd l c.2.u T).put l (pre ++ post))).lists .unuse =
      T.lists .unuse ++ [(c.1, unused c.2)] := by
    rw [recycle, put_self, put_other hl.symm, clearFd_lists]
  have hother : ∀ l', l' ≠ .unuse →
      (recycle c ((clearFd l c.2.u T).put l (pre ++ post))).lists l' = if l' = l then pre ++ post
        else T.lists l' := by
    intro l' hne
    rw [recycle, put_other hne]
    by_cases heq : l' = l
    · subst heq
      rw [put_self, if_pos rfl]
    · rw [put_other heq, if_neg heq, clearFd_lists]
  have hlists : ∀ l', l' ≠ .unuse →
      ((recycle c ((clearFd l c.2.u T).put l (pre ++ post))).lists l').Sublist (T.lists l') := by
    intro l' hne
    have hsame := hother l' hne
    by_cases heq : l' = l
    · subst heq
      rw [if_pos rfl] at hsame
      rw [hsame]
      exact hsub
    · rw [if_neg heq] at hsame
      exact hsame ▸ List.Sublist.refl _
  have hin : ∀ l', Watched l' → l' ≠ .unuse := by
    rintro l' hw rfl
    exact not_watched_unuse hw
  refine ⟨fun l' d hd => ?_, ?_, fun l' hw => ?_, fun l' hw fd => ?_, ?_⟩
  · by_cases hne : l' = .unuse
    · subst hne
      rw [hunuse] at hd
      cases List.mem_append.mp hd with
      | inl hold => exact hT.fits .unuse d hold
      | inr hnew =>
        rw [List.mem_singleton.mp hnew]
        exact fits_unused c.2
    · exact hT.fits l' d ((hlists l' hne).subset hd)
  · exact hT.sorted.sublist (hlists .timer (by decide))
  · exact (hT.once l' hw).sublist ((hlists l' (hin l' hw)).map _)
  · have hfds : (recycle c ((clearFd l c.2.u T).put l (pre ++ post))).fds =
        (clearFd l c.2.u T).fds := rfl
    rw [hother l' (hin l' hw), hfds]
    by_cases heq : l' = l
    · subst heq
      obtain ⟨fd₀, hu⟩ := (hT.fits l' c (by rw [hcells]; simp)).fd hw
      rw [if_pos rfl, clearFd_self hw hu]
      have honce := hT.once l' hw
      rw [hcells, List.map_append, List.map_cons, List.nodup_middle, List.nodup_cons] at honce
      have hapart : ∀ d ∈ pre ++ post, d.2.u ≠ .fd fd₀ := by
        intro d hd heq
        refine honce.1 ?_
        rw [← List.map_append]
        exact List.mem_map.mpr ⟨d, hd, heq.trans hu.symm⟩
      by_cases hfd : fd = fd₀
      · subst hfd
        rw [Function.update_self]
        refine iff_of_false Bool.false_ne_true ?_
        rintro ⟨d, hd, heq⟩
        exact hapart d hd heq
      · rw [Function.update_of_ne hfd, hT.watched l' hw fd, hcells]
        constructor
        · rintro ⟨d, hd, hdu⟩
          refine ⟨d, ?_, hdu⟩
          rw [List.mem_append, List.mem_cons] at hd
          rw [List.mem_append]
          rcases hd with hd | rfl | hd
          · exact .inl hd
          · rw [hu] at hdu
            exact absurd (Payload.fd.inj hdu).symm hfd
          · exact .inr hd
        · rintro ⟨d, hd, hdu⟩
          refine ⟨d, ?_, hdu⟩
          rw [List.mem_append, List.mem_cons]
          exact (List.mem_append.mp hd).imp_right .inr
    · rw [if_neg heq, clearFd_other heq]
      exact hT.watched l' hw fd
  · have hfirst := total_put l (pre ++ post) (clearFd l c.2.u T)
    have hsecond :=
      total_put .unuse (T.lists .unuse ++ [(c.1, unused c.2)])
        ((clearFd l c.2.u T).put l (pre ++ post))
    have htotal : total (clearFd l c.2.u T) = total T := by
      rw [total, clearFd_lists, total]
    have halloc : (recycle c ((clearFd l c.2.u T).put l (pre ++ post))).alloc = T.alloc :=
      clearFd_alloc l c.2.u T
    have hrecycle : recycle c ((clearFd l c.2.u T).put l (pre ++ post)) =
        ((clearFd l c.2.u T).put l (pre ++ post)).put .unuse
          (T.lists .unuse ++ [(c.1, unused c.2)]) := by
      rw [recycle, put_other hl.symm, clearFd_lists]
    rw [put_other hl.symm, clearFd_lists] at hsecond
    rw [clearFd_lists, hcells, htotal] at hfirst
    rw [halloc, hrecycle, ← hT.filled]
    simp only [List.length_append, List.length_cons, List.length_nil] at hfirst hsecond
    omega

/-- The node that is taken leaves one place free. -/
theorem total_take (hT : Sound T) : total T.take.2 + 1 = T.take.2.alloc := by
  have hfilled := hT.filled
  rw [Tasks.take]
  split
  · exact congrArg (· + 1) hfilled
  · next c cells hunuse =>
    have hput := total_put .unuse cells T
    rw [hunuse, List.length_cons] at hput
    change total (T.put .unuse cells) + 1 = T.alloc
    omega

theorem take_unuse (T : Tasks φ α) : (T.take.2.lists .unuse).Sublist (T.lists .unuse) := by
  rw [Tasks.take]
  split
  · exact List.Sublist.refl _
  · next c cells hunuse =>
    rw [put_self, hunuse]
    exact List.sublist_cons_self c cells

/-- A task comes onto a list; `fds` are the sets behind it. -/
theorem sound_in (hT : Sound T) {l : ListName} (hl : l ≠ .unuse) {x : Thread φ α} (hx : Fits l x)
    {pre post : List (Cell φ α)} (hcells : T.lists l = pre ++ post)
    (hsorted : l = .timer → (∀ c ∈ pre, micros (time c.2) ≤ micros (time x)) ∧ ∀ c ∈ post,
      micros (time x) ≤ micros (time c.2))
    (honce : Watched l → ∀ c ∈ T.lists l, c.2.u ≠ x.u) {fds : ListName → Nat → Bool}
    (hfds : ∀ l', Watched l' → ∀ fd, fds l' fd = true ↔ T.fds l' fd = true ∨
      l' = l ∧ x.u = .fd fd) :
    Sound { addAt l pre post x T with fds := fds } := by
  have hself : (addAt l pre post x T).lists l = pre ++ (T.take.1, x) :: post := put_self _ _ _
  have hother : ∀ l', l' ≠ l → l' ≠ .unuse → (addAt l pre post x T).lists l' = T.lists l' := by
    intro l' hne hused
    rw [addAt, put_other hne, take_lists T hused]
  have hmem : ∀ c, c ∈ pre ++ (T.take.1, x) :: post ↔ c ∈ T.lists l ∨ c = (T.take.1, x) := by
    intro c
    rw [hcells, List.mem_append, List.mem_append, List.mem_cons]
    constructor
    · rintro (hc | hc | hc)
      · exact .inl (.inl hc)
      · exact .inr hc
      · exact .inl (.inr hc)
    · rintro ((hc | hc) | hc)
      · exact .inl hc
      · exact .inr (.inr hc)
      · exact .inr (.inl hc)
  have hin : ∀ l', Watched l' → l' ≠ .unuse := by
    rintro l' hw rfl
    exact not_watched_unuse hw
  refine ⟨fun l' c hc => ?_, ?_, fun l' hw => ?_, fun l' hw fd => ?_, ?_⟩
  · by_cases heq : l' = l
    · subst heq
      cases (hmem c).mp (hself ▸ hc) with
      | inl hold => exact hT.fits l' c hold
      | inr hnew =>
        rw [hnew]
        exact hx
    · by_cases hused : l' = .unuse
      · subst hused
        have hc' : c ∈ (addAt l pre post x T).lists .unuse := hc
        rw [addAt, put_other heq] at hc'
        exact hT.fits .unuse c ((take_unuse T).subset hc')
      · exact hT.fits l' c (hother l' heq hused ▸ hc)
  · change ((addAt l pre post x T).lists .timer).Pairwise _
    by_cases heq : l = .timer
    · subst heq
      obtain ⟨hbefore, hbehind⟩ := hsorted rfl
      have hold := hT.sorted
      rw [hcells, List.pairwise_append] at hold
      rw [hself, List.pairwise_append, List.pairwise_cons]
      refine ⟨hold.1, ⟨hbehind, hold.2.1⟩, fun c hc d hd => ?_⟩
      cases List.mem_cons.mp hd with
      | inl hnew =>
        rw [hnew]
        exact hbefore c hc
      | inr hd => exact hold.2.2 c hc d hd
    · rw [hother .timer (Ne.symm heq) (by decide)]
      exact hT.sorted
  · change (((addAt l pre post x T).lists l').map _).Nodup
    by_cases heq : l' = l
    · subst heq
      have hold := hT.once l' hw
      rw [hcells, List.map_append] at hold
      rw [hself, List.map_append, List.map_cons, List.nodup_middle, List.nodup_cons]
      refine ⟨fun hin => ?_, hold⟩
      rw [← List.map_append, ← hcells] at hin
      obtain ⟨c, hc, heq⟩ := List.mem_map.mp hin
      exact honce hw c hc heq
    · rw [hother l' heq (hin l' hw)]
      exact hT.once l' hw
  · change fds l' fd = true ↔ ∃ c ∈ (addAt l pre post x T).lists l', c.2.u = .fd fd
    rw [hfds l' hw fd, hT.watched l' hw fd]
    by_cases heq : l' = l
    · subst heq
      rw [hself]
      constructor
      · rintro (⟨c, hc, hu⟩ | ⟨-, hu⟩)
        · exact ⟨c, (hmem c).mpr (.inl hc), hu⟩
        · exact ⟨_, (hmem _).mpr (.inr rfl), hu⟩
      · rintro ⟨c, hc, hu⟩
        cases (hmem c).mp hc with
        | inl hold => exact .inl ⟨c, hold, hu⟩
        | inr hnew =>
          rw [hnew] at hu
          exact .inr ⟨rfl, hu⟩
    · rw [hother l' heq (hin l' hw)]
      exact or_iff_left fun hboth => heq hboth.1
  · change total (addAt l pre post x T) = T.take.2.alloc
    have hput := total_put l (pre ++ (T.take.1, x) :: post) T.take.2
    have htake := total_take hT
    rw [take_lists T hl, hcells, List.length_append, List.length_append, List.length_cons] at hput
    rw [addAt]
    omega

theorem wake_other {l k : ListName} (hne : k ≠ l) (hready : k ≠ .ready) (fdset : Nat → Bool)
    (T : Tasks φ α) :
    (wake l fdset T).lists k = T.lists k := by
  rw [wake]
  exact (Function.update_of_ne hready _ _).trans (Function.update_of_ne hne _ _)

theorem wake_self {l : ListName} (hl : Watched l) (fdset : Nat → Bool) (T : Tasks φ α) :
    (wake l fdset T).lists l = (T.lists l).filter fun c => !wakes fdset c := by
  have hready : l ≠ .ready := by rcases hl with rfl | rfl <;> decide
  rw [wake]
  exact (Function.update_of_ne hready _ _).trans (Function.update_self ..)

theorem wake_ready (l : ListName) (fdset : Nat → Bool) (T : Tasks φ α) :
    (wake l fdset T).lists .ready = T.lists .ready ++
      ((T.lists l).filter (wakes fdset)).map readied := by
  simp only [wake, Function.update_self]

theorem sound_wake (hT : Sound T) {l : ListName} (hl : Watched l) (fdset : Nat → Bool) :
    Sound (wake l fdset T) := by
  have hready : ∀ l', Watched l' → l' ≠ .ready := by
    rintro l' (rfl | rfl) <;> decide
  refine ⟨fun l' c hc => ?_, ?_, fun l' hw => ?_, fun l' hw fd => ?_, ?_⟩
  · by_cases hr : l' = .ready
    · subst hr
      rw [wake_ready] at hc
      cases List.mem_append.mp hc with
      | inl hold => exact hT.fits .ready c hold
      | inr hnew =>
        obtain ⟨d, -, rfl⟩ := List.mem_map.mp hnew
        exact ⟨rfl, fun hw => absurd rfl (hready .ready hw), fun heq => by cases heq⟩
    · by_cases heq : l' = l
      · subst heq
        rw [wake_self hl] at hc
        exact hT.fits l' c (List.mem_filter.mp hc).1
      · rw [wake_other heq hr] at hc
        exact hT.fits l' c hc
  · rw [wake_other (by rcases hl with rfl | rfl <;> decide) (by decide)]
    exact hT.sorted
  · by_cases heq : l' = l
    · subst heq
      rw [wake_self hl]
      exact (hT.once l' hl).sublist (List.filter_sublist.map _)
    · rw [wake_other heq (hready l' hw)]
      exact hT.once l' hw
  · by_cases heq : l' = l
    · subst heq
      have hfds : (wake l' fdset T).fds l' = fun fd => T.fds l' fd && !fdset fd :=
        Function.update_self ..
      rw [hfds, wake_self hl, Bool.and_eq_true, hT.watched l' hl fd]
      constructor
      · rintro ⟨⟨c, hc, hu⟩, hset⟩
        exact ⟨c, List.mem_filter.mpr ⟨hc, by rwa [wakes_fd hu]⟩, hu⟩
      · rintro ⟨c, hc, hu⟩
        obtain ⟨hc, hset⟩ := List.mem_filter.mp hc
        rw [wakes_fd hu] at hset
        exact ⟨⟨c, hc, hu⟩, hset⟩
    · have hfds : (wake l fdset T).fds l' = T.fds l' := Function.update_of_ne heq _ _
      rw [hfds, wake_other heq (hready l' hw)]
      exact hT.watched l' hw fd
  · have hlen : (T.lists l).length = ((T.lists l).filter (wakes fdset)).length +
        ((T.lists l).filter fun c => !wakes fdset c).length := List.length_eq_length_filter_add _
    have hself := congrArg List.length (wake_self hl fdset T)
    have hmoved := congrArg List.length (wake_ready l fdset T)
    have halloc : (wake l fdset T).alloc = T.alloc := rfl
    rw [List.length_append, List.length_map] at hmoved
    rw [halloc, ← hT.filled, total, total]
    rcases hl with rfl | rfl
    · rw [wake_other (k := .write) (by decide) (by decide),
        wake_other (k := .timer) (by decide) (by decide),
        wake_other (k := .event) (by decide) (by decide),
        wake_other (k := .unuse) (by decide) (by decide)]
      omega
    · rw [wake_other (k := .read) (by decide) (by decide),
        wake_other (k := .timer) (by decide) (by decide),
        wake_other (k := .event) (by decide) (by decide),
        wake_other (k := .unuse) (by decide) (by decide)]
      omega

theorem sound_cancelEvents [DecidableEq α] (hT : Sound T) (arg : α) :
    Sound (cancelEvents arg T) := by
  have hevent : (cancelEvents arg T).lists .event = (T.lists .event).filter fun c =>
      c.2.arg ≠ arg :=
    (put_other (by decide) _ _).trans (put_self _ _ _)
  have hunuse : (cancelEvents arg T).lists .unuse = T.lists .unuse ++
      ((T.lists .event).filter fun c => c.2.arg = arg).map fun c => (c.1, unused c.2) :=
        put_self _ _ _
  have hother : ∀ l, l ≠ .event → l ≠ .unuse → (cancelEvents arg T).lists l = T.lists l :=
    fun l he hu => (put_other hu _ _).trans (put_other he _ _)
  have hplain : ∀ l, Watched l → (cancelEvents arg T).lists l = T.lists l := by
    rintro l (rfl | rfl) <;> exact hother _ (by decide) (by decide)
  refine ⟨fun l c hc => ?_, ?_, fun l hw => ?_, fun l hw fd => ?_, ?_⟩
  · by_cases he : l = .event
    · subst he
      rw [hevent] at hc
      exact hT.fits .event c (List.mem_filter.mp hc).1
    · by_cases hu : l = .unuse
      · subst hu
        rw [hunuse] at hc
        cases List.mem_append.mp hc with
        | inl hold => exact hT.fits .unuse c hold
        | inr hnew =>
          obtain ⟨d, -, rfl⟩ := List.mem_map.mp hnew
          exact fits_unused d.2
      · exact hT.fits l c (hother l he hu ▸ hc)
  · rw [hother .timer (by decide) (by decide)]
    exact hT.sorted
  · rw [hplain l hw]
    exact hT.once l hw
  · rw [hplain l hw]
    exact hT.watched l hw fd
  · have hlen := List.length_eq_length_filter_add (l := T.lists .event) fun c => c.2.arg = arg
    have hleft := congrArg List.length hevent
    have hkept := congrArg List.length hunuse
    have halloc : (cancelEvents arg T).alloc = T.alloc := rfl
    rw [List.length_append, List.length_map] at hkept
    simp only [ne_eq, decide_not] at hleft
    rw [halloc, ← hT.filled, total, total, hother .read (by decide) (by decide),
      hother .write (by decide) (by decide),
      hother .timer (by decide) (by decide), hother .ready (by decide) (by decide)]
    omega

/-! ## Tasks are handed out -/

theorem front_eq {l : ListName} {r : ListName × Cell φ α × List (Cell φ α)}
    (h : front l T = some r) :
    r.1 = l ∧ T.lists l = r.2.1 :: r.2.2 := by
  rw [front] at h
  split at h
  · cases h
  · next c cells hcells =>
    obtain rfl : (l, c, cells) = r := Option.some.inj h
    exact ⟨rfl, hcells⟩

theorem front_none {l : ListName} : front l T = none ↔ T.lists l = [] := by
  rw [front]
  split
  · next hcells => exact iff_of_true rfl hcells
  · next c cells hcells =>
    rw [hcells]
    exact iff_of_false (Option.some_ne_none _) (List.cons_ne_nil _ _)

/-- The list that a task is handed out from. -/
def Running (l : ListName) : Prop := l = .event ∨ l = .timer ∨ l = .ready

theorem Running.clear {l : ListName} (h : Running l) (u : Payload) (T : Tasks φ α) :
    clearFd l u T = T := by
  rcases h with rfl | rfl | rfl <;> rfl

theorem Running.ne {l : ListName} (h : Running l) : l ≠ .unuse := by
  rcases h with rfl | rfl | rfl <;> decide

theorem sound_handOut (hT : Sound T) {r : ListName × Cell φ α × List (Cell φ α)} (hr : Running r.1)
    (hcells : T.lists r.1 = r.2.1 :: r.2.2) : Sound (handOut r T).2 := by
  have hout := sound_out hT hr.ne (hcells.trans (List.nil_append _).symm)
  rwa [hr.clear] at hout

/-- The first node of a list is run. -/
theorem front_run (h : Holds m T) {l : ListName} {r : ListName × Cell φ α × List (Cell φ α)}
    (hr : front l T = some r) :
    ∃ m₁ m', threadTrimHead l m = some (some r.2.1.1, m₁) ∧
    runTask r.2.1.1 m₁ = some ((handOut r T).1, m') ∧
      Holds m' (handOut r T).2 := by
  obtain ⟨hl, hcells⟩ := front_eq hr
  obtain ⟨m₁, htrim, h₁, hp₁⟩ := trimHead_holds h hcells
  obtain ⟨m', hrun, h'⟩ := hp₁.run h₁
  rw [handOut, hl]
  exact ⟨m₁, m', htrim, hrun, h'⟩

/-- The first timer is due, or none is. -/
theorem due_timer (h : Holds m T) (hT : Sound T) {now : Timeval} (hnow : InRange now) :
    findTimer (fun t => timevalCmp now t ≥ 0) m.heap (m.heap.length + 1) (m.lists .timer).head =
      some (((front .timer T).filter fun r => micros (time r.2.1.2) ≤ micros now).map fun r =>
        r.2.1.1) := by
  have hgo : ∀ c ∈ T.lists .timer, ∃ t, c.2.u = .sands t ∧
      decide (timevalCmp now t ≥ 0) = !decide (micros now < micros (time c.2)) := by
    intro c hc
    refine ⟨time c.2, (hT.fits _ c hc).time_eq.1, ?_⟩
    rw [← decide_not, decide_eq_decide, timevalCmp_nonneg hnow (hT.fits _ c hc).time_eq.2]
    exact Int.not_lt.symm
  rw [timer_head h, findTimer_holds (fun t => timevalCmp now t ≥ 0)
    (fun c => micros now < micros (time c.2))
    (h.shelves.segment .timer) (Nat.le_succ_of_le (h.length_le .timer)) hgo, front]
  have hsorted := hT.sorted
  cases hcells : T.lists .timer with
  | nil => rfl
  | cons c cells =>
    rw [hcells, List.pairwise_cons] at hsorted
    by_cases hdue : micros (time c.2) ≤ micros now
    · rw [List.dropWhile_cons_of_neg (by simpa using hdue)]
      simp [first, Option.filter, hdue]
    · -- those behind it come later
      have hlate : ∀ d ∈ c :: cells, decide (micros now < micros (time d.2)) = true := by
        intro d hd
        refine decide_eq_true ?_
        cases List.mem_cons.mp hd with
        | inl heq =>
          rw [heq]
          omega
        | inr hd =>
          have hle := hsorted.1 d hd
          omega
      rw [List.dropWhile_eq_nil_iff.mpr hlate]
      simp [first, Option.filter, hdue]

theorem fetch_holds (rounds : List Round) (hrounds : ∀ round ∈ rounds, InRange round.now)
    (h : Holds m T) (hT : Sound T) :
    ∃ m', threadFetch rounds m = some ((fetch rounds T).1, m') ∧ Holds m' (fetch rounds T).2 ∧
    Sound (fetch rounds T).2 := by
  induction rounds generalizing m T with
  | nil => exact ⟨m, rfl, h, hT⟩
  | cons round rounds ih =>
    have hnow := hrounds round List.mem_cons_self
    have hrest := fun r hr => hrounds r (List.mem_cons_of_mem round hr)
    rw [threadFetch, fetch, next]
    cases hevent : front .event T with
    | some r =>
      obtain ⟨m₁, m', htrim, hrun, h'⟩ := front_run h hevent
      obtain ⟨hl, hcells⟩ := front_eq hevent
      rw [htrim]
      exact ⟨m', hrun, h', sound_handOut hT (.inl hl) (hl.symm ▸ hcells)⟩
    | none =>
      rw [trimHead_nil h (front_none.mp hevent), due_timer h hT hnow]
      cases htimer : (front .timer T).filter fun r => micros (time r.2.1.2) ≤ micros round.now with
      | some r =>
        obtain ⟨hfront, -⟩ := Option.filter_eq_some_iff.mp htimer
        obtain ⟨hl, hcells⟩ := front_eq hfront
        obtain ⟨m₁, hdelete, h₁, hp₁⟩ := listDelete_holds h (hcells.trans (List.nil_append _).symm)
        obtain ⟨m', hrun, h'⟩ := hp₁.run h₁
        have hout : (handOut r T) = (.task r.2.1.2, recycle r.2.1 (T.put .timer r.2.2)) := by
          rw [handOut, hl]
        refine ⟨m', ?_, ?_, sound_handOut hT (.inr (.inl hl)) (hl.symm ▸ hcells)⟩
        · simp only [Option.bind_some, Option.map_some, Option.none_or,
            Option.some_or, hdelete, hrun, hout]
        · simp only [Option.none_or, Option.some_or, hout]
          exact h'
      | none =>
        cases hready : front .ready T with
        | some r =>
          obtain ⟨m₁, m', htrim, hrun, h'⟩ := front_run h hready
          obtain ⟨hl, hcells⟩ := front_eq hready
          refine ⟨m', ?_, h', sound_handOut hT (.inr (.inr hl)) (hl.symm ▸ hcells)⟩
          simp only [Option.bind_some, Option.map_none, htrim]
          exact hrun
        | none =>
          simp only [Option.bind_some, Option.map_none,
            trimHead_nil h (front_none.mp hready), Option.none_or]
          cases hanswer : round.answer with
          | timeout => exact ih hrest h hT
          | interrupted => exact ih hrest h hT
          | failed => exact ⟨m, rfl, h, hT⟩
          | ready readfd writefd =>
            obtain ⟨m₁, hread, h₁⟩ := processFd_holds h hT (.inl rfl) readfd
            have hT₁ := sound_wake hT (.inl rfl) readfd
            obtain ⟨m₂, hwrite, h₂⟩ := processFd_holds h₁ hT₁ (.inr rfl) writefd
            have hT₂ := sound_wake hT₁ (.inr rfl) writefd
            simp only [hread, hwrite, Option.bind_some]
            cases hwoken : front .ready (wake .write writefd (wake .read readfd T)) with
            | some r =>
              obtain ⟨m₃, m', htrim, hrun, h'⟩ := front_run h₂ hwoken
              obtain ⟨hl, hcells⟩ := front_eq hwoken
              refine ⟨m', ?_, h', sound_handOut hT₂ (.inr (.inr hl)) (hl.symm ▸ hcells)⟩
              simp only [htrim, Option.bind_some]
              exact hrun
            | none =>
              simp only [trimHead_nil h₂ (front_none.mp hwoken), Option.bind_some]
              exact ih hrest h₂ hT₂

end Steps

end NetmtThreadSound
