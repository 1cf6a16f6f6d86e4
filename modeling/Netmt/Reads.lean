import Netmt.TcpRecv

/-!
# Successive reads

The callback is called once for each read of a connection. A run over the reads
keeps, for every call, what was dispatched, how the call ended, and the value
`bytelen` was left with.
-/
namespace NetmtReads

open NetmtCommand NetmtTcpRecv

structure Call where
  dispatched : List Dispatch
  exit : Exit
  bytelen : Int

/-- The frames a call dispatched. -/
def Call.frames (c : Call) : List (List UInt8) := c.dispatched.map Dispatch.comm

/-- `bytelen` stayed within `databuf` all through the call. -/
def Call.Bounded (c : Call) : Prop :=
  c.bytelen ≤ DATABUF ∧ ∀ d ∈ c.dispatched, d.bytelen ≤ DATABUF

structure Run (σ : Type) where
  rx : Rx
  state : σ
  calls : List Call

def Run.after {σ : Type} (c : Call) (r : Run σ) : Run σ := { r with calls := c :: r.calls }

@[simp] theorem Run.after_rx {σ : Type} (c : Call) (r : Run σ) : (r.after c).rx = r.rx := rfl
@[simp] theorem Run.after_state {σ : Type} (c : Call) (r : Run σ) :
    (r.after c).state = r.state := rfl
@[simp] theorem Run.after_calls {σ : Type} (c : Call) (r : Run σ) :
    (r.after c).calls = c :: r.calls := rfl

/-- The process is still there after the call. -/
def returns : Exit → Bool
  | .done => true
  | .leave => true
  | _ => false

def callOf {σ : Type} (res : Result σ) : Call := ⟨res.dispatched, res.exit, res.rx.bytelen⟩

theorem callOf_exit {σ : Type} (res : Result σ) : (callOf res).exit = res.exit := rfl

/-- One call of `tcp_recv` for each read. -/
def recvAll {σ : Type} (handle : Handler σ) (enter : σ → σ) :
    List (List UInt8) → Rx → σ → Run σ
  | [], rx, s => ⟨rx, s, []⟩
  | r :: rs, rx, s =>
    let res := tcpRecv handle enter r rx s
    if returns res.exit then (recvAll handle enter rs res.rx res.state).after (callOf res)
    else ⟨res.rx, res.state, [callOf res]⟩

theorem recvAll_returns {σ : Type} {handle : Handler σ} {enter : σ → σ} {r : List UInt8}
    (rs : List (List UInt8)) {rx : Rx} {s : σ} {res : Result σ}
    (h : tcpRecv handle enter r rx s = res) (he : returns res.exit = true) :
    recvAll handle enter (r :: rs) rx s =
      (recvAll handle enter rs res.rx res.state).after (callOf res) := by
  simp only [recvAll, h, he, if_true]

theorem callOf_mem {σ : Type} {handle : Handler σ} {enter : σ → σ} {r : List UInt8}
    (rs : List (List UInt8)) {rx : Rx} {s : σ} {res : Result σ}
    (h : tcpRecv handle enter r rx s = res) :
    callOf res ∈ (recvAll handle enter (r :: rs) rx s).calls := by
  simp only [recvAll, h]
  split
  · exact List.mem_cons_self
  · exact List.mem_singleton_self _

/-- What a call allocates for itself may as well be there before it. -/
theorem tcpRecv_enter {σ : Type} (handle : Handler σ) {enter : σ → σ}
    (hidem : ∀ s, enter (enter s) = enter s) (buf : List UInt8) (rx : Rx) (s : σ) :
    tcpRecv handle enter buf rx (enter s) = tcpRecv handle enter buf rx s ∨
      ∃ rx' dispatched exit, tcpRecv handle enter buf rx s = ⟨rx', s, dispatched, exit⟩ ∧
        tcpRecv handle enter buf rx (enter s) = ⟨rx', enter s, dispatched, exit⟩ := by
  simp only [tcpRecv]
  cases append buf rx with
  | none => exact .inr ⟨_, _, _, rfl, rfl⟩
  | some rx' =>
    simp only
    cases rx'.databuf.loadI32 0 with
    | none => exact .inr ⟨_, _, _, rfl, rfl⟩
    | some len =>
      simp only
      by_cases hlen : len > rx'.bytelen
      · exact .inr ⟨rx', [], .done, by rw [if_pos hlen], by rw [if_pos hlen]⟩
      · rw [if_neg hlen, if_neg hlen, hidem]
        exact .inl rfl

theorem recvAll_enter {σ : Type} (handle : Handler σ) {enter : σ → σ}
    (hidem : ∀ s, enter (enter s) = enter s) (reads : List (List UInt8)) (rx : Rx) (s : σ) :
    (recvAll handle enter reads rx s).state = (recvAll handle enter reads rx (enter s)).state ∨
      ((recvAll handle enter reads rx s).state = s ∧
        (recvAll handle enter reads rx (enter s)).state = enter s) := by
  induction reads generalizing rx with
  | nil => exact .inr ⟨rfl, rfl⟩
  | cons r reads ih =>
    simp only [recvAll]
    rcases tcpRecv_enter handle hidem r rx s with heq | ⟨rx', dispatched, exit, hs, hes⟩
    · rw [heq]
      exact .inl rfl
    · rw [hs, hes]
      split
      · exact ih rx'
      · exact .inr ⟨rfl, rfl⟩

/-- A cut of a framed stream: whole frames before it, and the front part of the
frame that it goes through. -/
theorem stream_cut (fs : List Frame) (hfs : ∀ f ∈ fs, WellSized f) (q : List UInt8)
    (hq : Partial q) (u v : List UInt8) (h : u ++ v = stream fs ++ q) :
    ∃ fs₁ fs₂ q₁, fs = fs₁ ++ fs₂ ∧ Partial q₁ ∧ u = stream fs₁ ++ q₁ ∧
      q₁ ++ v = stream fs₂ ++ q := by
  induction fs generalizing u with
  | nil =>
    obtain ⟨hlt, f, hf, hpre⟩ := hq
    rw [stream_nil, List.nil_append] at h
    have hu : u <+: q := ⟨v, h⟩
    exact ⟨[], [], u, rfl, ⟨lt_of_le_of_lt hu.length_le hlt, f, hf, hu.trans hpre⟩, rfl, h⟩
  | cons f fs ih =>
    rw [stream_cons, List.append_assoc] at h
    rcases List.append_eq_append_iff.mp h with ⟨w, hw, hv⟩ | ⟨w, hu, hw⟩
    · by_cases hz : w = []
      · subst hz
        rw [List.append_nil] at hw
        refine ⟨[f], fs, [], rfl, partial_nil, by simp [hw], ?_⟩
        rw [List.nil_append] at hv ⊢
        exact hv
      · refine ⟨[], f :: fs, u, rfl, ⟨?_, f, hfs f (by simp), ⟨w, hw.symm⟩⟩, rfl, ?_⟩
        · have hlen := congrArg List.length hw
          have hpos := List.length_pos_iff.mpr hz
          rw [f.length_bytes, List.length_append] at hlen
          omega
        · rw [stream_cons, List.append_assoc]
          exact h
    · obtain ⟨fs₁, fs₂, q₁, hsplit, hp, he, hr⟩ := ih (fun g hg => hfs g (by simp [hg])) w hw.symm
      refine ⟨f :: fs₁, fs₂, q₁, by rw [hsplit, List.cons_append], hp, ?_, hr⟩
      rw [hu, he, stream_cons, List.append_assoc]

theorem blocks_stream (fs : List Frame) (q : List UInt8) (hq : Partial q) :
    Framing.blocks 5168 (stream fs ++ q) = fs.map Region.bytes := by
  apply Framing.blocks_eq (by decide) _ _ _ hq.1
  intro b hb
  obtain ⟨f, -, rfl⟩ := List.mem_map.mp hb
  exact f.length_bytes

theorem rest_stream (fs : List Frame) (q : List UInt8) (hq : Partial q) :
    Framing.rest 5168 (stream fs ++ q) = q := by
  apply Framing.rest_eq (by decide) _ _ _ hq.1
  intro b hb
  obtain ⟨f, -, rfl⟩ := List.mem_map.mp hb
  exact f.length_bytes

/-- A run over reads in which every frame was handled to its end. -/
structure Received {σ : Type} (p : List UInt8) (reads : List (List UInt8)) (q : List UInt8)
    (run : Run σ) : Prop where
  done : ∀ c ∈ run.calls, c.exit = .done
  frames : run.calls.map Call.frames = Framing.received 5168 p reads
  bounded : ∀ c ∈ run.calls, c.Bounded
  holds : Holds run.rx q

theorem callOf_frames {σ : Type} {res : Result σ} {k : Nat} {fs : List Frame}
    (hd : res.dispatched = dispatches k 0 fs) : (callOf res).frames = fs.map Region.bytes := by
  rw [Call.frames, callOf, hd, comm_dispatches]

/-- What a read leaves in the buffer, and what it has in it on the way, fits. -/
theorem callOf_bounded {σ : Type} {res : Result σ} {fs : List Frame} {p r q : List UInt8}
    (hp : p.length < 5168) (hr : r.length ≤ 8192) (hq : q.length < 5168)
    (hcut : p ++ r = stream fs ++ q) (hd : res.dispatched = dispatches q.length 0 fs)
    (hrx : Holds res.rx q) : (callOf res).Bounded := by
  have hlen : (stream fs).length + q.length = p.length + r.length := by
    have hlen := congrArg List.length hcut
    simp only [List.length_append] at hlen
    omega
  constructor
  · change res.rx.bytelen ≤ _
    rw [hrx.bytelen, DATABUF]
    omega
  · intro disp hmem
    have hmem' : disp ∈ dispatches q.length 0 fs := by rwa [← hd]
    have hle := bytelen_dispatches _ _ _ _ hmem'
    rw [DATABUF]
    omega

/-- One call more in front. -/
theorem Received.cons {σ : Type} {p r q q₁ : List UInt8} {reads : List (List UInt8)} {run : Run σ}
    {c : Call} (hdone : c.exit = .done) (hframes : c.frames = Framing.blocks 5168 (p ++ r))
    (hrest : Framing.rest 5168 (p ++ r) = q₁) (hbounded : c.Bounded) (h : Received q₁ reads q run) :
    Received p (r :: reads) q (run.after c) where
  done c' hc := by
    rcases List.mem_cons.mp hc with rfl | hc
    · exact hdone
    · exact h.done c' hc
  frames := by
    rw [Run.after_calls, List.map_cons, hframes, h.frames, Framing.received, hrest]
  bounded c' hc := by
    rcases List.mem_cons.mp hc with rfl | hc
    · exact hbounded
    · exact h.bounded c' hc
  holds := h.holds

/-- A frame of `fs` was reached, with the invariant, whose handler did not come to
its end. -/
def Left {σ : Type} (handle : Handler σ) (I : List Frame → σ → Prop) (d fs : List Frame) : Prop :=
  ∃ (fs₁ fs₂ : List Frame) (f : Frame) (db : Databuf) (off : Nat) (s : σ),
    fs = fs₁ ++ f :: fs₂ ∧ I (d ++ fs₁) s ∧ HasAt db off f.bytes ∧
      ∀ db' s', handle db off s ≠ .next db' s'

section Invariant

variable {σ : Type} {handle : Handler σ} {enter : σ → σ} {I : List Frame → σ → Prop}

/-- What a run of handled frames preserves, from what one handled frame does. -/
theorem handled_invariant
    (hstep : ∀ d f db db' off s s', I d s → HasAt db off f.bytes →
      handle db off s = .next db' s' → I (d ++ [f]) s')
    {fs : List Frame} {s s' : σ} (h : Handled handle fs s s') (d : List Frame) (hI : I d s) :
    I (d ++ fs) s' := by
  induction h generalizing d with
  | nil s => rwa [List.append_nil]
  | cons hat hn _ ih =>
    have hnext := ih _ (hstep _ _ _ _ _ _ _ hI hat hn)
    rwa [List.append_assoc] at hnext

/-- Any number of reads, in terms of the stream they cut: every frame is
dispatched in the call that completes it, and an invariant of the handler is an
invariant of the run; unless a handler ends a call. -/
theorem recvAll_frames (hl : Local handle)
    (henter : ∀ d s, I d s → I d (enter s))
    (hstep : ∀ d f db db' off s s', I d s → HasAt db off f.bytes →
      handle db off s = .next db' s' → I (d ++ [f]) s')
    (reads : List (List UInt8)) (hreads : ∀ r ∈ reads, 1 ≤ r.length ∧ r.length ≤ 8192)
    (fs : List Frame) (hfs : ∀ f ∈ fs, WellSized f) (q : List UInt8) (hq : Partial q)
    {rx : Rx} {p : List UInt8} (h : Holds rx p) (he : p ++ reads.flatten = stream fs ++ q)
    (d : List Frame) (s : σ) (hI : I d s) (run : Run σ)
    (hrun : recvAll handle enter reads rx s = run) :
    (Received p reads q run ∧ I (d ++ fs) run.state) ∨
    ((∃ c ∈ run.calls, c.exit.early = true) ∧ Left handle I d fs) := by
  subst hrun
  induction reads generalizing rx p fs d s with
  | nil =>
    left
    rw [List.flatten_nil, List.append_nil] at he
    have hp := h.incomplete
    have hblocks := blocks_stream fs q hq
    rw [← he, Framing.blocks_short hp.1] at hblocks
    obtain rfl : fs = [] := List.map_eq_nil_iff.mp hblocks.symm
    rw [stream_nil, List.nil_append] at he
    subst he
    rw [List.append_nil]
    exact ⟨⟨by simp [recvAll], rfl, by simp [recvAll], h⟩, hI⟩
  | cons r rs ih =>
    rw [List.flatten_cons, ← List.append_assoc] at he
    obtain ⟨fs₁, fs₂, q₁, rfl, hq₁, hcut, hrest⟩ := stream_cut fs hfs q hq _ _ he
    have hfs₁ : ∀ f ∈ fs₁, WellSized f := fun f hf => hfs f (by simp [hf])
    have hfs₂ : ∀ f ∈ fs₂, WellSized f := fun f hf => hfs f (by simp [hf])
    have hr := hreads r (by simp)
    have hne : r ≠ [] := List.length_pos_iff.mp hr.1
    generalize hres : tcpRecv handle enter r rx s = res
    rcases tcpRecv_frames handle hl enter h hr.2 hne fs₁ hfs₁ q₁ hq₁ hcut s res hres with
      ⟨hdone, hd, hholds, hhandled, hidle⟩ | ⟨hearly, f₁, f₂, f, db, off, s₁, hsplit, hh, hat, hn⟩
    · have hI' : I (d ++ fs₁) res.state := by
        by_cases hz : fs₁ = []
        · rw [hz, List.append_nil, hidle hz]
          exact hI
        · exact handled_invariant hstep (hhandled hz) d (henter d s hI)
      have hcall : (callOf res).frames = Framing.blocks 5168 (p ++ r) := by
        rw [hcut, blocks_stream _ _ hq₁, callOf_frames hd]
      have hleft : Framing.rest 5168 (p ++ r) = q₁ := by
        rw [hcut, rest_stream _ _ hq₁]
      have hbounded := callOf_bounded h.incomplete.1 hr.2 hq₁.1 hcut hd hholds
      rw [recvAll_returns rs hres (by rw [hdone]; rfl)]
      rcases ih (fun x hx => hreads x (by simp [hx])) fs₂ hfs₂ hholds hrest (d ++ fs₁) res.state hI'
        with ⟨hrec, hfin⟩ | ⟨⟨c, hc, hearly⟩, f₁, f₂, f, db, off, s₁, hsplit, hs₁, hat, hn⟩
      · left
        refine ⟨hrec.cons hdone hcall hleft hbounded, ?_⟩
        rw [← List.append_assoc]
        exact hfin
      · right
        refine ⟨⟨c, List.mem_cons_of_mem _ hc, hearly⟩, fs₁ ++ f₁, f₂, f, db,
          off, s₁, ?_, ?_, hat, hn⟩
        · rw [hsplit, List.append_assoc]
        · rw [← List.append_assoc]
          exact hs₁
    · right
      refine ⟨⟨callOf res, callOf_mem rs hres, hearly⟩, f₁, f₂ ++ fs₂, f, db,
        off, s₁, ?_, ?_, hat, hn⟩
      · rw [hsplit, List.append_assoc, List.cons_append]
      · exact handled_invariant hstep hh d (henter d s hI)

/-- With a handler that always comes to its end, the run is complete. -/
theorem recvAll_complete (hl : Local handle)
    (henter : ∀ d s, I d s → I d (enter s))
    (reads : List (List UInt8)) (hreads : ∀ r ∈ reads, 1 ≤ r.length ∧ r.length ≤ 8192)
    (fs : List Frame) (hfs : ∀ f ∈ fs, WellSized f)
    (hstep : ∀ d f todo db off s, fs = d ++ f :: todo → I d s → HasAt db off f.bytes →
      ∃ db' s', handle db off s = .next db' s' ∧ I (d ++ [f]) s')
    (q : List UInt8) (hq : Partial q) {rx : Rx} {p : List UInt8} (h : Holds rx p)
    (he : p ++ reads.flatten = stream fs ++ q) (s : σ) (hI : I [] s)
    (run : Run σ) (hrun : recvAll handle enter reads rx s = run) :
    Received p reads q run ∧ I fs run.state := by
  -- the invariant only speaks about prefixes of `fs`
  let J : List Frame → σ → Prop := fun d s => d <+: fs → I d s
  have hJ : ∀ d f db db' off s s', J d s → HasAt db off f.bytes →
      handle db off s = .next db' s' → J (d ++ [f]) s' := by
    intro d f db db' off s s' hd hat hn ⟨todo, htodo⟩
    rw [List.append_assoc, List.singleton_append] at htodo
    obtain ⟨db'', s'', hn', hI'⟩ := hstep d f todo db off s htodo.symm (hd ⟨f :: todo, htodo⟩) hat
    rw [hn] at hn'
    cases hn'
    exact hI'
  rcases recvAll_frames (I := J) hl (fun d s hd hp => henter d s (hd hp)) hJ
    reads hreads fs hfs q hq h
    he [] s (fun _ => hI) run hrun with
    ⟨hrec, hfin⟩ | ⟨-, f₁, f₂, f, db, off, s₁, hsplit, hs₁, hat, hn⟩
  · rw [List.nil_append] at hfin
    exact ⟨hrec, hfin (List.prefix_refl fs)⟩
  · exfalso
    obtain ⟨db', s', hnext, -⟩ := hstep f₁ f f₂ db off s₁ hsplit
      (by simpa using hs₁ (by rw [hsplit, List.nil_append]; exact List.prefix_append _ _)) hat
    exact hn db' s' hnext

/-- A handler that follows a step function on whole frames: a run over any cut of
`fs` ends where stepping over `fs` ends. -/
theorem recvAll_follows (hl : Local handle) (next : σ → Frame → Option σ)
    (hnext : ∀ s f s', next s f = some s' → ∀ db off, HasAt db off f.bytes →
      ∃ db', handle db off s = .next db' s')
    (reads : List (List UInt8)) (hreads : ∀ r ∈ reads, 1 ≤ r.length ∧ r.length ≤ 8192)
    (fs : List Frame) (hfs : ∀ f ∈ fs, WellSized f) (s s' : σ)
    (hs : fs.foldlM next s = some s')
    (henter : ∀ d t, d <+: fs → d.foldlM next s = some t → enter t = t)
    {rx : Rx} (h : Holds rx []) (he : reads.flatten = stream fs) (run : Run σ)
    (hrun : recvAll handle enter reads rx s = run) :
    Received [] reads [] run ∧ run.state = s' := by
  let I : List Frame → σ → Prop := fun d t => d <+: fs → d.foldlM next s = some t
  have hcomplete := recvAll_complete (I := I) hl
    (fun d t hd hp => by rw [henter d t hp (hd hp)]; exact hd hp) reads hreads
      fs hfs ?_ [] partial_nil
    h (by simpa using he) s (fun _ => rfl) run hrun
  · obtain ⟨hrec, hfin⟩ := hcomplete
    have hfin' := hfin (List.prefix_refl fs)
    rw [hs] at hfin'
    exact ⟨hrec, (Option.some.inj hfin').symm⟩
  · intro d f todo db off t hsplit hI hat
    have ht := hI ⟨f :: todo, hsplit.symm⟩
    have hall := hs
    rw [hsplit, List.foldlM_append, ht] at hall
    cases hf : next t f with
    | none => simp [List.foldlM_cons, hf] at hall
    | some t' =>
      obtain ⟨db', hn⟩ := hnext t f t' hf db off hat
      refine ⟨db', t', hn, fun _ => ?_⟩
      rw [List.foldlM_append, ht]
      simp [List.foldlM_cons, hf]

end Invariant

end NetmtReads
