import Netmt.Client
import Netmt.Lib.Schedule

/-!
# The reply buffer of the client

`sendbuf` is allocated once for a call of `tcp_recv`. Two of the handlers free it and
leave a null pointer, and the call goes on with the next frame of the batch.
-/
namespace NetmtSendbuf

open NetmtCommand NetmtTcpRecv NetmtTransfer NetmtClient

/-! ## A batch of frames -/

section Batch

variable {σ : Type}

/-- Frame after frame, until one does not come to its end. -/
def stepAll (step : σ → Frame → Step σ) : List Frame → σ → Step σ
  | [], s => .next s
  | f :: fs, s =>
    match step s f with
    | .next s' => stepAll step fs s'
    | .leave s' => .leave s'
    | .fault x => .fault x

/-- How a call ends whose frames end so. -/
def exitOf : Step σ → Exit
  | .next _ => .done
  | .leave _ => .leave
  | .fault x => .handlerFault x

variable {step : σ → Frame → Step σ} {f : Frame} {fs : List Frame} {s s' : σ}

theorem stepAll_next (h : step s f = .next s') : stepAll step (f :: fs) s = stepAll step fs s' := by
  rw [stepAll, h]

theorem stepAll_append {pre : List Frame} (post : List Frame) (h : stepAll step pre s = .next s') :
    stepAll step (pre ++ post) s = stepAll step post s' := by
  induction pre generalizing s with
  | nil =>
    cases h
    rfl
  | cons f pre ih =>
    cases hf : step s f with
    | next s₁ =>
      rw [stepAll_next hf] at h
      rw [List.cons_append, stepAll_next hf, ih h]
    | leave s₁ =>
      rw [stepAll, hf] at h
      cases h
    | fault x =>
      rw [stepAll, hf] at h
      cases h

/-- A fault is the fault of one frame, behind frames that came to their end. -/
theorem stepAll_fault (x : Fault) : stepAll step fs s = .fault x ↔
    ∃ pre g post s₁, fs = pre ++ g :: post ∧ stepAll step pre s = .next s₁ ∧
    step s₁ g = .fault x := by
  constructor
  · intro h
    induction fs generalizing s with
    | nil => cases h
    | cons f fs ih =>
      cases hf : step s f with
      | next s₁ =>
        rw [stepAll_next hf] at h
        obtain ⟨pre, g, post, s₂, rfl, hpre, hg⟩ := ih h
        exact ⟨f :: pre, g, post, s₂, rfl, by rw [stepAll_next hf, hpre], hg⟩
      | leave s₁ =>
        rw [stepAll, hf] at h
        cases h
      | fault y =>
        rw [stepAll, hf] at h
        cases h
        exact ⟨[], f, fs, s, rfl, rfl, hf⟩
  · rintro ⟨pre, g, post, s₁, rfl, hpre, hg⟩
    rw [stepAll_append _ hpre, stepAll, hg]

theorem handled_stepAll {handle : Handler σ} {edit : Databuf → Nat → Frame → Databuf}
    (hstep : ∀ f ∈ fs, ∀ (db : Databuf) (o : Nat) (s : σ), HasAt db o f.bytes →
      handle db o s = (step s f).lift (edit db o f)) (h : Handled handle fs s s') :
    stepAll step fs s = .next s' := by
  induction h with
  | nil s => rfl
  | @cons f fs db db' off s s₁ s₂ hat hnext _ ih =>
    rw [hstep f (by simp) db off s hat] at hnext
    rw [stepAll_next (lift_next hnext).1]
    exact ih fun g hg => hstep g (List.mem_cons_of_mem _ hg)

/-- A call ends as the frames that it finds, when the handler is a step on frames. -/
theorem tcpRecv_exit {handle : Handler σ} {edit : Databuf → Nat → Frame → Databuf}
    (hl : Local handle) (enter : σ → σ) (hsized : ∀ f ∈ fs, WellSized f)
    (hstep : ∀ f ∈ fs, ∀ (db : Databuf) (o : Nat) (s : σ), HasAt db o f.bytes →
      handle db o s = (step s f).lift (edit db o f))
    {rx rx' : Rx} {r q : List UInt8} (h : Finds r rx rx' fs q) (res : Result σ)
    (hres : tcpRecv handle enter r rx s = res) : res.exit = exitOf (stepAll step fs (enter s)) := by
  rcases tcpRecv_finds handle hl enter hsized h s res hres with
    ⟨hdone, -, -, hhandled, -⟩ | ⟨fs₁, fs₂, g, db, off, s₁, hsplit, hhandled, hat, -, -, hend⟩
  · cases fs with
    | nil => exact hdone
    | cons f fs =>
      rw [handled_stepAll hstep (hhandled (by simp))]
      exact hdone
  · have hfirst := handled_stepAll (fun f hf => hstep f (by simp [hsplit, hf])) hhandled
    have hg := hstep g (by simp [hsplit]) db off s₁ hat
    rw [hsplit, stepAll_append _ hfirst, stepAll]
    rcases hend with ⟨hleave, hexit⟩ | ⟨x, hfault, hexit⟩
    · rw [hg] at hleave
      rw [lift_leave hleave, hexit]
      rfl
    · rw [hg] at hfault
      cases hs : step s₁ g with
      | fault y =>
        rw [hs] at hfault
        cases hfault
        exact hexit
      | next s₂ =>
        rw [hs] at hfault
        cases hfault
      | leave s₂ =>
        rw [hs] at hfault
        cases hfault

end Batch

/-! ## Frames of the client -/

/-- What the handlers read of the frame lies in it: every string ends there, and so
does the block of a `NETMT_DATA`. -/
structure WellFormed (f : Frame) : Prop where
  sized : WellSized f
  path : f.u32 commonid = NETMT_GET ∧ f.u32 subcommonid = NETMT_CLIENT ∨
    f.u32 commonid = NETMT_SEND ∧ f.u32 subcommonid = NETMT_FILE_OPEN →
    (0 : UInt8) ∈ f.bytes.drop remotefile
  block : f.u32 commonid = NETMT_SEND ∧ f.u32 subcommonid = NETMT_DATA → f.i32 dataSize ≤ 3584
  command : f.u32 commonid = NETMT_EXEC → (0 : UInt8) ∈ f.bytes.drop cmdstr

theorem cstrAt_inside {f : Frame} {off : Nat} (h : (0 : UInt8) ∈ f.bytes.drop off)
    (tail : List UInt8) :
    cstrAt f tail off = some (CString.ofField (f.bytes.drop off)) := by
  have hself : cstrAt f [] off = some (CString.ofField (f.bytes.drop off)) := by
    simp only [cstrAt, List.append_nil, if_pos h]
  exact cstrAt_tail hself tail

theorem fwriteData_inside {files : FileStore} {fp : Option StreamId} {f : Frame}
    {limit : Option Nat} (h : f.i32 dataSize ≤ 3584) (tail : List UInt8) :
    fwriteData files fp f tail limit = fwriteData files fp f [] limit := by
  have hlen : (f.bytes.drop data).length = 3584 := by simp
  cases fp with
  | none => rfl
  | some id =>
    have htake : ∀ n, n ≤ 3584 → (f.bytes.drop data ++ tail).take n =
        (f.bytes.drop data ++ []).take n := by
      intro n hn
      rw [List.append_nil, List.take_append_of_le_length (by omega)]
    simp only [fwriteData]
    by_cases hneg : f.i32 dataSize < 0
    · rw [if_pos (Or.inl hneg), if_pos (Or.inl hneg)]
    · have hfit : ∀ t : List UInt8, ¬ (f.i32 dataSize < 0 ∨
          ((f.bytes.drop data ++ t).length : Int) < f.i32 dataSize) := by
        intro t
        rw [List.length_append]
        omega
      rw [if_neg (hfit tail), if_neg (hfit []), htake _ (by omega)]

/-- The step of a well-formed frame does not depend on what lies behind it. -/
theorem switch_inside {f : Frame} (hf : WellFormed f) (e : Env) (tail : List UInt8) (c : Client) :
    switch e f tail c = switch e f [] c := by
  rcases command_cases (f.u32 commonid) with hid | hid | hid | hid | hid | hid
  · rw [switch_heartbeat hid, switch_heartbeat hid]
  · rw [switch_register hid, switch_register hid]
  · rw [switch_get hid, switch_get hid]
    simp only [onGet]
    split
    · next hsub =>
      have hpath := hf.path (Or.inl ⟨hid, hsub⟩)
      rw [cstrAt_inside hpath, cstrAt_inside hpath]
    · rfl
  · rw [switch_send hid, switch_send hid]
    simp only [onSend]
    split
    · next hsub =>
      have hpath := hf.path (Or.inr ⟨hid, hsub⟩)
      rw [cstrAt_inside hpath, cstrAt_inside hpath]
    · split
      · next hsub => rw [fwriteData_inside (hf.block ⟨hid, hsub⟩)]
      · rfl
  · have hcommand := hf.command hid
    rw [switch_exec hid, switch_exec hid]
    simp only [onExec]
    rw [cstrAt_inside hcommand, cstrAt_inside hcommand]
  · rw [switch_other hid, switch_other hid]

/-- One frame of a batch. -/
def frameStep (env : Nat → Env) (c : Client) (f : Frame) : Step Client :=
  switch (env c.tick) f [] { c with tick := c.tick + 1 }

theorem handle_frameStep (env : Nat → Env) {f : Frame} (hf : WellFormed f) (db : Databuf) (o : Nat)
    (c : Client) (hat : HasAt db o f.bytes) :
    handle env db o c = (frameStep env c f).lift (edit db o f) := by
  rw [handle_frame env db o f c hat, switch_inside hf, frameStep]

/-! ## What uses the buffer, and what frees it -/

/-- The file that is asked for can be read. -/
def Readable (e : Env) (f : Frame) (c : Client) : Prop :=
  e.fopenOk = true ∧ (c.files.openRead (CString.ofField (f.bytes.drop remotefile))).isSome

/-- The handler dereferences `sendbuf`. -/
inductive Uses (e : Env) (f : Frame) (c : Client) : Prop where
  | heartbeat : f.u32 commonid = NETMT_HEARTBEAT → f.u32 subcommonid = NETMT_SUCCESS → Uses e f c
  | register : f.u32 commonid = NETMT_REGISTER → Uses e f c
  | get : f.u32 commonid = NETMT_GET → f.u32 subcommonid = NETMT_CLIENT →
      Readable e f c → Uses e f c
  | sendEnd {files : FileStore} : f.u32 commonid = NETMT_SEND → f.u32 subcommonid = NETMT_SEND_END →
      fcloseStream c.files c.fp = .ok files → f.i32 byteSize = c.filebytes → Uses e f c

/-- The handler frees it: on a heartbeat that is too old, and behind a file. -/
inductive Frees (e : Env) (f : Frame) (c : Client) : Prop where
  | timeout : f.u32 commonid = NETMT_HEARTBEAT → f.u32 subcommonid = NETMT_SUCCESS →
      f.u64 lastRecvPongTime < f.u64 lastSendPingTime → Frees e f c
  | get : f.u32 commonid = NETMT_GET → f.u32 subcommonid = NETMT_CLIENT →
      Readable e f c → Frees e f c

section OneFrame

variable {e : Env} {f : Frame} {c c' : Client}

theorem onHeartbeat_null : onHeartbeat f c = .fault .nullSendbuf ↔
    c.sendbuf = false ∧ f.u32 subcommonid = NETMT_SUCCESS := by
  rw [onHeartbeat_iff]
  constructor
  · intro h
    cases h with
    | nullSendbuf hsub hbuf => exact ⟨hbuf, hsub⟩
  · rintro ⟨hbuf, hsub⟩
    exact .nullSendbuf hsub hbuf

theorem onHeartbeat_freed (h : onHeartbeat f c = .next c') :
    c'.sendbuf = false ↔ c.sendbuf = false ∨
    f.u32 subcommonid = NETMT_SUCCESS ∧ f.u64 lastRecvPongTime < f.u64 lastSendPingTime := by
  cases onHeartbeat_iff.mp h with
  | stale hsub hbuf hstale => exact iff_of_true rfl (Or.inr ⟨hsub, hstale⟩)
  | answered hsub hbuf hfresh => rw [or_iff_left fun h => hfresh h.2]
  | other hsub => rw [or_iff_left fun h => hsub h.1]

theorem onRegister_null : onRegister e f c = .fault .nullSendbuf ↔ c.sendbuf = false := by
  rw [onRegister]
  split
  · next hbuf => exact iff_of_true rfl hbuf
  · next hbuf => exact iff_of_false (fun h => by cases h) hbuf

theorem onRegister_freed (h : onRegister e f c = .next c') :
    c'.sendbuf = false ↔ c.sendbuf = false := by
  rw [onRegister] at h
  split at h <;> cases h
  rw [hioWrite_sendbuf]

/-- What `fopen` returns for the file that is asked for. -/
theorem readable_iff {path : List UInt8} (hsub : f.u32 subcommonid = NETMT_CLIENT)
    (hpath : f.u32 subcommonid = NETMT_CLIENT → (0 : UInt8) ∈ f.bytes.drop remotefile)
    (hname : cstrAt f [] remotefile = some path) :
    Readable e f c ↔ ∃ p, (if e.fopenOk then c.files.openRead path else none) = some p := by
  rw [cstrAt_inside (hpath hsub)] at hname
  rw [Readable, Option.some.inj hname]
  cases e.fopenOk with
  | false => simp
  | true => simp [Option.isSome_iff_exists]

theorem onGet_null
    (hpath : f.u32 subcommonid = NETMT_CLIENT → (0 : UInt8) ∈ f.bytes.drop remotefile) :
    onGet e f [] c = .fault .nullSendbuf ↔
      c.sendbuf = false ∧ f.u32 subcommonid = NETMT_CLIENT ∧ Readable e f c := by
  rw [onGet_iff]
  constructor
  · intro h
    cases h with
    | nullSendbuf hsub hname hopen hbuf =>
      exact ⟨hbuf, hsub, (readable_iff hsub hpath hname).mpr ⟨_, hopen⟩⟩
  · rintro ⟨hbuf, hsub, hread⟩
    have hname := cstrAt_inside (hpath hsub) []
    obtain ⟨p, hopen⟩ := (readable_iff hsub hpath hname).mp hread
    exact .nullSendbuf hsub hname hopen hbuf

theorem onGet_freed
    (hpath : f.u32 subcommonid = NETMT_CLIENT → (0 : UInt8) ∈ f.bytes.drop remotefile)
    (h : onGet e f [] c = .next c') : c'.sendbuf = false ↔ c.sendbuf = false ∨
      f.u32 subcommonid = NETMT_CLIENT ∧ Readable e f c := by
  cases onGet_iff.mp h with
  | sent hsub hname hopen =>
    exact iff_of_true rfl (Or.inr ⟨hsub, (readable_iff hsub hpath hname).mpr ⟨_, hopen⟩⟩)
  | other hsub => rw [or_iff_left fun h => hsub h.1]

theorem onSend_null : onSend e f [] c = .fault .nullSendbuf ↔
    c.sendbuf = false ∧ f.u32 subcommonid = NETMT_SEND_END ∧
      (∃ files, fcloseStream c.files c.fp = .ok files) ∧ f.i32 byteSize = c.filebytes := by
  rw [onSend_iff]
  constructor
  · intro h
    cases h with
    | unwritten hsub hm hwrite => rcases fwriteData_error hwrite with hx | hx | ⟨hx, -⟩ <;> cases hx
    | unclosed hsub hclose => rcases fcloseStream_error hclose with hx | hx <;> cases hx
    | nullSendbuf hsub hclose hsize hbuf => exact ⟨hbuf, hsub, ⟨_, hclose⟩, hsize⟩
  · rintro ⟨hbuf, hsub, ⟨files, hclose⟩, hsize⟩
    exact .nullSendbuf hsub hclose hsize hbuf

theorem onExec_null : onExec e f [] c ≠ .fault .nullSendbuf := by
  intro h
  cases onExec_iff.mp h with
  | overflow htext hroom hline hcmd hrun hout =>
    cases NetmtExecOutput.execCommandWithReturn_error hout

theorem onExec_sendbuf (h : onExec e f [] c = .next c') : c'.sendbuf = c.sendbuf := by
  cases onExec_iff.mp h with
  | line => rfl
  | notRun => rfl
  | printed => exact hioWrite_sendbuf _ _
  | returned => exact hioWrite_sendbuf _ _

/-- A frame faults on the buffer exactly when it uses it and it is gone. -/
theorem switch_null (hf : WellFormed f) : switch e f [] c = .fault .nullSendbuf ↔
    c.sendbuf = false ∧ Uses e f c := by
  rcases command_cases (f.u32 commonid) with hid | hid | hid | hid | hid | hid
  · rw [switch_heartbeat hid, onHeartbeat_null]
    refine and_congr_right fun _ => ⟨.heartbeat hid, fun h => ?_⟩
    cases h with
    | heartbeat _ hsub => exact hsub
    | register h | get h | sendEnd h => exact absurd (hid.symm.trans h) (by decide)
  · rw [switch_register hid, onRegister_null]
    exact (and_iff_left (.register hid)).symm
  · rw [switch_get hid, onGet_null fun hsub => hf.path (Or.inl ⟨hid, hsub⟩)]
    refine and_congr_right fun _ => ⟨fun h => .get hid h.1 h.2, fun h => ?_⟩
    cases h with
    | get _ hsub hread => exact ⟨hsub, hread⟩
    | heartbeat h | register h | sendEnd h => exact absurd (hid.symm.trans h) (by decide)
  · rw [switch_send hid, onSend_null]
    refine and_congr_right fun _ => ⟨fun h => ?_, fun h => ?_⟩
    · obtain ⟨hsub, ⟨files, hclose⟩, hsize⟩ := h
      exact .sendEnd hid hsub hclose hsize
    · cases h with
      | sendEnd _ hsub hclose hsize => exact ⟨hsub, ⟨_, hclose⟩, hsize⟩
      | heartbeat h | register h | get h => exact absurd (hid.symm.trans h) (by decide)
  · rw [switch_exec hid]
    refine iff_of_false onExec_null fun h => ?_
    cases h.2 with
    | heartbeat h | register h | get h | sendEnd h => exact absurd (hid.symm.trans h) (by decide)
  · rw [switch_other hid]
    refine iff_of_false (fun h => by cases h) fun h => hid ?_
    cases h.2 with
    | heartbeat h | register h | get h | sendEnd h =>
      rw [h]
      decide

/-- Behind a frame the buffer is gone if it was, or if the frame freed it. -/
theorem switch_freed (hf : WellFormed f) (h : switch e f [] c = .next c') : c'.sendbuf = false ↔
    c.sendbuf = false ∨ Frees e f c := by
  have hnone : f.u32 commonid ≠ NETMT_HEARTBEAT → f.u32 commonid ≠ NETMT_GET → ¬ Frees e f c := by
    intro hbeat hget hfrees
    cases hfrees with
    | timeout h => exact hbeat h
    | get h => exact hget h
  rcases command_cases (f.u32 commonid) with hid | hid | hid | hid | hid | hid
  · rw [switch_heartbeat hid] at h
    rw [onHeartbeat_freed h]
    refine or_congr_right ⟨fun h => .timeout hid h.1 h.2, fun h => ?_⟩
    cases h with
    | timeout _ hsub hold => exact ⟨hsub, hold⟩
    | get h => exact absurd (hid.symm.trans h) (by decide)
  · rw [switch_register hid] at h
    rw [onRegister_freed h, or_iff_left (hnone (by rw [hid]; decide) (by rw [hid]; decide))]
  · rw [switch_get hid] at h
    rw [onGet_freed (fun hsub => hf.path (Or.inl ⟨hid, hsub⟩)) h]
    refine or_congr_right ⟨fun h => .get hid h.1 h.2, fun h => ?_⟩
    cases h with
    | timeout h => exact absurd (hid.symm.trans h) (by decide)
    | get _ hsub hread => exact ⟨hsub, hread⟩
  · rw [switch_send hid] at h
    rw [(onSend_keeps h).1, or_iff_left (hnone (by rw [hid]; decide) (by rw [hid]; decide))]
  · rw [switch_exec hid] at h
    rw [onExec_sendbuf h, or_iff_left (hnone (by rw [hid]; decide) (by rw [hid]; decide))]
  · rw [switch_other hid] at h
    cases h
    exact (or_iff_left (hnone (fun heq => hid (by rw [heq]; decide)) fun heq =>
      hid (by rw [heq]; decide))).symm

end OneFrame

section Batches

variable {env : Nat → Env} {f : Frame} {fs : List Frame} {c c' : Client}

theorem frameStep_null (hf : WellFormed f) : frameStep env c f = .fault .nullSendbuf ↔
    c.sendbuf = false ∧ Uses (env c.tick) f c := by
  rw [frameStep, switch_null hf]
  refine and_congr_right fun _ => ⟨fun h => ?_, fun h => ?_⟩ <;>
  · cases h with
    | heartbeat hid hsub => exact .heartbeat hid hsub
    | register hid => exact .register hid
    | get hid hsub hread => exact .get hid hsub hread
    | sendEnd hid hsub hclose hsize => exact .sendEnd hid hsub hclose hsize

theorem frameStep_freed (hf : WellFormed f) (h : frameStep env c f = .next c') :
    c'.sendbuf = false ↔
    c.sendbuf = false ∨ Frees (env c.tick) f c := by
  rw [frameStep] at h
  rw [switch_freed hf h]
  refine or_congr_right ⟨fun h => ?_, fun h => ?_⟩ <;>
  · cases h with
    | timeout hid hsub hold => exact .timeout hid hsub hold
    | get hid hsub hread => exact .get hid hsub hread

/-- Behind a batch, some frame of it has freed the buffer. -/
theorem stepAll_freed (hfs : ∀ f ∈ fs, WellFormed f) (h : stepAll (frameStep env) fs c = .next c') :
    c'.sendbuf = false ↔ c.sendbuf = false ∨
      ∃ pre f mid c₁, fs = pre ++ f :: mid ∧ stepAll (frameStep env) pre c = .next c₁ ∧
        Frees (env c₁.tick) f c₁ := by
  induction fs generalizing c with
  | nil =>
    cases h
    rw [or_iff_left]
    rintro ⟨pre, f, mid, _, hsplit, -⟩
    cases pre <;> cases hsplit
  | cons g fs ih =>
    cases hg : frameStep env c g with
    | leave t =>
      rw [stepAll, hg] at h
      cases h
    | fault x =>
      rw [stepAll, hg] at h
      cases h
    | next t =>
      rw [stepAll_next hg] at h
      rw [ih (fun f hf => hfs f (List.mem_cons_of_mem _ hf)) h,
        frameStep_freed (hfs g (by simp)) hg,
        or_assoc]
      refine or_congr_right ?_
      constructor
      · rintro (hfrees | ⟨pre, f, mid, c₁, rfl, hpre, hfrees⟩)
        · exact ⟨[], g, fs, c, rfl, rfl, hfrees⟩
        · exact ⟨g :: pre, f, mid, c₁, rfl, by rw [stepAll_next hg, hpre], hfrees⟩
      · rintro ⟨pre, f, mid, c₁, hsplit, hpre, hfrees⟩
        rcases Schedule.cons_eq_split hsplit with ⟨rfl, rfl, rfl⟩ | ⟨pre, rfl, rfl⟩
        · cases hpre
          exact Or.inl hfrees
        · rw [stepAll_next hg] at hpre
          exact Or.inr ⟨pre, f, mid, c₁, rfl, hpre, hfrees⟩

/-- In the batch, a frame that uses the buffer comes behind one that frees it. -/
def UsedFreed (env : Nat → Env) (fs : List Frame) (c : Client) : Prop :=
  ∃ pre f mid g post c₁ c₂, fs = (pre ++ f :: mid) ++ g :: post ∧
    stepAll (frameStep env) pre c = .next c₁ ∧ Frees (env c₁.tick) f c₁ ∧
    stepAll (frameStep env) (pre ++ f :: mid) c = .next c₂ ∧ Uses (env c₂.tick) g c₂

theorem stepAll_null (hfs : ∀ f ∈ fs, WellFormed f) (hlive : c.sendbuf = true) :
    stepAll (frameStep env) fs c = .fault .nullSendbuf ↔ UsedFreed env fs c := by
  rw [stepAll_fault]
  constructor
  · rintro ⟨front, g, post, c₂, rfl, hfront, hg⟩
    obtain ⟨hgone, huses⟩ := (frameStep_null (hfs g (by simp))).mp hg
    rw [stepAll_freed (fun f hf => hfs f (List.mem_append_left _ hf)) hfront] at hgone
    obtain ⟨pre, f, mid, c₁, rfl, hpre, hfrees⟩ := hgone.resolve_left (by simp [hlive])
    exact ⟨pre, f, mid, g, post, c₁, c₂, rfl, hpre, hfrees, hfront, huses⟩
  · rintro ⟨pre, f, mid, g, post, c₁, c₂, rfl, hpre, hfrees, hfront, huses⟩
    refine ⟨_, g, post, c₂, rfl, hfront, (frameStep_null (hfs g (by simp))).mpr ⟨?_, huses⟩⟩
    rw [stepAll_freed (fun f hf => hfs f (List.mem_append_left _ hf)) hfront]
    exact Or.inr ⟨pre, f, mid, c₁, rfl, hpre, hfrees⟩

end Batches

/-! ## One call -/

/-- A call dereferences a null `sendbuf` exactly when the frames that it finds use the
buffer behind a frame that frees it. -/
theorem sendbuf_live_iff (env : Nat → Env) (c : Client) (rx rx' : Rx) (r q : List UInt8)
    (fs : List Frame) (hfinds : Finds r rx rx' fs q) (hfs : ∀ f ∈ fs, WellFormed f) :
    (tcpRecv env r rx c).exit ≠ .handlerFault .nullSendbuf ↔ ¬ UsedFreed env fs (enter c) := by
  apply not_congr
  rw [NetmtClient.tcpRecv, tcpRecv_exit (handle_local env) enter (fun f hf => (hfs f hf).sized)
    (fun f hf db o s hat => handle_frameStep env (hfs f hf) db o s hat) hfinds _ rfl,
    ← stepAll_null hfs rfl]
  cases stepAll (frameStep env) fs (enter c) with
  | next s => exact iff_of_false (fun h => by cases h) fun h => by cases h
  | leave s => exact iff_of_false (fun h => by cases h) fun h => by cases h
  | fault x => exact ⟨fun h => by cases h; rfl, fun h => by cases h; rfl⟩

/-! ## Two frames in one call -/

/-- A request for registration. -/
def registerFrame : Frame := setLen ((default : Frame).putU32 commonid NETMT_REGISTER)

theorem registerFrame_id : registerFrame.u32 commonid = NETMT_REGISTER := by
  rw [registerFrame, setLen, Region.putI32, Region.u32_put_other _ _ _ _ (by simp) (by simp),
    Region.u32_put_same _ _ _ (by simp), Nat.mod_eq_of_lt (by decide)]

theorem registerFrame_wellFormed : WellFormed registerFrame where
  sized := wellSized_setLen _
  path h := by
    rcases h with ⟨hid, -⟩ | ⟨hid, -⟩ <;>
      exact absurd (registerFrame_id.symm.trans hid) (by decide)
  block h := absurd (registerFrame_id.symm.trans h.1) (by decide)
  command h := absurd (registerFrame_id.symm.trans h) (by decide)

/-- A pong on which the client gives up. -/
def oldPong : Frame := (sendHeartbeat 7 1272308319616).putU64 lastRecvPongTime 1000000000

theorem oldPong_id : oldPong.u32 commonid = NETMT_HEARTBEAT := by
  simp [oldPong, sendHeartbeat, setLen]

theorem oldPong_wellFormed : WellFormed oldPong where
  sized := by
    rw [oldPong, Region.putU64, wellSized_put _ _ _ (by simp) (by simp), sendHeartbeat,
      Region.putU64, Region.putI32, wellSized_put _ _ _ (by simp) (by simp),
      wellSized_put _ _ _ (by simp) (by simp)]
    exact wellSized_setLen _
  path h := by
    rcases h with ⟨hid, -⟩ | ⟨hid, -⟩ <;>
      exact absurd (oldPong_id.symm.trans hid) (by decide)
  block h := absurd (oldPong_id.symm.trans h.1) (by decide)
  command h := absurd (oldPong_id.symm.trans h) (by decide)

theorem oldPong_frees (e : Env) (c : Client) : Frees e oldPong c := by
  refine .timeout oldPong_id ?_ ?_
  · simp [oldPong, sendHeartbeat, setLen]
  · simp [oldPong, sendHeartbeat]

theorem frameStep_oldPong (env : Nat → Env) {c : Client} (hlive : c.sendbuf = true) :
    ∃ c', frameStep env c oldPong = .next c' := by
  rw [frameStep, switch_heartbeat oldPong_id, onHeartbeat]
  split
  · split
    · next hbuf =>
      rw [hlive] at hbuf
      cases hbuf
    · split <;> exact ⟨_, rfl⟩
  · exact ⟨_, rfl⟩

/-- The start of a frame is kept for the next read. -/
theorem holds_start (f : Frame) (hf : WellSized f) : ∃ rx, Holds rx (f.bytes.take 4000) := by
  have hlen : (f.bytes.take 4000).length = 4000 := by simp
  have hpartial : Partial (f.bytes.take 4000) := ⟨by omega, f, hf, List.take_prefix _ _⟩
  obtain ⟨res, hres⟩ : ∃ res, NetmtTcpRecv.tcpRecv (handle goodEnv) enter
    (f.bytes.take 4000) Rx.initial
      (initial FileStore.empty) = res := ⟨_, rfl⟩
  rcases tcpRecv_stream (handle goodEnv) (handle_local goodEnv) enter holds_initial (by omega)
    (List.length_pos_iff.mp (by omega)) [] (by simp) _ hpartial rfl _ res hres with
    ⟨-, -, hrx, -⟩ | ⟨fs₁, fs₂, _, _, _, _, hsplit, -⟩
  · exact ⟨_, hrx⟩
  · cases fs₁ <;> cases hsplit

/-- The first frame is completed by a read that brings the second one whole. -/
theorem two_frames {f g : Frame} (hf : WellSized f) (hg : WellSized g) :
    ∃ rx rx', Finds (f.bytes.drop 4000 ++ g.bytes) rx rx' [f, g] [] := by
  obtain ⟨rx, hrx⟩ := holds_start f hf
  have hcut : f.bytes.take 4000 ++ (f.bytes.drop 4000 ++ g.bytes) = stream [f, g] ++ [] := by
    rw [← List.append_assoc, List.take_append_drop, stream_cons, stream_cons, stream_nil,
      List.append_nil, List.append_nil]
  have hlen : (f.bytes.drop 4000 ++ g.bytes).length = 6336 := by simp
  have hsized : ∀ h ∈ [f, g], WellSized h := by
    intro h hh
    rcases List.mem_cons.mp hh with rfl | hh
    · exact hf
    · exact List.mem_singleton.mp hh ▸ hg
  obtain ⟨rx', hfinds, -⟩ := hrx.finds (by omega) [f, g] hsized [] partial_nil hcut
  exact ⟨rx, rx', hfinds⟩

theorem request_pong_wellFormed : ∀ f ∈ [registerFrame, oldPong], WellFormed f := by
  intro f hf
  rcases List.mem_cons.mp hf with rfl | hf
  · exact registerFrame_wellFormed
  · exact List.mem_singleton.mp hf ▸ oldPong_wellFormed

/-- A request uses the buffer in front of the pong that frees it. -/
theorem request_then_pong_live : ∃ rx,
    (tcpRecv goodEnv (registerFrame.bytes.drop 4000 ++ oldPong.bytes) rx
      (initial FileStore.empty)).exit ≠
      .handlerFault .nullSendbuf := by
  obtain ⟨rx, rx', hfinds⟩ := two_frames registerFrame_wellFormed.sized oldPong_wellFormed.sized
  refine ⟨rx, (sendbuf_live_iff goodEnv (initial FileStore.empty) rx rx' _ []
    [registerFrame, oldPong] hfinds
    request_pong_wellFormed).mpr ?_⟩
  rintro ⟨pre, f, mid, g, post, c₁, _, hsplit, -, hfrees, -⟩
  have hlength := congrArg List.length hsplit
  simp only [List.length_append, List.length_cons, List.length_nil] at hlength
  obtain rfl : pre = [] := List.length_eq_zero_iff.mp (by omega)
  obtain rfl : f = registerFrame := (List.cons.inj hsplit).1.symm
  cases hfrees with
  | timeout hid => exact absurd (registerFrame_id.symm.trans hid) (by decide)
  | get hid => exact absurd (registerFrame_id.symm.trans hid) (by decide)

/-- No batch meets a freed buffer. -/
def SendbufLive : Prop :=
  ∀ (env : Nat → Env) (c : Client) (rx rx' : Rx) (r q : List UInt8) (fs : List Frame),
    Finds r rx rx' fs q →
    (∀ f ∈ fs, WellFormed f) → (tcpRecv env r rx c).exit ≠ .handlerFault .nullSendbuf

/-- The rest of an old pong, and a request behind it, in one read. -/
theorem freed_then_used : ¬ SendbufLive := by
  intro hlive
  obtain ⟨rx, rx', hfinds⟩ := two_frames oldPong_wellFormed.sized registerFrame_wellFormed.sized
  have hfs : ∀ f ∈ [oldPong, registerFrame], WellFormed f := fun f hf =>
    request_pong_wellFormed f ((List.Perm.swap _ _ _).mem_iff.mp hf)
  obtain ⟨c', hstep⟩ := frameStep_oldPong goodEnv (c := enter (initial FileStore.empty)) rfl
  have hgone := (frameStep_freed oldPong_wellFormed hstep).mpr (Or.inr (oldPong_frees _ _))
  refine hlive goodEnv (initial FileStore.empty) rx rx' _ [] [oldPong, registerFrame] hfinds hfs ?_
  rw [NetmtClient.tcpRecv, tcpRecv_exit (handle_local goodEnv) enter (fun f hf => (hfs f hf).sized)
    (fun f hf db o s hat => handle_frameStep goodEnv (hfs f hf) db o s hat) hfinds _ rfl,
    stepAll_next hstep, stepAll, (frameStep_null registerFrame_wellFormed).mpr
      ⟨hgone, .register registerFrame_id⟩]
  rfl

end NetmtSendbuf
