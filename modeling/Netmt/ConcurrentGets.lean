import Netmt.GetTransfer
import Netmt.Reassembly

/-!
# Several fetches at once

The open file and the byte counter of the server are single globals. With the
frames of several transfers arriving in any order, they serve the right
transfer exactly when the transfers do not overlap.
-/
namespace NetmtConcurrentGets

open NetmtCommand NetmtTcpRecv NetmtTransfer NetmtServer NetmtServerCommand NetmtGetTransfer
open NetmtReassembly

/-- An outstanding `get`: the words of the command, the connection that was asked,
and the content of the file there. -/
structure Get where
  io : Hio
  cwd : CString
  localPath : CString
  client : CString
  remotePath : CString
  content : List UInt8
  asked : client.atoi = io.fd

def Get.target (g : Get) : CString := absolutePath g.cwd g.localPath

/-- The name the server opens. -/
def Get.path (g : Get) : List UInt8 := g.target.bytes.take 255

/-- What the client sends. -/
def Get.frames (g : Get) : List Frame :=
  (NetmtClient.getFrames (getRequest g.cwd g.localPath g.client g.remotePath) g.content).1

theorem Get.answer (g : Get) : Answer g.target g.client.atoi g.content g.frames :=
  getFrames_answer (getRequest_isGet g.cwd g.localPath g.client g.remotePath) g.content

def kindOf (f : Frame) : Sessions.Kind :=
  if f.u32 subcommonid = NETMT_FILE_OPEN then .start
  else if f.u32 subcommonid = NETMT_GET_END then .finish
  else .middle

/-- What a frame of a transfer is. -/
inductive TransferFrame (g : Get) (f : Frame) : Prop where
  | opened : IsGet g.target g.client.atoi NETMT_FILE_OPEN f → TransferFrame g f
  | data (b : List UInt8) (buf : Frame) : IsGet g.target g.client.atoi NETMT_DATA f →
      IsData buf b f → b.length ≤ BUFFER_SIZE → TransferFrame g f
  | ended : IsGet g.target g.client.atoi NETMT_GET_END f → TransferFrame g f

theorem kindOf_opened {path : CString} {client : Int} {f : Frame}
    (h : IsGet path client NETMT_FILE_OPEN f) : kindOf f = .start := by
  rw [kindOf, h.sub]
  rfl

theorem kindOf_data {path : CString} {client : Int} {f : Frame}
    (h : IsGet path client NETMT_DATA f) : kindOf f = .middle := by
  rw [kindOf, h.sub]
  rfl

theorem kindOf_ended {path : CString} {client : Int} {f : Frame}
    (h : IsGet path client NETMT_GET_END f) : kindOf f = .finish := by
  rw [kindOf, h.sub]
  rfl

theorem transferFrame_blocks {g : Get} {blocks : List (List UInt8)} {fs : List Frame}
    (h : List.Forall₂ (fun b f => IsGet g.target g.client.atoi NETMT_DATA f ∧ ∃ buf, IsData buf b f)
      blocks fs) (hb : ∀ b ∈ blocks, b.length ≤ BUFFER_SIZE) : ∀ f ∈ fs, TransferFrame g f := by
  induction h with
  | nil => simp
  | cons hd _ ih =>
    intro f hf
    rcases List.mem_cons.mp hf with rfl | hf
    · obtain ⟨hget, buf, hdata⟩ := hd
      exact .data _ buf hget hdata (hb _ (by simp))
    · exact ih (fun b hb' => hb b (by simp [hb'])) f hf

theorem Get.transferFrame (g : Get) : ∀ f ∈ g.frames, TransferFrame g f := by
  obtain ⟨opened, blocks, ending, he, hopen, hblocks, hend, -⟩ := g.answer.frames
  rw [he]
  intro f hf
  rcases List.mem_cons.mp hf with rfl | hf
  · exact .opened hopen
  · cases List.mem_append.mp hf with
    | inl hf =>
      exact transferFrame_blocks hblocks (fun b hb => block_le hb) f hf
    | inr hf =>
      rw [List.mem_singleton.mp hf]
      exact .ended hend

theorem Get.session (g : Get) : Sessions.Session kindOf g.frames := by
  obtain ⟨opened, blocks, ending, he, hopen, hblocks, hend, -⟩ := g.answer.frames
  exact ⟨opened, blocks, ending, he, kindOf_opened hopen,
    fun f hf => kindOf_data (blocks_isFrame hblocks f hf), kindOf_ended hend⟩

/-- `fp` is an open stream on the transfer's own file. -/
def OwnFile (g : Get) (s : Server) : Prop :=
  ∃ id stream, s.fp = some id ∧ s.files.streams[id]? = some stream ∧ stream.isOpen = true ∧
    stream.path = g.path

section Gets

variable {n : Nat} (gs : Fin n → Get) (env : Nat → NetmtServer.Env)

/-- A frame arrives whole on its connection. -/
def arrival (e : Fin n × Frame) : Event := .read (gs e.1).io e.2.bytes

/-- No `DATA` or `GET_END` frame meets a file that is closed or another's. -/
def HandledOwn : List (Fin n × Frame) → Process → Prop
  | [], _ => True
  | e :: es, w => (kindOf e.2 ≠ .start → OwnFile (gs e.1) w.server) ∧
      HandledOwn es (step env (arrival gs e) w).1

/-- The transfers in `es` do not interfere. -/
structure Independent (es : List (Fin n × Frame)) (w : Process) : Prop where
  handled : HandledOwn gs env es w
  content : ∀ i, (serve env (es.map (arrival gs)) w).server.files.content (gs i).path =
    some (gs i).content
  acknowledged : ∃ written, (serve env (es.map (arrival gs)) w).server.out =
    w.server.out ++ written ∧
    ∀ i, ∃ f, f.u32 subcommonid = NETMT_GET_SUCCESS ∧ ((gs i).io, f) ∈ written

/-- No transfer starts before the one under way has ended. -/
def Serial (es : List (Fin n × Frame)) : Prop :=
  ∃ order, es = Sessions.serial (fun i => (gs i).frames) order

variable {gs} {env}

/-- Whose transfer the globals of the server serve. -/
structure Holding (gs : Fin n → Get) (o : Option (Fin n)) (s : Server) : Prop where
  mutex : s.mutex = false
  free : o = none → ∀ id, s.fp = some id → s.files.isOpen id = false
  held : ∀ i, o = some i → ∃ s₀ b, Receiving s₀ s (gs i).path b

theorem Holding.own {o : Option (Fin n)} {s : Server} (h : Holding gs o s) (i : Fin n)
    (ho : o = some i) : OwnFile (gs i) s := by
  obtain ⟨s₀, b, hr⟩ := h.held i ho
  obtain ⟨id, hfp, hw⟩ := hr.fp
  exact ⟨id, _, hfp, hw.stream, rfl, rfl⟩

/-- Different names: an open stream tells whose transfer it is. -/
theorem Holding.owner {o : Option (Fin n)} {s : Server} (h : Holding gs o s)
    (hpaths : ∀ i j, (gs i).path = (gs j).path → i = j) (i : Fin n) (hown : OwnFile (gs i) s) :
    o = some i := by
  obtain ⟨id, stream, hfp, hstream, hopen, hpath⟩ := hown
  cases o with
  | none =>
    have hclosed := h.free rfl id hfp
    simp [FileStore.isOpen, hstream, hopen] at hclosed
  | some j =>
    obtain ⟨s₀, b, hr⟩ := h.held j rfl
    obtain ⟨id', hfp', hw⟩ := hr.fp
    rw [hfp'] at hfp
    cases hfp
    rw [hw.stream] at hstream
    cases hstream
    rw [hpaths j i hpath]

/-- One frame: it finds its own file exactly when its transfer holds the globals,
and then it is handled to its end. -/
theorem Holding.step (he : Ready env) {o : Option (Fin n)} {s : Server} (h : Holding gs o s)
    (i : Fin n) {f : Frame} (hf : TransferFrame (gs i) f)
    (hclean : kindOf f ≠ .start → o = some i) :
    ∃ s', next env (gs i).io s f = some s' ∧ Holding gs (Sessions.holder kindOf o (i, f)) s' := by
  cases hf with
  | opened hget =>
    obtain ⟨s', hn, hr⟩ := open_receiving he (gs i).io h.mutex hget
    refine ⟨s', hn, ?_⟩
    rw [Sessions.holder, kindOf_opened hget]
    refine ⟨hr.mutex, by simp, fun j hj => ?_⟩
    cases hj
    exact ⟨s, [], hr⟩
  | data b buf hget hdata hb =>
    have hk := kindOf_data hget
    have ho := hclean (by rw [hk]; decide)
    obtain ⟨s₀, b₀, hr⟩ := h.held i ho
    obtain ⟨s', hn, hr'⟩ := data_receiving he (gs i).io hr hget hdata hb
    refine ⟨s', hn, ?_⟩
    rw [Sessions.holder, hk]
    refine ⟨hr'.mutex, by simp [ho], fun j hj => ?_⟩
    rw [ho] at hj
    cases hj
    exact ⟨s₀, _, hr'⟩
  | ended hget =>
    have hk := kindOf_ended hget
    have ho := hclean (by rw [hk]; decide)
    obtain ⟨s₀, b₀, hr⟩ := h.held i ho
    obtain ⟨s', hn, hm, hclosed⟩ := end_closes (gs i).io hr hget
    refine ⟨s', hn, ?_⟩
    rw [Sessions.holder, hk]
    exact ⟨hm, fun _ => hclosed, by simp⟩

/-- Along any schedule, every frame finds its own file exactly when the schedule is
clean. -/
theorem handledOwn_iff_clean (he : Ready env) (hpaths : ∀ i j, (gs i).path = (gs j).path → i = j)
    (es : List (Fin n × Frame)) (hes : ∀ e ∈ es, TransferFrame (gs e.1) e.2 ∧ WellSized e.2)
    (o : Option (Fin n)) (w : Process) (hrx : Holds w.rx []) (h : Holding gs o w.server) :
    HandledOwn gs env es w ↔ Sessions.Clean kindOf o es := by
  induction es generalizing o w with
  | nil => exact Iff.rfl
  | cons e es ih =>
    obtain ⟨hframe, hsized⟩ := hes e (by simp)
    have hown : OwnFile (gs e.1) w.server ↔ o = some e.1 :=
      ⟨h.owner hpaths e.1, h.own e.1⟩
    rw [HandledOwn, Sessions.Clean, hown]
    apply and_congr_right
    intro hclean
    obtain ⟨s', hn, h'⟩ := h.step he e.1 hframe hclean
    obtain ⟨-, hserver, hrx'⟩ := step_frame env (gs e.1).io hrx hsized hn
    exact ih (fun e' he' => hes e' (by simp [he'])) _ _ hrx' (hserver ▸ h')

/-- The process follows the server's step on whole frames. -/
theorem serve_follows (es : List (Fin n × Frame)) (hes : ∀ e ∈ es, WellSized e.2) (w : Process)
    (hrx : Holds w.rx []) (s' : Server)
    (hs : es.foldlM (fun s e => next env (gs e.1).io s e.2) w.server = some s') :
    (serve env (es.map (arrival gs)) w).server = s' := by
  induction es generalizing w with
  | nil =>
    cases hs
    rfl
  | cons e es ih =>
    rw [List.foldlM_cons] at hs
    cases hn : next env (gs e.1).io w.server e.2 with
    | none => simp [hn] at hs
    | some s₁ =>
      obtain ⟨hgo, hserver, hrx'⟩ := step_frame env (gs e.1).io hrx (hes e (by simp)) hn
      rw [hn] at hs
      rw [List.map_cons, serve, arrival]
      simp only [hgo, if_true]
      exact ih (fun e' he' => hes e' (by simp [he'])) _ hrx' (by rw [hserver]; exact hs)

/-- Transfers that follow one another. -/
theorem serial_fetches (he : Ready env) (hpaths : ∀ i j, (gs i).path = (gs j).path → i = j)
    (order : List (Fin n)) (s : Server) (hm : s.mutex = false)
    (hclients : ∀ i, (gs i).io ∈ s.clients.map IoT.io) :
    ∃ s', (Sessions.serial (fun i => (gs i).frames) order).foldlM
        (fun s e => next env (gs e.1).io s e.2) s = some s' ∧
      (∀ i ∈ order, s'.files.content (gs i).path = some (gs i).content) ∧
      (∀ p, (∀ i ∈ order, p ≠ (gs i).path) → s'.files.content p = s.files.content p) ∧
      ∃ written, s'.out = s.out ++ written ∧
        ∀ i ∈ order, ∃ f, f.u32 subcommonid = NETMT_GET_SUCCESS ∧ ((gs i).io, f) ∈ written := by
  induction order generalizing s with
  | nil => exact ⟨s, rfl, by simp, fun _ _ => rfl, [], by simp, by simp⟩
  | cons i order ih =>
    obtain ⟨s₁, hs₁, hf⟩ := answer_fetched he (gs i).io (gs i).answer hm
    obtain ⟨s₂, hs₂, hcontent, hother, written, hout, hack⟩ := ih s₁ hf.mutex
      (by rw [hf.clients]; exact hclients)
    obtain ⟨f, hsub, hout₁⟩ := hf.out
    refine ⟨s₂, ?_, ?_, ?_, _, by rw [hout, hout₁, List.append_assoc], ?_⟩
    · rw [Sessions.serial_cons, List.foldlM_append, List.foldlM_map, hs₁]
      exact hs₂
    · intro j hj
      by_cases hjo : j ∈ order
      · exact hcontent j hjo
      · obtain rfl : j = i := (List.mem_cons.mp hj).resolve_right hjo
        rw [hother _ fun k hk heq => by rw [hpaths _ _ heq] at hjo; exact hjo hk]
        exact hf.content
    · intro p hp
      rw [hother p fun k hk => hp k (by simp [hk]), hf.others p (hp i (by simp))]
    · intro j hj
      rcases List.mem_cons.mp hj with rfl | hj
      · refine ⟨f, hsub, List.mem_append_left _ ?_⟩
        obtain ⟨conn, hconn, hio⟩ := List.mem_map.mp (hclients j)
        refine List.mem_map.mpr ⟨conn, List.mem_filter.mpr ⟨hconn, ?_⟩, by rw [hio]⟩
        rw [decide_eq_true_iff, hio, (gs j).asked]
      · obtain ⟨g, hg, hmem⟩ := hack j hj
        exact ⟨g, hg, List.mem_append_right _ hmem⟩

/-- Where several transfers start from. -/
structure Outstanding (gs : Fin n → Get) (w : Process) : Prop where
  /-- different local files -/
  paths : ∀ i j, (gs i).path = (gs j).path → i = j
  connected : ∀ i, (gs i).io ∈ w.server.clients.map IoT.io
  unlocked : w.server.mutex = false
  idle : ∀ id, w.server.fp = some id → w.server.files.isOpen id = false
  framed : Holds w.rx []

theorem Outstanding.holding {w : Process} (h : Outstanding gs w) : Holding gs none w.server :=
  ⟨h.unlocked, fun _ => h.idle, by simp⟩

/-- The frames of a schedule that delivers every transfer. -/
theorem frames_of_schedule {es : List (Fin n × Frame)}
    (hes : ∀ i, Sessions.proj i es = (gs i).frames) :
    ∀ e ∈ es, TransferFrame (gs e.1) e.2 ∧ WellSized e.2 := by
  intro e he
  have hmem : e.2 ∈ (gs e.1).frames := by
    rw [← hes e.1]
    exact List.mem_map.mpr ⟨e, List.mem_filter.mpr ⟨he, by simp⟩, rfl⟩
  exact ⟨(gs e.1).transferFrame _ hmem, (gs e.1).answer.sized _ hmem⟩

/-- Several fetches at once end well exactly when they do not overlap. -/
theorem gets_independent_iff_serial (he : Ready env) (w : Process) (hw : Outstanding gs w)
    (es : List (Fin n × Frame)) (hes : ∀ i, Sessions.proj i es = (gs i).frames) :
    Independent gs env es w ↔ Serial gs es := by
  have hframes := frames_of_schedule hes
  have hclean := handledOwn_iff_clean he hw.paths es hframes none w hw.framed hw.holding
  have hserial := Sessions.clean_iff_serial kindOf (fun i => (gs i).frames)
    (fun i => (gs i).session) es hes
  constructor
  · intro h
    exact hserial.mp (hclean.mp h.handled)
  · intro h
    obtain ⟨order, horder⟩ := h
    have hall : ∀ i, i ∈ order := Sessions.mem_order kindOf _ (fun i => (gs i).session) order
      (by rw [← horder]; exact hes)
    obtain ⟨s', hs, hcontent, -, written, hout, hack⟩ := serial_fetches he hw.paths order w.server
      hw.unlocked hw.connected
    rw [← horder] at hs
    have hfinal := serve_follows es (fun e hm => (hframes e hm).2) w hw.framed s' hs
    refine ⟨hclean.mpr (hserial.mpr ⟨order, horder⟩), fun i => ?_, written, ?_, fun i => ?_⟩
    · rw [hfinal]
      exact hcontent i (hall i)
    · rw [hfinal, hout]
    · exact hack i (hall i)

end Gets

/-! ## Two fetches -/

/-- Files of one byte, fetched to `/a` from descriptor 7 and to `/b` from descriptor 8. -/
def twoGets : Fin 2 → Get
  | 0 => ⟨⟨1, 7⟩, slash, slashA, ⟨[55], by decide⟩, ⟨[47, 99], by decide⟩,
      [1], by decide⟩
  | 1 => ⟨⟨2, 8⟩, slash, slashB, ⟨[56], by decide⟩, ⟨[47, 99], by decide⟩,
      [2], by decide⟩

def twoEnv : Nat → NetmtServer.Env := fun _ => ⟨0, true, none, 0⟩

def twoClients : Process :=
  { Process.initial FileStore.empty with server := { NetmtServer.initial FileStore.empty with
      clients := [⟨⟨2, 8⟩, default, [], DATABUF, 0, 0⟩, ⟨⟨1, 7⟩, default, [], DATABUF, 0, 0⟩] } }

theorem twoEnv_ready : Ready twoEnv := ⟨fun _ => rfl, fun _ => rfl⟩

theorem twoGets_outstanding : Outstanding twoGets twoClients where
  paths := by decide
  connected := by decide
  unlocked := rfl
  idle := fun id h => by cases h
  framed := holds_initial

/-- One after the other, both arrive. -/
theorem two_gets_in_turn : Independent twoGets twoEnv
    ((twoGets 0).frames.map (fun f => (0, f)) ++ (twoGets 1).frames.map fun f =>
      (1, f)) twoClients := by
  apply (gets_independent_iff_serial twoEnv_ready twoClients twoGets_outstanding _ ?_).mpr
  · exact ⟨[0, 1], by simp [Sessions.serial]⟩
  · rw [Fin.forall_fin_two]
    constructor
    · rw [Sessions.proj_append]
      simp
    · rw [Sessions.proj_append]
      simp

/-- Transfers are independent, in any number and on any schedule. -/
def GetsIndependent : Prop :=
  ∀ (n : Nat) (gs : Fin n → Get) (env : Nat → NetmtServer.Env) (w : Process)
    (es : List (Fin n × Frame)), Ready env → Outstanding gs w →
    (∀ i, Sessions.proj i es = (gs i).frames) → Independent gs env es w

/-- The second transfer starts behind the first frame of the first. -/
def overlapping : List (Fin 2 × Frame) :=
  ((twoGets 0).frames.take 1).map (fun f => (0, f)) ++ (twoGets 1).frames.map (fun f => (1, f)) ++
    ((twoGets 0).frames.drop 1).map fun f => (0, f)

theorem overlapping_gets_interfere : ¬ GetsIndependent := by
  intro h
  have hes : ∀ i, Sessions.proj i overlapping = (twoGets i).frames := by
    intro i
    rw [overlapping, Sessions.proj_append, Sessions.proj_append]
    match i with
    | 0 =>
      rw [Sessions.proj_map_same, Sessions.proj_map_other (by decide), Sessions.proj_map_same,
        List.append_nil, List.take_append_drop]
    | 1 =>
      rw [Sessions.proj_map_other (by decide), Sessions.proj_map_same,
        Sessions.proj_map_other (by decide), List.append_nil, List.nil_append]
  have hind := h 2 twoGets twoEnv twoClients overlapping twoEnv_ready twoGets_outstanding hes
  have hclean := (handledOwn_iff_clean twoEnv_ready twoGets_outstanding.paths overlapping
    (frames_of_schedule hes) none twoClients holds_initial twoGets_outstanding.holding).mp
      hind.handled
  obtain ⟨a₀, ms₀, z₀, he₀, ha₀, hms₀, hz₀⟩ := (twoGets 0).session
  obtain ⟨a₁, ms₁, z₁, he₁, ha₁, -, -⟩ := (twoGets 1).session
  rw [overlapping, he₀, he₁, List.take_succ_cons, List.take_zero, List.drop_one, List.tail_cons,
    List.map_cons, List.map_nil, List.map_cons, List.singleton_append, List.cons_append] at hclean
  obtain ⟨-, -, hlost⟩ := hclean
  have hholder : Sessions.holder kindOf (Sessions.holder kindOf none ((0 : Fin 2), a₀))
      (1, a₁) = some 1 := by
    simp [Sessions.holder, ha₁]
  rw [hholder] at hlost
  have hproj : Sessions.proj (0 : Fin 2) ((ms₁ ++ [z₁]).map (fun f => (1, f)) ++
      (ms₀ ++ [z₀]).map fun f => (0, f)) = ms₀ ++ [z₀] := by
    rw [Sessions.proj_append, Sessions.proj_map_same, Sessions.proj_map_other (by decide),
      List.nil_append]
  refine Sessions.not_clean_of_lost kindOf (0 : Fin 2) ((ms₁ ++ [z₁]).map (fun f => (1, f)) ++
    (ms₀ ++ [z₀]).map fun f => (0, f)) (some 1) (by decide) ?_ ?_ hlost
  · rw [hproj]
    simp
  · rw [hproj]
    intro f hf
    cases List.mem_append.mp hf with
    | inl hf =>
      rw [hms₀ f hf]
      decide
    | inr hf =>
      rw [List.mem_singleton.mp hf, hz₀]
      decide

end NetmtConcurrentGets
