import Netmt.Client
import Netmt.ServerCommand
import Netmt.Reads
import Netmt.Lib.Sessions

/-!
# Fetching files

`get_netmt` sends a request, the client answers with `FILE_OPEN`, the blocks of
the file and `GET_END`, and the server writes them to the file the request
names. The names and the descriptor travel in the frames.
-/
namespace NetmtGetTransfer

open NetmtCommand NetmtTcpRecv NetmtTransfer NetmtReads NetmtServerCommand

/-- A frame of a transfer to `path`, asked of the client at `client`. -/
structure IsGet (path : CString) (client : Int) (sub : Nat) (f : Frame) : Prop where
  id : f.u32 commonid = NETMT_GET
  sub : f.u32 subcommonid = sub
  fd : f.i32 NetmtCommand.fd = client
  path : Region.slice localfile 256 f.bytes = path.toField 256

theorem IsGet.of_sameHead {path : CString} {client : Int} {sub : Nat} {f g : Frame}
    (h : IsGet path client sub g) (hh : SameHead f g) : IsGet path client sub f where
  id := (hh.u32 _ (by decide) (by decide)).trans h.id
  sub := (hh.u32 _ (by decide) (by decide)).trans h.sub
  fd := (hh.i32 _ (by decide) (by decide)).trans h.fd
  path := (hh.slice _ _ (by decide) (by decide)).trans h.path

theorem IsGet.putSub {path : CString} {client : Int} {sub : Nat} {f : Frame}
    (h : IsGet path client sub f) (sub' : Nat) (hsub : sub' < 4294967296) :
    IsGet path client sub' (f.putU32 subcommonid sub') where
  id := by
    rw [Region.u32_put_other _ _ _ _ (by simp) (by simp)]
    exact h.id
  sub := by rw [Region.u32_put_same _ _ _ (by simp), Nat.mod_eq_of_lt hsub]
  fd := by
    rw [Region.i32_put_other _ _ _ _ (by simp) (by simp)]
    exact h.fd
  path := by
    rw [Region.slice_put_other _ _ _ _ _ (by simp) (by simp)]
    exact h.path

theorem length_fileName (p : CString) : (p.toField FILE_LEN).length = 256 :=
  CString.length_toField 256 (by decide) p

theorem getRequest_isGet (cwd localPath client remotePath : CString) :
    IsGet (absolutePath cwd localPath) client.atoi NETMT_CLIENT
      (getRequest cwd localPath client remotePath) := by
  have hl := length_fileName (absolutePath cwd localPath)
  have hr := length_fileName (absolutePath cwd remotePath)
  constructor
  · simp [getRequest, fileRequest]
  · simp [getRequest, fileRequest]
  · simp [getRequest, fileRequest, CString.atoi]
  · rw [getRequest, fileRequest]
    rw [Region.slice_put_other _ _ _ _ _ (by simp) (by simp),
      Region.slice_put_other _ _ _ _ _ (by simp) (by simp),
      Region.slice_put_other _ _ _ _ _ (by simp) (by simp),
      Region.slice_put_other _ _ _ _ _ (by simp) (by simp),
      Region.slice_put_other _ _ _ _ _ (by rw [hr]; decide) (by simp),
      Region.slice_put_same _ _ _ _ (by rw [hl]; decide) (by rw [hl])]
    exact List.take_of_length_le (by rw [hl])

theorem getRequest_remotefile (cwd localPath client remotePath : CString) :
    Region.slice remotefile 256 (getRequest cwd localPath client remotePath).bytes =
      (absolutePath cwd remotePath).toField 256 := by
  have hr := length_fileName (absolutePath cwd remotePath)
  rw [getRequest, fileRequest]
  rw [Region.slice_put_other _ _ _ _ _ (by simp) (by simp),
    Region.slice_put_other _ _ _ _ _ (by simp) (by simp),
    Region.slice_put_other _ _ _ _ _ (by simp) (by simp),
    Region.slice_put_other _ _ _ _ _ (by simp) (by simp),
    Region.slice_put_same _ _ _ _ (by rw [hr]; decide) (by rw [hr])]
  exact List.take_of_length_le (by rw [hr])

/-! ## The client's answer -/

/-- The answer to a request. -/
abbrev Answer (path : CString) (client : Int) (content : List UInt8) (fs : List Frame) : Prop :=
  FileFrames (IsGet path client) NETMT_GET_END content (Region.wrap32 content.length) fs

theorem getFrames_answer {path : CString} {client : Int} {sub : Nat} {f : Frame}
    (h : IsGet path client sub f) (content : List UInt8) :
    Answer path client content (NetmtClient.getFrames f content).1 := by
  have hopened : IsGet path client NETMT_FILE_OPEN
      (setLen (f.putU32 subcommonid NETMT_FILE_OPEN)) :=
    (h.putSub _ (by decide)).of_sameHead (sameHead_setLen _)
  have hframes := fileFrames_readLoop NETMT_GET_END (fun _ _ _ hg hh => hg.of_sameHead hh)
    (fun _ _ hg => hg.putSub _ (by decide)) hopened (wellSized_setLen _)
    (hopened.putSub NETMT_DATA (by decide)) content 0
  rwa [Int.zero_add] at hframes

/-- The client opens the file that the request names, and answers. -/
theorem client_answers (env : Nat → NetmtClient.Env) (hopen : ∀ n, (env n).fopenOk = true)
    {path remotePath : CString} {client : Int} {f : Frame} (hf : IsGet path client NETMT_CLIENT f)
    (hremote : Region.slice remotefile 256 f.bytes = remotePath.toField 256)
    (c : NetmtClient.Client) (hm : c.mutex = false) (hc : c.closed = false) (hs : c.sendbuf = true)
    (content : List UInt8) (hcontent : c.files.content (remotePath.bytes.take 255) = some content) :
    ∃ c', NetmtClient.next env c f = some c' ∧
      c'.out = c.out ++ (NetmtClient.getFrames f content).1 := by
  have hname := cstrAt_field f [] remotefile remotePath hremote
  have hread := FileStore.openRead_eq c.files _ _ hcontent
  have hunread : (FileStore.mk c.files.content
      (c.files.streams ++ [⟨remotePath.bytes.take 255, true, 0⟩])).unread c.files.streams.length =
      content := by
    simp [FileStore.unread, hcontent]
  have hstream :
    (c.files.streams ++ [⟨remotePath.bytes.take 255, true, 0⟩])[c.files.streams.length]? =
      some ⟨remotePath.bytes.take 255, true, 0⟩ := List.getElem?_concat_length
  have hclose := @FileStore.close_eq ⟨c.files.content, _⟩ _ _ _ hstream
  have hget : ∃ c', NetmtClient.onGet (env c.tick) f [] { c with tick := c.tick + 1 } = .next c' ∧
      c'.out = c.out ++ (NetmtClient.getFrames f content).1 := by
    refine ⟨_, NetmtClient.GetStep.run
      (.sent hf.sub hname ((if_pos (hopen c.tick)).trans hread) hs hm hclose), ?_⟩
    simp only [hunread, NetmtClient.foldl_hioWrite, hc]
  obtain ⟨c', hnext, hout⟩ := hget
  refine ⟨c', ?_, hout⟩
  rw [NetmtClient.next, NetmtClient.switch_get hf.id, hnext]

/-! ## The server receives it -/

open NetmtServer

/-- Files open and are written completely. -/
structure Ready (env : Nat → NetmtServer.Env) : Prop where
  opens : ∀ n, (env n).fopenOk = true
  writes : ∀ n, (env n).fwriteLimit = none

/-- The server has received `b` for `path` since it was in state `s₀`. -/
structure Receiving (s₀ s : Server) (path b : List UInt8) : Prop where
  fp : ∃ id, s.fp = some id ∧ s.files.Writing id path b
  fsize : s.fsize = Region.wrap32 b.length
  mutex : s.mutex = false
  clients : s.clients = s₀.clients
  out : s.out = s₀.out
  others : ∀ p, p ≠ path → s.files.content p = s₀.files.content p

section Receive

variable {env : Nat → NetmtServer.Env} (he : Ready env) (io : Hio) {path : CString} {client : Int}

/-- The handler of a frame is the `NETMT_GET` case. -/
theorem next_get {s s' : Server} {sub : Nat} {f : Frame} (hf : IsGet path client sub f)
    (h : GetStep (env s.tick) f [] { s with tick := s.tick + 1 } (.next s')) :
    next env io s f = some s' := by
  rw [next, switch_get hf.id, h.run]

include he in
theorem open_receiving {s : Server} {f : Frame} (hm : s.mutex = false)
    (hf : IsGet path client NETMT_FILE_OPEN f) :
    ∃ s', next env io s f = some s' ∧ Receiving s s' (path.bytes.take 255) [] := by
  have hname := cstrAt_field f [] localfile path hf.path
  let files := s.files.openWrite (path.bytes.take 255)
  refine ⟨{ s with tick := s.tick + 1, files := files.1, fp := some files.2, fsize := 0 }, ?_,
    ⟨files.2, rfl, FileStore.openWrite_writing _ _⟩, rfl, hm, rfl, rfl, ?_⟩
  · exact next_get io hf (.opened hf.sub hname (he.opens _))
  · intro p hp
    exact FileStore.openWrite_content_other _ _ _ hp

include he in
theorem data_receiving {s₀ s : Server} {b block : List UInt8} {p : List UInt8} {f buf : Frame}
    (hr : Receiving s₀ s p b) (hf : IsGet path client NETMT_DATA f) (hd : IsData buf block f)
    (hb : block.length ≤ BUFFER_SIZE) :
    ∃ s', next env io s f = some s' ∧ Receiving s₀ s' p (b ++ block) := by
  obtain ⟨id, hfp, hw⟩ := hr.fp
  obtain ⟨files, hwrite, hw', hother⟩ := hw.write block
  have hdata := fwriteData_isData hd hb s.files id []
  rw [hwrite] at hdata
  have hcount : Region.wrap32 (s.fsize + block.length) = Region.wrap32 (b ++ block).length := by
    rw [hr.fsize, Region.wrap32_add_wrap32, List.length_append, Nat.cast_add]
  refine ⟨{ s with
      tick := s.tick + 1, files := files, fsize := Region.wrap32 (s.fsize + block.length) },
    ?_, ⟨id, hfp, hw'⟩, hcount, hr.mutex, hr.clients, hr.out, ?_⟩
  · have hfull : ¬ ((block.length : Int) < f.i32 dataSize) := by rw [hd.dataSize]; omega
    rw [← hfp, ← he.writes s.tick] at hdata
    exact next_get io hf (.written hf.sub hr.mutex hdata hfull)
  · intro q hq
    exact (hother q hq).trans (hr.others q hq)

/-- The acknowledgement of a transfer. -/
def acknowledge (f : Frame) : Frame := setLen (f.putU32 subcommonid NETMT_GET_SUCCESS)

variable (env) in
theorem end_receiving {s₀ s : Server} {b p : List UInt8} {f : Frame} (hr : Receiving s₀ s p b)
    (hf : IsGet path client NETMT_GET_END f) (hsize : f.i32 byteSize = Region.wrap32 b.length) :
    ∃ s', next env io s f = some s' ∧ s'.files.content p = some b ∧
      s'.fsize = Region.wrap32 b.length ∧ s'.mutex = false ∧ s'.clients = s₀.clients ∧
      s'.out = s₀.out ++ ((s₀.clients.filter fun conn => conn.io.fd = client).map
        fun conn => (conn.io, acknowledge f)) ∧
      (∀ q, q ≠ p → s'.files.content q = s₀.files.content q) ∧
      ∃ id, s'.fp = some id ∧ s'.files.isOpen id = false := by
  obtain ⟨id, hfp, hw⟩ := hr.fp
  obtain ⟨files, hclose, hcontent, hclosed⟩ := hw.close
  refine ⟨{ s with
    tick := s.tick + 1, files := files,
    out := s.out ++ ((s.clients.filter fun conn => conn.io.fd = client).map
      fun conn => (conn.io, acknowledge f)) }, ?_, ?_, hr.fsize, hr.mutex,
        hr.clients, ?_, ?_, id, hfp,
    hclosed⟩
  · have heq : f.i32 byteSize = s.fsize := hsize.trans hr.fsize.symm
    have hstream := fcloseStream_ok hfp hclose
    rw [← hf.fd]
    exact next_get io hf (.complete hf.sub hstream heq)
  · change files.content p = some b
    rw [hcontent, hw.content]
  · change s.out ++ _ = _
    rw [hr.out, hr.clients]
  · intro q hq
    change files.content q = _
    rw [hcontent, hr.others q hq]

/-- Whatever size it announces, `GET_END` closes the file. -/
theorem end_closes {s₀ s : Server} {b p : List UInt8} {f : Frame} (hr : Receiving s₀ s p b)
    (hf : IsGet path client NETMT_GET_END f) :
    ∃ s', next env io s f = some s' ∧ s'.mutex = false ∧
      ∀ id, s'.fp = some id → s'.files.isOpen id = false := by
  obtain ⟨id, hfp, hw⟩ := hr.fp
  obtain ⟨files, hclose, -, hclosed⟩ := hw.close
  have hnext : ∃ s', next env io s f = some s' ∧ s'.mutex = s.mutex ∧ s'.fp = some id ∧
      s'.files = files := by
    have hstream := fcloseStream_ok hfp hclose
    by_cases hsize : f.i32 byteSize = s.fsize
    · exact ⟨_, next_get io hf (.complete hf.sub hstream hsize), rfl, hfp, rfl⟩
    · exact ⟨_, next_get io hf (.incomplete hf.sub hstream hsize), rfl, hfp, rfl⟩
  obtain ⟨s', hn, hm, hfp', hfiles⟩ := hnext
  refine ⟨s', hn, hm.trans hr.mutex, ?_⟩
  intro id' hid'
  rw [hfp'] at hid'
  cases hid'
  rw [hfiles]
  exact hclosed

include he in
theorem blocks_receiving {s₀ : Server} {p : List UInt8} {blocks : List (List UInt8)}
    {fs : List Frame}
    (h : List.Forall₂ (fun b f => IsGet path client NETMT_DATA f ∧ ∃ buf, IsData buf b f) blocks fs)
    (hb : ∀ b ∈ blocks, b.length ≤ BUFFER_SIZE) (s : Server) (b : List UInt8)
    (hr : Receiving s₀ s p b) :
    ∃ s', fs.foldlM (next env io) s = some s' ∧ Receiving s₀ s' p (b ++ blocks.flatten) := by
  induction h generalizing s b with
  | nil => exact ⟨s, rfl, by rwa [List.flatten_nil, List.append_nil]⟩
  | cons hd _ ih =>
    obtain ⟨hget, buf, hdata⟩ := hd
    obtain ⟨s₁, hnext, hr₁⟩ := data_receiving he io hr hget hdata (hb _ (by simp))
    obtain ⟨s₂, hrest, hr₂⟩ := ih (fun c hc => hb c (by simp [hc])) s₁ _ hr₁
    refine ⟨s₂, ?_, by rwa [List.flatten_cons, ← List.append_assoc]⟩
    rw [List.foldlM_cons, hnext]
    exact hrest

/-- A transfer of `b` to `p` is complete, and was acknowledged to `client`. -/
structure Fetched (s₀ s : Server) (p b : List UInt8) (client : Int) : Prop where
  content : s.files.content p = some b
  fsize : s.fsize = Region.wrap32 b.length
  mutex : s.mutex = false
  clients : s.clients = s₀.clients
  others : ∀ q, q ≠ p → s.files.content q = s₀.files.content q
  idle : ∀ id, s.fp = some id → s.files.isOpen id = false
  out : ∃ f, f.u32 subcommonid = NETMT_GET_SUCCESS ∧ s.out = s₀.out ++
    ((s₀.clients.filter fun conn => conn.io.fd = client).map fun conn => (conn.io, f))

theorem end_fetched {s₀ s : Server} {b p : List UInt8} {f : Frame} (hr : Receiving s₀ s p b)
    (hf : IsGet path client NETMT_GET_END f) (hsize : f.i32 byteSize = Region.wrap32 b.length) :
    ∃ s', next env io s f = some s' ∧ Fetched s₀ s' p b client := by
  obtain ⟨s', hnext, hcontent, hfsize, hm, hcl, hout, hother, id, hfp, hclosed⟩ :=
    end_receiving env io hr hf hsize
  refine ⟨s', hnext, hcontent, hfsize, hm, hcl, hother, ?_,
    acknowledge f, by simp [acknowledge], hout⟩
  intro id' hid'
  rw [hfp] at hid'
  cases hid'
  exact hclosed

include he in
/-- A whole answer, starting from any state. -/
theorem answer_fetched {content : List UInt8} {fs : List Frame} (h : Answer path client content fs)
    {s : Server} (hm : s.mutex = false) :
    ∃ s', fs.foldlM (next env io) s = some s' ∧
      Fetched s s' (path.bytes.take 255) content client := by
  obtain ⟨opened, blocks, ending, rfl, hopen, hblocks, hend, hsize⟩ := h.frames
  obtain ⟨s₁, hn₁, hr₁⟩ := open_receiving he io hm hopen
  obtain ⟨s₂, hn₂, hr₂⟩ := blocks_receiving he io hblocks (fun b hb => block_le hb) s₁ [] hr₁
  rw [List.nil_append, Framing.flatten_chunks] at hr₂
  obtain ⟨s₃, hn₃, hf⟩ := end_fetched io hr₂ hend hsize
  exact ⟨s₃, foldlM_fileFrames hn₁ hn₂ hn₃, hf⟩

end Receive

/-! ## One `get` from end to end -/

theorem getNetmt_out (cwd localPath client remotePath : CString) (s : Server) (conn : IoT)
    (hconn : conn ∈ s.clients) (hfd : conn.io.fd = client.atoi)
    (hdistinct : (s.clients.map fun conn => conn.io.fd).Nodup) :
    (getNetmt cwd [localPath, client, remotePath] s).1 =
      { s with out := s.out ++ [(conn.io, getRequest cwd localPath client remotePath)] } := by
  rw [getNetmt, broadcast, ← hfd, filter_fd s.clients hdistinct conn hconn]
  rfl

/-- What the client sends when it is asked, however the request is cut. -/
theorem client_answers_run (env : Nat → NetmtClient.Env) (hopen : ∀ n, (env n).fopenOk = true)
    (cwd localPath client remotePath : CString) (c : NetmtClient.Client) (hm : c.mutex = false)
    (hc : c.closed = false) (content : List UInt8)
    (hcontent : c.files.content ((absolutePath cwd remotePath).bytes.take 255) = some content)
    {rx : Rx} (hrx : Holds rx []) (reads : List (List UInt8))
    (hreads : ∀ r ∈ reads, 1 ≤ r.length ∧ r.length ≤ 8192)
    (hcut : reads.flatten = (getRequest cwd localPath client remotePath).bytes)
    (run : Run NetmtClient.Client)
    (hrun : recvAll (NetmtClient.handle env) NetmtClient.enter reads rx c = run) :
    run.state.out = c.out ++
      (NetmtClient.getFrames (getRequest cwd localPath client remotePath) content).1 := by
  have hget := getRequest_isGet cwd localPath client remotePath
  have hremote := getRequest_remotefile cwd localPath client remotePath
  have hsized : WellSized (getRequest cwd localPath client remotePath) := wellSized_setLen _
  generalize getRequest cwd localPath client remotePath = f at *
  let I : List Frame → NetmtClient.Client → Prop := fun d t =>
    (d = [] → t = NetmtClient.enter c) ∧
    (d = [f] → t.out = c.out ++ (NetmtClient.getFrames f content).1)
  have henter : ∀ d t, I d t → I d (NetmtClient.enter t) := by
    rintro d t ⟨hnil, hone⟩
    exact ⟨fun hd => by rw [hnil hd]; rfl, hone⟩
  have hstep : ∀ d g todo db off t, [f] = d ++ g :: todo → I d t → HasAt db off g.bytes →
      ∃ db' t', NetmtClient.handle env db off t = .next db' t' ∧ I (d ++ [g]) t' := by
    intro d g todo db off t hsplit hI hat
    cases d with
    | cons _ d => simp at hsplit
    | nil =>
      obtain rfl : f = g := (List.cons.inj hsplit).1
      rw [hI.1 rfl]
      obtain ⟨c', hnext, hout⟩ :=
        client_answers env hopen hget hremote (NetmtClient.enter c) hm hc rfl
        content hcontent
      exact ⟨_, c', NetmtClient.handle_next env hnext db off hat, by simp, fun _ => hout⟩
  have hws : ∀ g ∈ [f], WellSized g := fun g hg => List.mem_singleton.mp hg ▸ hsized
  have hout :=
    (recvAll_complete (I := I) (NetmtClient.handle_local env) henter reads hreads [f] hws hstep
    [] partial_nil hrx (by simpa using hcut) (NetmtClient.enter c)
      ⟨fun _ => rfl, by simp⟩ _ rfl).2.2 rfl
  rw [← hrun]
  rcases recvAll_enter (NetmtClient.handle env) NetmtClient.enter_enter reads rx
    c with heq | ⟨hc, hec⟩
  · rw [heq, hout]
  · rw [hec] at hout
    rw [hc]
    exact hout

/-- What the server does with an answer, however it is cut. -/
theorem server_fetches_run {env : Nat → NetmtServer.Env} (he : Ready env) (io : Hio)
    {path : CString} {client : Int} {content : List UInt8} {fs : List Frame}
    (h : Answer path client content fs) {s : Server} (hm : s.mutex = false)
    {rx : Rx} (hrx : Holds rx []) (reads : List (List UInt8))
    (hreads : ∀ r ∈ reads, 1 ≤ r.length ∧ r.length ≤ 8192) (hcut : reads.flatten = stream fs)
    (run : Run Server) (hrun : recvAll (NetmtServer.handle env io) id reads rx s = run) :
    Fetched s run.state (path.bytes.take 255) content client := by
  obtain ⟨s', hs, hf⟩ := answer_fetched he io h hm
  have hfollow := recvAll_follows (NetmtServer.handle_local env io) (next env io)
    (fun s f s' hn db off hat => ⟨db, NetmtServer.handle_next env io hn db off hat⟩) reads hreads fs
    h.sized s s' hs (fun _ _ _ _ => rfl) hrx hcut run hrun
  rw [hfollow.2]
  exact hf

/-- One `get` with nothing else going on: the file arrives byte for byte, its size
is the one announced, and the client that was asked is told so once. -/
theorem get_end_to_end (cenv : Nat → NetmtClient.Env) (hopens : ∀ n, (cenv n).fopenOk = true)
    (senv : Nat → NetmtServer.Env) (hready : Ready senv)
    (cwd localPath client remotePath : CString)
    (s : Server) (hunlocked : s.mutex = false) (conn : IoT) (hconn : conn ∈ s.clients)
    (hfd : conn.io.fd = client.atoi) (hdistinct : (s.clients.map fun conn => conn.io.fd).Nodup)
    (c : NetmtClient.Client) (hm : c.mutex = false) (hc : c.closed = false) (content : List UInt8)
    (hcontent : c.files.content ((absolutePath cwd remotePath).bytes.take 255) = some content)
    (crx : Rx) (hcrx : Holds crx []) (requestReads : List (List UInt8))
    (hrequestReads : ∀ r ∈ requestReads, 1 ≤ r.length ∧ r.length ≤ 8192)
    (hrequest : requestReads.flatten = (getRequest cwd localPath client remotePath).bytes)
    (crun : Run NetmtClient.Client)
    (hcrun : recvAll (NetmtClient.handle cenv) NetmtClient.enter requestReads crx c = crun)
    (answer : List Frame) (hanswer : crun.state.out = c.out ++ answer)
    (srx : Rx) (hsrx : Holds srx []) (answerReads : List (List UInt8))
    (hanswerReads : ∀ r ∈ answerReads, 1 ≤ r.length ∧ r.length ≤ 8192)
    (hcut : answerReads.flatten = stream answer)
    (srun : Run Server)
    (hsrun : recvAll (NetmtServer.handle senv conn.io) id answerReads srx
      (getNetmt cwd [localPath, client, remotePath] s).1 = srun) :
    srun.state.files.content ((absolutePath cwd localPath).bytes.take 255) = some content ∧
    (∀ f ∈ answer, f.u32 subcommonid = NETMT_GET_END → f.i32 byteSize = srun.state.fsize) ∧
    ∃ f, f.u32 subcommonid = NETMT_GET_SUCCESS ∧ srun.state.out =
      s.out ++ [(conn.io, getRequest cwd localPath client remotePath), (conn.io, f)] := by
  have hsent :=
    client_answers_run cenv hopens cwd localPath client remotePath c hm hc content hcontent
    hcrx requestReads hrequestReads hrequest crun hcrun
  rw [hanswer] at hsent
  obtain rfl := List.append_cancel_left hsent
  have hans := getFrames_answer (getRequest_isGet cwd localPath client remotePath) content
  have hstate := getNetmt_out cwd localPath client remotePath s conn hconn hfd hdistinct
  have hfetched := server_fetches_run hready conn.io hans (by rw [hstate]; exact hunlocked) hsrx
    answerReads hanswerReads hcut srun hsrun
  refine ⟨hfetched.content, fun f hf hend => ?_, ?_⟩
  · rw [hans.byteSize IsGet.sub (by decide) (by decide) f hf hend, hfetched.fsize]
  · obtain ⟨f, hsub, hout⟩ := hfetched.out
    refine ⟨f, hsub, ?_⟩
    rw [hout, hstate, ← hfd, filter_fd s.clients hdistinct conn hconn, List.append_assoc]
    rfl

/-- Three bytes are fetched from `/b` to `/a`, from a client at descriptor 7; the
answer arrives a frame at a time. -/
theorem get_end_to_end_three_bytes :
    ∃ (srun : Run Server) (f : Frame), srun.state.files.content [47, 97] = some [1, 2, 3] ∧
      f.u32 subcommonid = NETMT_GET_SUCCESS ∧ (⟨1, 7⟩, f) ∈ srun.state.out := by
  let cenv : Nat → NetmtClient.Env := fun _ => ⟨true, none, default, none⟩
  let senv : Nat → NetmtServer.Env := fun _ => ⟨0, true, none, 0⟩
  let cwd : CString := ⟨[47], by decide⟩
  let localPath : CString := ⟨[47, 97], by decide⟩
  let remotePath : CString := ⟨[47, 98], by decide⟩
  let client : CString := ⟨[55], by decide⟩
  let conn : IoT := ⟨⟨1, 7⟩, default, [], DATABUF, 0, 0⟩
  let s : Server := { NetmtServer.initial FileStore.empty with clients := [conn] }
  let c := NetmtClient.initial (FileStore.empty.setContent [47, 98] [1, 2, 3])
  let request := getRequest cwd localPath client remotePath
  have hreads : ∀ fs : List Frame, ∀ r ∈ fs.map Region.bytes, 1 ≤ r.length ∧ r.length ≤ 8192 := by
    intro fs r hr
    obtain ⟨f, -, rfl⟩ := List.mem_map.mp hr
    rw [f.length_bytes]
    decide
  have hone : ∀ f : Frame, ([f].map Region.bytes).flatten = f.bytes := by simp
  have hrequest := hone request
  have hpath : (absolutePath cwd localPath).bytes.take 255 = [47, 97] := by decide
  have hanswer := client_answers_run cenv (fun _ => rfl) cwd localPath client remotePath c rfl rfl
    [1, 2, 3] rfl holds_initial _ (hreads [request]) hrequest _ rfl
  generalize hcrun : recvAll (NetmtClient.handle cenv) NetmtClient.enter
    ([request].map Region.bytes)
    Rx.initial c = crun at hanswer
  generalize (NetmtClient.getFrames (getRequest cwd localPath client remotePath) [1, 2, 3]).1 =
    answer
    at hanswer
  obtain ⟨srun, hsrun⟩ : ∃ srun, recvAll (NetmtServer.handle senv conn.io) id
    (answer.map Region.bytes)
    Rx.initial (getNetmt cwd [localPath, client, remotePath] s).1 = srun := ⟨_, rfl⟩
  obtain ⟨hcontent, -, f, hsub, hout⟩ := get_end_to_end cenv (fun _ => rfl) senv
    ⟨fun _ => rfl, fun _ => rfl⟩ cwd localPath client remotePath s rfl conn
      (List.mem_singleton_self _)
    (by decide) (by simp [s]) c rfl rfl [1, 2, 3] rfl Rx.initial holds_initial _ (hreads [request])
    hrequest crun hcrun answer hanswer Rx.initial holds_initial _ (hreads answer) rfl srun hsrun
  rw [hpath] at hcontent
  refine ⟨srun, f, hcontent, hsub, ?_⟩
  rw [hout, List.mem_append]
  exact Or.inr (by simp [conn])

end NetmtGetTransfer
