import Netmt.Client
import Netmt.Reads
import Netmt.SendTransfer

/-!
# Several sends in one process

The byte counter of the server is a global that every `DATA` loop adds to, while
each client counts from its own `FILE_OPEN`. The sizes that are announced are
therefore those of the files exactly as long as the counter comes round to zero.
-/
namespace NetmtRepeatedSends

open NetmtCommand NetmtTcpRecv NetmtTransfer NetmtReads NetmtServer NetmtServerCommand
open NetmtSendTransfer

/-- A `send` whose words select some mode. -/
structure SendCommand where
  argv : List CString
  localPath : CString
  remotePath : CString
  select : IoT → Bool
  words : SendWords argv localPath remotePath select

/-- The contents of the files of a machine, by path. -/
abbrev Disk := List UInt8 → Option (List UInt8)

def SendCommand.path (c : SendCommand) (cwd : CString) : List UInt8 :=
  (absolutePath cwd c.localPath).bytes

/-- What the command's file holds. -/
def SendCommand.content (c : SendCommand) (cwd : CString) (disk : Disk) : List UInt8 :=
  (disk (c.path cwd)).getD []

/-- How many bytes the commands read from their files. -/
def total (cwd : CString) (disk : Disk) (cs : List SendCommand) : Int :=
  (cs.map fun c => ((c.content cwd disk).length : Int)).sum

/-- The commands one after the other. -/
def sendAll (cwd : CString) : List SendCommand → Host → Except Fault Host
  | [], h => .ok h
  | c :: cs, h => (sendNetmt cwd c.argv true h).bind fun r => sendAll cwd cs r.1

/-- The frames of one `send`, as its recipients get them. -/
structure IsSend (path : CString) (sub : Nat) (f : Frame) : Prop where
  id : f.u32 commonid = NETMT_SEND
  sub : f.u32 subcommonid = sub
  path : Region.slice remotefile 256 f.bytes = path.toField 256

theorem IsSend.of_sameHead {path : CString} {sub : Nat} {f g : Frame} (h : IsSend path sub g)
    (hh : SameHead f g) : IsSend path sub f where
  id := (hh.u32 _ (by decide) (by decide)).trans h.id
  sub := (hh.u32 _ (by decide) (by decide)).trans h.sub
  path := (hh.slice _ _ (by decide) (by decide)).trans h.path

theorem IsSend.putSub {path : CString} {sub : Nat} {f : Frame} (h : IsSend path sub f) (sub' : Nat)
    (hsub : sub' < 4294967296) : IsSend path sub' (f.putU32 subcommonid sub') where
  id := by
    rw [Region.u32_put_other _ _ _ _ (by simp) (by simp)]
    exact h.id
  sub := by rw [Region.u32_put_same _ _ _ (by simp), Nat.mod_eq_of_lt hsub]
  path := by
    rw [Region.slice_put_other _ _ _ _ _ (by simp) (by simp)]
    exact h.path

theorem sendRequest_isSend (cwd localPath remotePath : CString) :
    IsSend (absolutePath cwd remotePath) NETMT_FILE_OPEN
      (sendRequest cwd localPath remotePath) := by
  have hr : ((absolutePath cwd remotePath).toField FILE_LEN).length = 256 :=
    CString.length_toField 256 (by decide) _
  constructor
  · simp [sendRequest, fileRequest]
  · simp [sendRequest, fileRequest]
  · rw [sendRequest, fileRequest]
    rw [Region.slice_put_other _ _ _ _ _ (by simp) (by simp),
      Region.slice_put_other _ _ _ _ _ (by simp) (by simp),
      Region.slice_put_other _ _ _ _ _ (by simp) (by simp),
      Region.slice_put_same _ _ _ _ (by rw [hr]; decide) (by rw [hr])]
    exact List.take_of_length_le (by rw [hr])

/-- The frames of a delivery that announces `total` bytes. -/
abbrev Delivery (path : CString) (content : List UInt8) (total : Int) (fs : List Frame) : Prop :=
  FileFrames (IsSend path) NETMT_SEND_END content total fs

/-! ## The server's side -/

/-- The frames of one `send`. -/
structure SendFrames where
  opened : Frame
  datas : List Frame
  ending : Frame

def SendFrames.all (fs : SendFrames) : List Frame := fs.opened :: (fs.datas ++ [fs.ending])

/-- What the three passes write, whichever entries they select. -/
def sendFrames (cwd localPath remotePath : CString) (content : List UInt8) (filebytes : Int) :
    SendFrames :=
  let request := sendRequest cwd localPath remotePath
  let r := readLoop (Framing.chunks BUFFER_SIZE content)
    (request.putU32 subcommonid NETMT_DATA) filebytes
  ⟨request, r.1, endFrame r.2.1 NETMT_SEND_END r.2.2⟩

/-- The passes over a list of entries. -/
def sendOut (select : IoT → Bool) (clients : List IoT) (fs : SendFrames) : List (Hio × Frame) :=
  passOut select clients fs.opened ++ passesOut select clients fs.datas ++
    passOut select clients fs.ending

theorem sendFrames_delivery (cwd localPath remotePath : CString) (content : List UInt8)
    (filebytes : Int) : Delivery (absolutePath cwd remotePath) content
      (Region.wrap32 (filebytes + content.length))
      (sendFrames cwd localPath remotePath content filebytes).all := by
  have hbuf := sendRequest_isSend cwd localPath remotePath
  exact fileFrames_readLoop NETMT_SEND_END (fun _ _ _ hg hh => hg.of_sameHead hh)
    (fun _ _ hg => hg.putSub _ (by decide)) hbuf (wellSized_setLen _)
    (hbuf.putSub NETMT_DATA (by decide)) content filebytes

/-- One `send` with nothing in between writes its frames to the selected entries. -/
theorem sendNetmt_out (cwd : CString) (c : SendCommand) (h : Host) (content : List UInt8)
    (hfile : h.server.files.content (c.path cwd) = some content) :
    ∃ h', sendNetmt cwd c.argv true h = .ok (h', .CMD_SUCCESS) ∧
      h'.server.out = h.server.out ++ sendOut c.select h.server.clients
        (sendFrames cwd c.localPath c.remotePath content h.filebytes) ∧
      h'.server.clients = h.server.clients ∧ h'.server.files.content = h.server.files.content ∧
      Region.wrap32 h'.filebytes = Region.wrap32 (h.filebytes + content.length) := by
  have hopen := FileStore.openRead_eq h.server.files _ _ hfile
  obtain ⟨b, hb, hsame, hr⟩ := FileStore.openRead_reading hopen
  rw [hfile] at hb
  cases hb
  obtain ⟨files', hclose, hcontent⟩ := hr.close
  have hbegin := sendBegin_eq cwd h c.words hopen
  generalize h.server.files.streams.length = id at *
  generalize FileStore.mk h.server.files.content _ = files at *
  let t : Sending := ⟨c.select, sendRequest cwd c.localPath c.remotePath⟩
  have hcount := (blockFrames_spec t content h.filebytes).2.2
  obtain ⟨h', hpasses, hclients, hfiles, hbytes, hout⟩ := sendPasses_eq t (opened h files id) rfl hr
    hclose
  refine ⟨h', ?_, hout, hclients, ?_, ?_⟩
  · rw [sendNetmt, hbegin]
    simp only [t] at hpasses
    simp only [hpasses, Except.map]
  · rw [hfiles, hcontent, hsame]
  · rw [hbytes]
    exact hcount

/-! ## The client's side -/

/-- Files open and are written completely. -/
structure Ready (env : Nat → NetmtClient.Env) : Prop where
  opens : ∀ n, (env n).fopenOk = true
  writes : ∀ n, (env n).fwriteLimit = none

/-- A connected client inside a call of `tcp_recv`. -/
structure Serving (c : NetmtClient.Client) : Prop where
  mutex : c.mutex = false
  closed : c.closed = false
  sendbuf : c.sendbuf = true

/-- The client has stored `b` since it was in state `c₀`. -/
structure Storing (c₀ c : NetmtClient.Client) (path b : List UInt8) : Prop where
  fp : ∃ id, c.fp = some id ∧ c.files.Writing id path b
  filebytes : c.filebytes = Region.wrap32 b.length
  serving : Serving c
  out : c.out = c₀.out

section Client

variable {env : Nat → NetmtClient.Env} (he : Ready env) {path : CString}

/-- The handler of a frame is the `NETMT_SEND` case. -/
theorem next_send {c c' : NetmtClient.Client} {f : Frame} (hid : f.u32 commonid = NETMT_SEND) :
    NetmtClient.next env c f = some c' ↔
      NetmtClient.SendStep (env c.tick) f [] { c with tick := c.tick + 1 } (.next c') := by
  rw [NetmtClient.next, NetmtClient.switch_send hid, ← NetmtClient.onSend_iff]
  cases NetmtClient.onSend (env c.tick) f [] { c with tick := c.tick + 1 } <;> simp

include he in
theorem open_storing {c : NetmtClient.Client} {f : Frame} (hs : Serving c)
    (hf : IsSend path NETMT_FILE_OPEN f) :
    ∃ c', NetmtClient.next env c f = some c' ∧ Storing c c' (path.bytes.take 255) [] := by
  have hname := cstrAt_field f [] remotefile path hf.path
  let files := c.files.openWrite (path.bytes.take 255)
  refine ⟨{ c with tick := c.tick + 1, files := files.1, fp := some files.2, filebytes := 0 }, ?_,
    ⟨files.2, rfl, FileStore.openWrite_writing _ _⟩, rfl, ⟨hs.mutex, hs.closed, hs.sendbuf⟩, rfl⟩
  exact (next_send hf.id).mpr (.opened hf.sub hname (he.opens _))

include he in
theorem data_storing {c₀ c : NetmtClient.Client} {b block p : List UInt8} {f buf : Frame}
    (hr : Storing c₀ c p b) (hf : IsSend path NETMT_DATA f) (hd : IsData buf block f)
    (hb : block.length ≤ BUFFER_SIZE) :
    ∃ c', NetmtClient.next env c f = some c' ∧ Storing c₀ c' p (b ++ block) := by
  obtain ⟨id, hfp, hw⟩ := hr.fp
  obtain ⟨files, hwrite, hw', -⟩ := hw.write block
  have hdata := fwriteData_isData hd hb c.files id []
  rw [hwrite] at hdata
  have hcount : Region.wrap32 (c.filebytes + block.length) = Region.wrap32 (b ++ block).length := by
    rw [hr.filebytes, Region.wrap32_add_wrap32, List.length_append, Nat.cast_add]
  refine ⟨{ c with
      tick := c.tick + 1
      files := files
      filebytes := Region.wrap32 (c.filebytes + block.length) }, ?_,
    ⟨id, hfp, hw'⟩, hcount, ⟨hr.serving.mutex, hr.serving.closed, hr.serving.sendbuf⟩, hr.out⟩
  have hfull : ¬ ((block.length : Int) < f.i32 dataSize) := by rw [hd.dataSize]; omega
  rw [← hfp, ← he.writes c.tick] at hdata
  exact (next_send hf.id).mpr (.written hf.sub hr.serving.mutex hdata hfull)

include he in
theorem blocks_storing {c₀ : NetmtClient.Client} {p : List UInt8} {blocks : List (List UInt8)}
    {fs : List Frame}
    (h : List.Forall₂ (fun b f => IsSend path NETMT_DATA f ∧ ∃ buf, IsData buf b f) blocks fs)
    (hb : ∀ b ∈ blocks, b.length ≤ BUFFER_SIZE) (c : NetmtClient.Client) (b : List UInt8)
    (hr : Storing c₀ c p b) :
    ∃ c', fs.foldlM (NetmtClient.next env) c = some c' ∧ Storing c₀ c' p (b ++ blocks.flatten) := by
  induction h generalizing c b with
  | nil => exact ⟨c, rfl, by rwa [List.flatten_nil, List.append_nil]⟩
  | cons hd _ ih =>
    obtain ⟨hsend, buf, hdata⟩ := hd
    obtain ⟨c₁, hnext, hr₁⟩ := data_storing he hr hsend hdata (hb _ (by simp))
    obtain ⟨c₂, hrest, hr₂⟩ := ih (fun d hd => hb d (by simp [hd])) c₁ _ hr₁
    refine ⟨c₂, ?_, by rwa [List.flatten_cons, ← List.append_assoc]⟩
    rw [List.foldlM_cons, hnext]
    exact hrest

variable (env) in
/-- A size that agrees is acknowledged. -/
theorem end_storing {c₀ c : NetmtClient.Client} {b p : List UInt8} {f : Frame}
    (hr : Storing c₀ c p b) (hf : IsSend path NETMT_SEND_END f)
    (hsize : f.i32 byteSize = Region.wrap32 b.length) :
    ∃ c', NetmtClient.next env c f = some c' ∧ Serving c' ∧
      c'.out = c₀.out ++ [f.putU32 subcommonid NETMT_SEND_SUCCESS] := by
  obtain ⟨id, hfp, hw⟩ := hr.fp
  obtain ⟨files, hclose, -, -⟩ := hw.close
  have heq : f.i32 byteSize = c.filebytes := hsize.trans hr.filebytes.symm
  have hstream := fcloseStream_ok hfp hclose
  refine ⟨_, (next_send hf.id).mpr (.complete hf.sub hstream heq hr.serving.sendbuf), ?_, ?_⟩
  · exact ⟨(NetmtClient.hioWrite_mutex _ _).trans hr.serving.mutex,
      (NetmtClient.hioWrite_closed _ _).trans hr.serving.closed,
      (NetmtClient.hioWrite_sendbuf _ _).trans hr.serving.sendbuf⟩
  · rw [NetmtClient.hioWrite, if_neg (by simp [hr.serving.closed]), ← hr.out]

/-- `NETMT_SEND_SUCCESS`. -/
def IsAck (f : Frame) : Prop :=
  f.u32 commonid = NETMT_SEND ∧ f.u32 subcommonid = NETMT_SEND_SUCCESS

include he in
/-- A delivery that announces its own size is acknowledged once. -/
theorem delivery_acknowledged {content : List UInt8} {total : Int} {fs : List Frame}
    (h : Delivery path content total fs) (htotal : total = Region.wrap32 content.length)
    {c : NetmtClient.Client} (hs : Serving c) :
    ∃ c' ack, fs.foldlM (NetmtClient.next env) c = some c' ∧ Serving c' ∧ IsAck ack ∧
      c'.out = c.out ++ [ack] := by
  obtain ⟨opened, blocks, ending, rfl, hopen, hblocks, hend, hsize⟩ := h.frames
  obtain ⟨c₁, hn₁, hr₁⟩ := open_storing he hs hopen
  obtain ⟨c₂, hn₂, hr₂⟩ := blocks_storing he hblocks (fun b hb => block_le hb) c₁ [] hr₁
  rw [List.nil_append, Framing.flatten_chunks] at hr₂
  obtain ⟨c₃, hn₃, hs₃, hout⟩ := end_storing env hr₂ hend (hsize.trans htotal)
  have hack := hend.putSub NETMT_SEND_SUCCESS (by decide)
  exact ⟨c₃, _, foldlM_fileFrames hn₁ hn₂ hn₃, hs₃, ⟨hack.id, hack.sub⟩, hout⟩

/-- `sendbuf` outlives every frame of a delivery. -/
theorem next_sendbuf {c c' : NetmtClient.Client} {f : Frame} (hid : f.u32 commonid = NETMT_SEND)
    (hn : NetmtClient.next env c f = some c') : c'.sendbuf = c.sendbuf := by
  have hkept := NetmtClient.onSend_keeps ((next_send hid).mp hn).run
  exact hkept.1

theorem foldlM_sendbuf {fs : List Frame} (hid : ∀ f ∈ fs, f.u32 commonid = NETMT_SEND)
    {c c' : NetmtClient.Client} (hn : fs.foldlM (NetmtClient.next env) c = some c') :
    c'.sendbuf = c.sendbuf := by
  induction fs generalizing c with
  | nil =>
    cases hn
    rfl
  | cons f fs ih =>
    rw [List.foldlM_cons] at hn
    cases hf : NetmtClient.next env c f with
    | none => simp [hf] at hn
    | some d =>
      rw [hf] at hn
      rw [ih (fun g hg => hid g (by simp [hg])) hn, next_sendbuf (hid f (by simp)) hf]

end Client

theorem delivery_id {path : CString} {content : List UInt8} {n : Int} {fs : List Frame}
    (h : Delivery path content n fs) : ∀ f ∈ fs, f.u32 commonid = NETMT_SEND := by
  intro f hf
  obtain ⟨sub, hsend⟩ := h.all f hf
  exact hsend.id

/-! ## A run of commands -/

/-- What a run of commands writes to the connection of an entry, when `n` bytes were
counted before. -/
inductive Deliveries (cwd : CString) (disk : Disk) (conn : IoT) :
    Int → List SendCommand → List Frame → Prop where
  | nil (n : Int) : Deliveries cwd disk conn n [] []
  | skip {n : Int} {c : SendCommand} {cs : List SendCommand} {fs : List Frame} :
      c.select conn = false → Deliveries cwd disk conn (n + (c.content cwd disk).length) cs fs →
      Deliveries cwd disk conn n (c :: cs) fs
  | take {n : Int} {c : SendCommand} {cs : List SendCommand} {gs fs : List Frame} :
      c.select conn = true →
      Delivery (absolutePath cwd c.remotePath) (c.content cwd disk)
        (Region.wrap32 (n + (c.content cwd disk).length)) gs →
      Deliveries cwd disk conn (n + (c.content cwd disk).length) cs fs →
      Deliveries cwd disk conn n (c :: cs) (gs ++ fs)

theorem Deliveries.frames {cwd : CString} {disk : Disk} {conn : IoT} {n : Int}
    {cs : List SendCommand} {fs : List Frame} (h : Deliveries cwd disk conn n cs fs) :
    ∀ f ∈ fs, f.u32 commonid = NETMT_SEND ∧ WellSized f := by
  induction h with
  | nil n => simp
  | skip _ _ ih => exact ih
  | take _ hd _ ih =>
    intro f hf
    cases List.mem_append.mp hf with
    | inl hf =>
      exact ⟨delivery_id hd f hf, hd.sized f hf⟩
    | inr hf =>
      exact ih f hf

/-- The byte count had come round to zero before each of the commands in `P`. -/
def RoundBefore (cwd : CString) (disk : Disk) (P : SendCommand → Prop) (n : Int)
    (cs : List SendCommand) : Prop :=
  ∀ pre c post, cs = pre ++ c :: post → P c → (4294967296 : Int) ∣ n + total cwd disk pre

theorem RoundBefore.head {cwd : CString} {disk : Disk} {P : SendCommand → Prop} {n : Int}
    {c : SendCommand} {cs : List SendCommand} (h : RoundBefore cwd disk P n (c :: cs)) (hc : P c) :
    (4294967296 : Int) ∣ n := by
  have hn := h [] c cs rfl hc
  rwa [total, List.map_nil, List.sum_nil, Int.add_zero] at hn

theorem RoundBefore.tail {cwd : CString} {disk : Disk} {P : SendCommand → Prop} {n : Int}
    {c : SendCommand} {cs : List SendCommand} (h : RoundBefore cwd disk P n (c :: cs)) :
    RoundBefore cwd disk P (n + (c.content cwd disk).length) cs := by
  intro pre d post hsplit hd
  have hn := h (c :: pre) d post (by rw [hsplit, List.cons_append]) hd
  rwa [total, List.map_cons, List.sum_cons, ← Int.add_assoc] at hn

/-- The client of an entry acknowledges all that it is sent. -/
theorem deliveries_acknowledged {env : Nat → NetmtClient.Env} (he : Ready env) {cwd : CString}
    {disk : Disk} {conn : IoT} {n : Int} {cs : List SendCommand} {fs : List Frame}
    (h : Deliveries cwd disk conn n cs fs)
    (hround : RoundBefore cwd disk (fun c => c.select conn = true) n cs)
    {c : NetmtClient.Client} (hs : Serving c) :
    ∃ c' acks, fs.foldlM (NetmtClient.next env) c = some c' ∧ c'.out = c.out ++ acks ∧
      acks.length = (cs.filter fun d => d.select conn).length ∧ ∀ a ∈ acks, IsAck a := by
  induction h generalizing c with
  | nil n => exact ⟨c, [], rfl, by simp, rfl, by simp⟩
  | skip hsel _ ih =>
    obtain ⟨c', acks, hn, hout, hlen, hacks⟩ := ih hround.tail hs
    exact ⟨c', acks, hn, hout, by rw [hlen, List.filter_cons_of_neg (by simp [hsel])], hacks⟩
  | @take n d cs gs fs hsel hd _ ih =>
    have hzero : Region.wrap32 (n + (d.content cwd disk).length) =
        Region.wrap32 (d.content cwd disk).length := by
      rw [Region.wrap32_eq_iff]
      have hdvd := hround.head hsel
      omega
    obtain ⟨c₁, ack, hn₁, hs₁, hack, hout₁⟩ := delivery_acknowledged he hd hzero hs
    obtain ⟨c₂, acks, hn₂, hout₂, hlen, hacks⟩ := ih hround.tail hs₁
    refine ⟨c₂, ack :: acks, ?_, ?_, ?_, ?_⟩
    · rw [List.foldlM_append, hn₁]
      exact hn₂
    · rw [hout₂, hout₁, List.append_assoc, List.singleton_append]
    · simp only [List.filter_cons, hsel, if_true, List.length_cons, hlen]
    · intro a ha
      rcases List.mem_cons.mp ha with rfl | ha
      · exact hack
      · exact hacks a ha

theorem recipient_iff (select : IoT → Bool) (clients : List IoT)
    (hone : (clients.map fun conn => conn.io.conn).Nodup) (conn : IoT) (hmem : conn ∈ clients) :
    Recipient select conn.io.conn clients ↔ select conn = true := by
  constructor
  · rintro ⟨other, hother, hsame, hsel⟩
    rwa [List.inj_on_of_nodup_map hone hother hmem hsame] at hsel
  · intro hsel
    exact ⟨conn, hmem, rfl, hsel⟩

/-- A run of commands never fails, leaves the clients and the files, and counts all
bytes that it reads. -/
theorem sendAll_eq (cwd : CString) (cs : List SendCommand) (h : Host) (n : Int)
    (hn : Region.wrap32 h.filebytes = Region.wrap32 n) (hone : OneEntry h.server)
    (hfiles : ∀ c ∈ cs, ∃ b, h.server.files.content (c.path cwd) = some b) :
    ∃ h', sendAll cwd cs h = .ok h' ∧ h'.server.clients = h.server.clients ∧
      h'.server.files.content = h.server.files.content ∧
      Region.wrap32 h'.filebytes = Region.wrap32 (n + total cwd h.server.files.content cs) ∧
      ∃ written, h'.server.out = h.server.out ++ written ∧ ∀ conn ∈ h.server.clients,
        Deliveries cwd h.server.files.content conn n cs (toConn conn.io.conn written) := by
  induction cs generalizing h n with
  | nil =>
    refine ⟨h, rfl, rfl, rfl, ?_, [], by simp, fun conn _ => .nil n⟩
    rw [hn, total, List.map_nil, List.sum_nil, Int.add_zero]
  | cons c cs ih =>
    obtain ⟨b, hb⟩ := hfiles c (by simp)
    have hcontent : c.content cwd h.server.files.content = b := by
      rw [SendCommand.content, hb, Option.getD_some]
    obtain ⟨h₁, hsend, hout, hclients, hdisk, hbytes⟩ := sendNetmt_out cwd c h b hb
    have hdelivery := sendFrames_delivery cwd c.localPath c.remotePath b h.filebytes
    have hn₁ : Region.wrap32 (h.filebytes + b.length) = Region.wrap32 (n + b.length) := by
      rw [← Region.wrap32_add_wrap32, hn, Region.wrap32_add_wrap32]
    obtain ⟨h₂, hrun, hclients₂, hdisk₂, hbytes₂, written, hout₂, hdel⟩ := ih h₁ (n + b.length)
      (hbytes.trans hn₁) (by rw [OneEntry, hclients]; exact hone)
      (fun d hd => by rw [hdisk]; exact hfiles d (by simp [hd]))
    rw [hdisk, hclients] at hdel
    refine ⟨h₂, ?_, hclients₂.trans hclients, hdisk₂.trans hdisk, ?_, _,
      by rw [hout₂, hout, List.append_assoc], fun conn hconn => ?_⟩
    · rw [sendAll, hsend]
      exact hrun
    · rw [hbytes₂, hdisk, total, total, List.map_cons, List.sum_cons, hcontent, Int.add_assoc]
    · have hmine := hdel conn hconn
      have hr := recipient_iff c.select h.server.clients hone conn hconn
      rw [toConn_append, sendOut, toConn_append, toConn_append]
      cases hsel : c.select conn with
      | false =>
        have hnot : ¬ Recipient c.select conn.io.conn h.server.clients := by
          rw [hr, hsel]
          decide
        rw [toConn_pass_none _ _ _ _ hnot, toConn_pass_none _ _ _ _ hnot,
          toConn_passes _ _ _ _ hone,
          if_neg hnot]
        exact .skip hsel (by rw [hcontent]; exact hmine)
      | true =>
        have hyes := hr.mpr hsel
        rw [toConn_pass_one _ _ _ _ hone hyes, toConn_pass_one _ _ _ _ hone hyes,
          toConn_passes _ _ _ _ hone, if_pos hyes]
        refine .take hsel ?_ (by rw [hcontent]; exact hmine)
        rw [hcontent, ← hn₁, List.append_assoc]
        exact hdelivery

/-! ## Every command acknowledged -/

/-- What the frames written since `h` are. -/
def writtenSince (h h' : Host) : List (Hio × Frame) := h'.server.out.drop h.server.out.length

/-- Some client is selected. -/
def Targeted (clients : List IoT) (c : SendCommand) : Prop :=
  ∃ conn ∈ clients, c.select conn = true

/-- Every `SEND_END` announces the size of its own file, and every client answers
every command meant for it with `NETMT_SEND_SUCCESS`, and with nothing else. -/
structure Acknowledged (cwd : CString) (h₀ : Host) (cs : List SendCommand) : Prop where
  runs : ∃ h, sendAll cwd cs h₀ = .ok h
  sizes : ∀ pre c post, cs = pre ++ c :: post → ∀ h h' r, sendAll cwd pre h₀ = .ok h →
    sendNetmt cwd c.argv true h = .ok (h', r) → ∀ p ∈ writtenSince h h',
    p.2.u32 subcommonid = NETMT_SEND_END →
    p.2.i32 byteSize = (c.content cwd h₀.server.files.content).length
  answers : ∀ h, sendAll cwd cs h₀ = .ok h → ∀ conn ∈ h₀.server.clients, ∀ env, Ready env →
    ∀ c : NetmtClient.Client, c.mutex = false → c.closed = false → ∀ rx, Holds rx [] →
    ∀ reads : List (List UInt8), (∀ r ∈ reads, 1 ≤ r.length ∧ r.length ≤ 8192) →
    reads.flatten = stream (toConn conn.io.conn (writtenSince h₀ h)) →
    ∃ acks, (recvAll (NetmtClient.handle env) NetmtClient.enter reads rx c).state.out =
      c.out ++ acks ∧ acks.length = (cs.filter fun d => d.select conn).length ∧ ∀ a ∈ acks, IsAck a

/-- The frames of a delivery that are a `SEND_END`. -/
theorem delivery_end {path : CString} {content : List UInt8} {n : Int} {fs : List Frame}
    (h : Delivery path content n fs) :
    (∃ f ∈ fs, f.u32 subcommonid = NETMT_SEND_END) ∧
      ∀ f ∈ fs, f.u32 subcommonid = NETMT_SEND_END → f.i32 byteSize = n := by
  refine ⟨?_, h.byteSize IsSend.sub (by decide) (by decide)⟩
  obtain ⟨opened, blocks, ending, rfl, -, -, hend, -⟩ := h.frames
  exact ⟨ending, by simp, hend.sub⟩

theorem mem_passOut (select : IoT → Bool) (clients : List IoT) (f : Frame) (p : Hio × Frame) :
    p ∈ passOut select clients f ↔ p.2 = f ∧ ∃ conn ∈ clients, select conn = true ∧
    conn.io = p.1 := by
  obtain ⟨io, g⟩ := p
  simp only [passOut, List.mem_map, List.mem_filter, Prod.mk.injEq]
  constructor
  · rintro ⟨conn, ⟨hmem, hsel⟩, hio, rfl⟩
    exact ⟨rfl, conn, hmem, hsel, hio⟩
  · rintro ⟨rfl, conn, hmem, hsel, hio⟩
    exact ⟨conn, ⟨hmem, hsel⟩, hio, rfl⟩

/-- What one command writes, frame by frame. -/
theorem sendNetmt_written (cwd : CString) (c : SendCommand) (h : Host) (content : List UInt8)
    (hfile : h.server.files.content (c.path cwd) = some content) :
    ∃ h' r fs, sendNetmt cwd c.argv true h = .ok (h', r) ∧
      Delivery (absolutePath cwd c.remotePath) content
        (Region.wrap32 (h.filebytes + content.length)) fs ∧
      ∀ p, p ∈ writtenSince h h' ↔
        p.2 ∈ fs ∧ ∃ conn ∈ h.server.clients, c.select conn = true ∧ conn.io = p.1 := by
  obtain ⟨h', hsend, hout, -⟩ := sendNetmt_out cwd c h content hfile
  have hdelivery := sendFrames_delivery cwd c.localPath c.remotePath content h.filebytes
  refine ⟨h', _, _, hsend, hdelivery, fun p => ?_⟩
  rw [writtenSince, hout, List.drop_left, sendOut, SendFrames.all]
  simp only [passesOut, List.mem_append, List.mem_flatMap, mem_passOut, List.mem_cons,
    List.not_mem_nil, or_false]
  constructor
  · rintro ((⟨hp, hr⟩ | ⟨f, hf, hp, hr⟩) | ⟨hp, hr⟩)
    · exact ⟨.inl hp, hr⟩
    · exact ⟨.inr (.inl (hp ▸ hf)), hr⟩
    · exact ⟨.inr (.inr hp), hr⟩
  · rintro ⟨hp | hp | hp, hr⟩
    · exact .inl (.inl ⟨hp, hr⟩)
    · exact .inl (.inr ⟨p.2, hp, rfl, hr⟩)
    · exact .inr ⟨hp, hr⟩

/-- The byte count had come round to zero before each command that has a target, and
the command's file is shorter than two gigabytes. -/
def CountRestarts (cwd : CString) (h₀ : Host) (cs : List SendCommand) : Prop :=
  ∀ pre c post, cs = pre ++ c :: post → Targeted h₀.server.clients c →
    (4294967296 : Int) ∣ total cwd h₀.server.files.content pre ∧
    (c.content cwd h₀.server.files.content).length < 2147483648

/-- The announced size of a command that comes after others. -/
theorem size_after (cwd : CString) {h₀ : Host} (hbytes : h₀.filebytes = 0)
    (hone : OneEntry h₀.server) {cs pre post : List SendCommand} {c : SendCommand}
    (hfiles : ∀ d ∈ cs, ∃ b, h₀.server.files.content (d.path cwd) = some b)
    (hsplit : cs = pre ++ c :: post) :
    ∃ h h' r fs, sendAll cwd pre h₀ = .ok h ∧ sendNetmt cwd c.argv true h = .ok (h', r) ∧
      Delivery (absolutePath cwd c.remotePath) (c.content cwd h₀.server.files.content)
        (Region.wrap32 (total cwd h₀.server.files.content pre +
          (c.content cwd h₀.server.files.content).length)) fs ∧
      ∀ p, p ∈ writtenSince h h' ↔
        p.2 ∈ fs ∧ ∃ conn ∈ h₀.server.clients, c.select conn = true ∧ conn.io = p.1 := by
  obtain ⟨b, hb⟩ := hfiles c (by simp [hsplit])
  have hcontent : c.content cwd h₀.server.files.content = b := by
    rw [SendCommand.content, hb, Option.getD_some]
  obtain ⟨h, hrun, hclients, hdisk, hcount, -⟩ := sendAll_eq cwd pre h₀ 0 (by rw [hbytes]) hone
    (fun d hd => hfiles d (by simp [hsplit, hd]))
  obtain ⟨h', r, fs, hsend, hdelivery, hwritten⟩ :=
    sendNetmt_written cwd c h b (by rw [hdisk]; exact hb)
  have hsum : Region.wrap32 (h.filebytes + b.length) =
      Region.wrap32 (total cwd h₀.server.files.content pre + b.length) := by
    rw [← Region.wrap32_add_wrap32, hcount, Region.wrap32_add_wrap32, Int.zero_add]
  rw [hclients] at hwritten
  rw [hsum] at hdelivery
  exact ⟨h, h', r, fs, hrun, hsend, by rw [hcontent]; exact hdelivery, hwritten⟩

theorem wrap32_add_eq_length (n : Int) (len : Nat) :
    Region.wrap32 (n + len) = len ↔ (4294967296 : Int) ∣ n ∧ len < 2147483648 := by
  constructor
  · intro h
    have hbounds := Region.wrap32_bounds (n + len)
    rw [h] at hbounds
    have hlen : Region.wrap32 (len : Int) = len := Region.wrap32_of_range (by omega) hbounds.2
    have hdvd := (Region.wrap32_eq_iff (n + len) len).mp (h.trans hlen.symm)
    exact ⟨by omega, by omega⟩
  · rintro ⟨hdvd, hlt⟩
    rw [← Region.wrap32_of_range (v := (len : Int)) (by omega) (by omega), Region.wrap32_eq_iff]
    rw [Region.wrap32_of_range (by omega) (by omega)]
    omega

/-- Frames of `NETMT_SEND` are handled one after the other, in whatever parts they arrive. -/
theorem reads_handled {env : Nat → NetmtClient.Env} {fs : List Frame}
    (hfs : ∀ f ∈ fs, f.u32 commonid = NETMT_SEND ∧ WellSized f) {c c' : NetmtClient.Client}
    (hn : fs.foldlM (NetmtClient.next env) (NetmtClient.enter c) = some c') {rx : Rx}
    (hrx : Holds rx []) {reads : List (List UInt8)}
    (hreads : ∀ r ∈ reads, 1 ≤ r.length ∧ r.length ≤ 8192) (hcut : reads.flatten = stream fs) :
    (recvAll (NetmtClient.handle env) NetmtClient.enter reads rx c).state.out = c'.out ∧
      (recvAll (NetmtClient.handle env) NetmtClient.enter reads rx c).state.files = c'.files := by
  have henter : ∀ d t, d <+: fs → d.foldlM (NetmtClient.next env) (NetmtClient.enter c) = some t →
      NetmtClient.enter t = t := by
    intro d t hd ht
    have hkept := foldlM_sendbuf (fun f hf => (hfs f (hd.subset hf)).1) ht
    exact NetmtClient.enter_eq hkept
  have hstate := (recvAll_follows (NetmtClient.handle_local env) (NetmtClient.next env)
    (fun s f s' hn db off hat => ⟨_, NetmtClient.handle_next env hn db off hat⟩) reads hreads fs
    (fun f hf => (hfs f hf).2) (NetmtClient.enter c) c' hn henter hrx hcut _ rfl).2
  -- entering a call changes neither the files nor what was written
  rcases recvAll_enter (NetmtClient.handle env) NetmtClient.enter_enter reads rx
    c with heq | ⟨hc, hec⟩
  · rw [heq, hstate]
    exact ⟨rfl, rfl⟩
  · rw [hc, ← hstate, hec]
    exact ⟨rfl, rfl⟩

/-- What the client at an entry does with everything the commands wrote to it. -/
theorem client_acknowledges {cwd : CString} {disk : Disk} {conn : IoT} {cs : List SendCommand}
    {fs : List Frame} (h : Deliveries cwd disk conn 0 cs fs)
    (hround : RoundBefore cwd disk (fun c => c.select conn = true) 0 cs)
    {env : Nat → NetmtClient.Env} (he : Ready env) {c : NetmtClient.Client} (hm : c.mutex = false)
    (hc : c.closed = false) {rx : Rx} (hrx : Holds rx []) {reads : List (List UInt8)}
    (hreads : ∀ r ∈ reads, 1 ≤ r.length ∧ r.length ≤ 8192) (hcut : reads.flatten = stream fs) :
    ∃ acks, (recvAll (NetmtClient.handle env) NetmtClient.enter reads rx c).state.out =
      c.out ++ acks ∧ acks.length = (cs.filter fun d => d.select conn).length ∧
      ∀ a ∈ acks, IsAck a := by
  obtain ⟨c', acks, hn, hout, hlen, hacks⟩ := deliveries_acknowledged he h hround
    (c := NetmtClient.enter c) ⟨hm, hc, rfl⟩
  refine ⟨acks, ?_, hlen, hacks⟩
  rw [(reads_handled h.frames hn hrx hreads hcut).1, hout]
  rfl

theorem Acknowledged.countRestarts {cwd : CString} {h₀ : Host} {cs : List SendCommand}
    (hack : Acknowledged cwd h₀ cs) (hbytes : h₀.filebytes = 0) (hone : OneEntry h₀.server)
    (hfiles : ∀ c ∈ cs, ∃ b, h₀.server.files.content (c.path cwd) = some b) :
    CountRestarts cwd h₀ cs := by
  rintro pre c post hsplit ⟨conn, hconn, hsel⟩
  obtain ⟨h, h', r, fs, hrun, hsend, hdelivery, hwritten⟩ :=
    size_after cwd hbytes hone hfiles hsplit
  obtain ⟨⟨f, hf, hsub⟩, hsize⟩ := delivery_end hdelivery
  have hmem := (hwritten (conn.io, f)).mpr ⟨hf, conn, hconn, hsel, rfl⟩
  have hown := hack.sizes pre c post hsplit h h' r hrun hsend _ hmem hsub
  rw [hsize f hf hsub] at hown
  exact (wrap32_add_eq_length _ _).mp hown

/-- The commands are acknowledged on their own sizes exactly when the byte count starts
from zero at each of them. -/
theorem sends_acknowledged_iff (cwd : CString) (h₀ : Host) (hbytes : h₀.filebytes = 0)
    (hone : OneEntry h₀.server) (cs : List SendCommand)
    (hfiles : ∀ c ∈ cs, ∃ b, h₀.server.files.content (c.path cwd) = some b) :
    Acknowledged cwd h₀ cs ↔ CountRestarts cwd h₀ cs := by
  constructor
  · exact fun hack => hack.countRestarts hbytes hone hfiles
  · intro hcount
    refine ⟨?_, ?_, ?_⟩
    · obtain ⟨h, hrun, -⟩ := sendAll_eq cwd cs h₀ 0 (by rw [hbytes]) hone hfiles
      exact ⟨h, hrun⟩
    · intro pre c post hsplit h h' r hrun hsend p hp hsub
      obtain ⟨h₁, h₂, r', fs, hrun', hsend', hdelivery, hwritten⟩ :=
        size_after cwd hbytes hone hfiles hsplit
      rw [hrun, Except.ok.injEq] at hrun'
      subst hrun'
      rw [hsend, Except.ok.injEq, Prod.mk.injEq] at hsend'
      rw [hsend'.1] at hp
      obtain ⟨hf, conn, hconn, hsel, -⟩ := (hwritten p).mp hp
      rw [(delivery_end hdelivery).2 p.2 hf hsub, wrap32_add_eq_length]
      exact hcount pre c post hsplit ⟨conn, hconn, hsel⟩
    · intro h hrun conn hconn env he c hm hc rx hrx reads hreads hcut
      obtain ⟨h', hrun', -, -, -, written, hout, hdel⟩ :=
        sendAll_eq cwd cs h₀ 0 (by rw [hbytes]) hone
        hfiles
      rw [hrun, Except.ok.injEq] at hrun'
      subst hrun'
      rw [writtenSince, hout, List.drop_left] at hcut
      refine client_acknowledges (hdel conn hconn) ?_ he hm hc hrx hreads hcut
      intro pre d post hsplit hsel
      rw [Int.zero_add]
      exact (hcount pre d post hsplit ⟨conn, hconn, hsel⟩).1

/-! ## One file sent once and twice -/

/-- `send /a all /b`. -/
def oneByte : SendCommand :=
  ⟨sendToAll, slashA, slashB, selectAll, sendToAll_words⟩

theorem oneByte_file (clients : List IoT) :
    (hostWith clients).server.files.content (oneByte.path rootDir) = some [1] := rfl

theorem oneByte_content (clients : List IoT) :
    oneByte.content rootDir (hostWith clients).server.files.content = [1] := rfl

/-- The first `send` of a server is acknowledged. -/
theorem first_send_acknowledged : Acknowledged rootDir (hostWith [connected]) [oneByte] := by
  refine (sends_acknowledged_iff rootDir (hostWith [connected]) rfl (by simp [OneEntry, hostWith])
    [oneByte] fun c hc => ?_).mpr fun pre c post hsplit _ => ?_
  · rw [List.mem_singleton.mp hc]
    exact ⟨[1], oneByte_file _⟩
  · cases pre with
    | nil =>
      rw [← (List.cons.inj hsplit).1, oneByte_content]
      exact ⟨by simp [total], by decide⟩
    | cons d pre => simp at hsplit

/-- Every command of a list is acknowledged. -/
def SendsAcknowledged : Prop :=
  ∀ (cwd : CString) (h₀ : Host) (cs : List SendCommand), h₀.filebytes = 0 → OneEntry h₀.server →
    (∀ c ∈ cs, ∃ b, h₀.server.files.content (c.path cwd) = some b) → Acknowledged cwd h₀ cs

/-- The second `send` announces two bytes for a file of one. -/
theorem second_send_not_acknowledged : ¬ SendsAcknowledged := by
  intro h
  have hone : OneEntry (hostWith [connected]).server := by simp [OneEntry, hostWith]
  have hfiles : ∀ c ∈ [oneByte, oneByte],
      ∃ b, (hostWith [connected]).server.files.content (c.path rootDir) = some b := by
    intro c hc
    have hc' : c = oneByte := by simpa using hc
    rw [hc']
    exact ⟨[1], oneByte_file _⟩
  have hcount :=
    (h rootDir (hostWith [connected]) [oneByte, oneByte] rfl hone hfiles).countRestarts rfl
    hone hfiles [oneByte] oneByte [] rfl ⟨connected, List.mem_singleton_self _, rfl⟩
  have htotal : total rootDir (hostWith [connected]).server.files.content [oneByte] = 1 := by
    rw [total, List.map_singleton, List.sum_singleton, oneByte_content]
    rfl
  rw [htotal] at hcount
  exact absurd hcount.1 (by decide)

end NetmtRepeatedSends
