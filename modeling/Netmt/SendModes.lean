import Netmt.RepeatedSends

/-!
# The modes of `send`

A mode only decides which entries the passes write to. Whatever it is, each of
them gets the same frames, which carry the whole file; the others get none.
`group` and `type` compare a fixed number of bytes, so the entries they select
are not always the ones that are meant.
-/
namespace NetmtSendModes

open NetmtCommand NetmtTcpRecv NetmtTransfer NetmtReads NetmtServer NetmtServerCommand
open NetmtSendTransfer NetmtRepeatedSends

/-- One `FILE_OPEN`, then `DATA` frames that carry the content in their first
`data_size` bytes, then one `SEND_END`. -/
structure CompleteTransfer (path : CString) (content : List UInt8) (fs : SendFrames) : Prop where
  opened : IsSend path NETMT_FILE_OPEN fs.opened
  datas : ∀ f ∈ fs.datas, IsSend path NETMT_DATA f ∧ 1 ≤ f.i32 dataSize ∧
    f.i32 dataSize ≤ BUFFER_SIZE
  content : (fs.datas.map fun f =>
    Region.slice data (f.i32 dataSize).toNat f.bytes).flatten = content
  ending : IsSend path NETMT_SEND_END fs.ending

theorem datas_content {path : CString} {blocks : List (List UInt8)} {datas : List Frame}
    (h : List.Forall₂ (fun b f => IsSend path NETMT_DATA f ∧ ∃ buf, IsData buf b f) blocks datas) :
    (datas.map fun f => Region.slice data (f.i32 dataSize).toNat f.bytes) = blocks := by
  induction h with
  | nil => rfl
  | cons hd _ ih =>
    obtain ⟨-, buf, hdata⟩ := hd
    rw [List.map_cons, ih, hdata.dataSize, Int.toNat_natCast, hdata.data]

theorem datas_sized {path : CString} {blocks : List (List UInt8)} {datas : List Frame}
    (h : List.Forall₂ (fun b f => IsSend path NETMT_DATA f ∧ ∃ buf, IsData buf b f) blocks datas)
    (hb : ∀ b ∈ blocks, 0 < b.length ∧ b.length ≤ BUFFER_SIZE) :
    ∀ f ∈ datas, IsSend path NETMT_DATA f ∧ 1 ≤ f.i32 dataSize ∧ f.i32 dataSize ≤ BUFFER_SIZE := by
  induction h with
  | nil => simp
  | cons hd _ ih =>
    obtain ⟨hsend, buf, hdata⟩ := hd
    intro f hf
    rcases List.mem_cons.mp hf with rfl | hf
    · have hlen := hb _ List.mem_cons_self
      rw [hdata.dataSize]
      exact ⟨hsend, by omega, by omega⟩
    · exact ih (fun b hmem => hb b (by simp [hmem])) f hf

theorem sendFrames_complete (cwd localPath remotePath : CString) (content : List UInt8)
    (filebytes : Int) : CompleteTransfer (absolutePath cwd remotePath) content
      (sendFrames cwd localPath remotePath content filebytes) := by
  obtain ⟨opened, datas, ending, heq, hopen, hdatas, hend, -⟩ :=
    (sendFrames_delivery cwd localPath remotePath content filebytes).frames
  rw [SendFrames.all, List.cons.injEq] at heq
  obtain ⟨hd, he⟩ := List.append_inj' heq.2 rfl
  obtain rfl := hd
  obtain rfl := List.singleton_inj.mp he
  refine ⟨by rw [heq.1]; exact hopen, ?_, ?_, hend⟩
  · exact datas_sized hdatas fun b hb => Framing.length_of_mem_chunks (by decide) hb
  · rw [datas_content hdatas, Framing.flatten_chunks]

/-! ## What an entry is sent -/

/-- The passes write all frames or none to an entry. -/
theorem toConn_sendOut (select : IoT → Bool) (clients : List IoT) (fs : SendFrames)
    (hone : (clients.map fun conn => conn.io.conn).Nodup) (k : Nat) :
    (Recipient select k clients → toConn k (sendOut select clients fs) = fs.all) ∧
      (¬ Recipient select k clients → toConn k (sendOut select clients fs) = []) := by
  constructor
  · intro h
    rw [sendOut, toConn_append, toConn_append, toConn_pass_one _ _ _ _ hone h,
      toConn_pass_one _ _ _ _ hone h, toConn_passes _ _ _ _ hone, if_pos h, List.append_assoc]
    rfl
  · intro h
    rw [sendOut, toConn_append, toConn_append, toConn_pass_none _ _ _ _ h,
      toConn_pass_none _ _ _ _ h, toConn_passes _ _ _ _ hone, if_neg h]
    rfl

/-- The entries that satisfy the test get the frames, and nobody else anything. -/
def SentTo (fs : SendFrames) (test : IoT → Prop) (h h' : Host) : Prop :=
  (∀ conn ∈ h.server.clients, (test conn → toConn conn.io.conn (writtenSince h h') = fs.all) ∧
    (¬ test conn → toConn conn.io.conn (writtenSince h h') = [])) ∧
  ∀ k, (∀ conn ∈ h.server.clients, conn.io.conn ≠ k) → toConn k (writtenSince h h') = []

/-- One `send` in any mode. -/
theorem send_sentTo (cwd : CString) (c : SendCommand) (h : Host) (hone : OneEntry h.server)
    {content : List UInt8} (hfile : h.server.files.content (c.path cwd) = some content) :
    ∃ h', sendNetmt cwd c.argv true h = .ok (h', .CMD_SUCCESS) ∧
      SentTo (sendFrames cwd c.localPath c.remotePath content h.filebytes)
        (fun conn => c.select conn = true) h h' := by
  obtain ⟨h', hsend, hout, -⟩ := sendNetmt_out cwd c h content hfile
  have hwritten : writtenSince h h' = sendOut c.select h.server.clients
      (sendFrames cwd c.localPath c.remotePath content h.filebytes) := by
    rw [writtenSince, hout, List.drop_left]
  refine ⟨h', hsend, fun conn hconn => ?_, fun k hk => ?_⟩
  · have hr := recipient_iff c.select h.server.clients hone conn hconn
    have hboth := toConn_sendOut c.select h.server.clients
      (sendFrames cwd c.localPath c.remotePath content h.filebytes) hone conn.io.conn
    rw [hwritten]
    exact ⟨fun hsel => hboth.1 (hr.mpr hsel), fun hsel => hboth.2 fun hrec => hsel (hr.mp hrec)⟩
  · rw [hwritten]
    apply (toConn_sendOut _ _ _ hone k).2
    rintro ⟨conn, hconn, hk', -⟩
    exact hk conn hconn hk'

/-! ## What the client stores -/

variable {env : Nat → NetmtClient.Env} {path : CString}

/-- Two clients: the one of descriptor 7, and one of descriptor 9. -/
def twoClients : List IoT := [connected, { connected with io := ⟨2, 9⟩ }]

/-- The name in a 64-byte field of the client record. -/
def nameIn (field : Nat) (conn : IoT) : List UInt8 :=
  CString.ofField (Region.slice field LEN conn.netmtclient.bytes)

/-- `netmtclient.area` -/
def area : IoT → List UInt8 := nameIn clientArea

/-- `netmtclient.type` -/
def type : IoT → List UInt8 := nameIn clientType

/-- `group` and `type`, as words. -/
def groupMode : CString := ⟨groupWord, by decide⟩
def typeMode : CString := ⟨typeWord, by decide⟩

theorem selectBy_iff (field n : Nat) (word : CString) (conn : IoT) :
    selectBy field n word conn = true ↔ (nameIn field conn).take n = word.bytes.take n := by
  rw [selectBy, CString.sameFront, decide_eq_true_iff, CString.ofField_nul_free word.nul_free]
  rfl

theorem groupWords (localPath remotePath word : CString) :
    SendWords [localPath, groupMode, word, remotePath] localPath remotePath (selectGroup word) :=
  ⟨groupMode, [word, remotePath], rfl, rfl, rfl⟩

theorem typeWords (localPath remotePath word : CString) :
    SendWords [localPath, typeMode, word, remotePath] localPath remotePath (selectType word) :=
  ⟨typeMode, [word, remotePath], rfl, rfl, rfl⟩

/-- No entry has another name that begins with the same `n` bytes. -/
def Told (name : IoT → List UInt8) (n : Nat) (word : CString) (clients : List IoT) : Prop :=
  ∀ conn ∈ clients, (name conn).take n = word.bytes.take n → name conn = word.bytes

/-- An entry that passes the test without being meant. -/
theorem sent_elsewhere {fs fs' : SendFrames} {test meant : IoT → Prop} {h h' : Host} {conn : IoT}
    (hsent : SentTo fs test h h') (hexact : SentTo fs' meant h h') (hconn : conn ∈ h.server.clients)
    (htest : test conn) (hnot : ¬ meant conn) : False := by
  have hall := (hsent.1 conn hconn).1 htest
  rw [(hexact.1 conn hconn).2 hnot, SendFrames.all] at hall
  cases hall

/-- A test that is passed by all that are meant is exact when it is passed by no others. -/
theorem sentTo_iff {fs : SendFrames} {test meant : IoT → Prop} {h h' : Host}
    (hsent : SentTo fs test h h') (hall : ∀ conn, meant conn → test conn) :
    SentTo fs meant h h' ↔ ∀ conn ∈ h.server.clients, test conn → meant conn := by
  constructor
  · intro hexact conn hconn htest
    by_contra hnot
    exact sent_elsewhere hsent hexact hconn htest hnot
  · intro hno
    refine ⟨fun conn hconn => ⟨fun hm => (hsent.1 conn hconn).1 (hall conn hm),
      fun hnot => ?_⟩, hsent.2⟩
    exact (hsent.1 conn hconn).2 fun htest => hnot (hno conn hconn htest)

theorem selectBy_exact_iff {field n : Nat} {word : CString} {fs : SendFrames} {h h' : Host}
    (hsent : SentTo fs (fun conn => selectBy field n word conn = true) h h') :
    SentTo fs (fun conn => nameIn field conn = word.bytes) h h' ↔
      Told (nameIn field) n word h.server.clients := by
  rw [sentTo_iff hsent fun conn hm => (selectBy_iff _ _ _ _).mpr (by rw [hm])]
  simp only [selectBy_iff, Told]

/-- `group` and `type` reach exactly the clients of that name when no other name in the
list begins with the same five, or three, bytes. -/
theorem targets_exact_iff (cwd localPath remotePath word : CString) (h : Host)
    (hone : OneEntry h.server) (content : List UInt8)
    (hfile : h.server.files.content (absolutePath cwd localPath).bytes = some content) :
    ∃ fs, CompleteTransfer (absolutePath cwd remotePath) content fs ∧
      (∃ h', sendNetmt cwd [localPath, groupMode, word, remotePath] true h =
        .ok (h', .CMD_SUCCESS) ∧
        (SentTo fs (fun conn => area conn = word.bytes) h h' ↔ Told area 5 word h.server.clients)) ∧
      ∃ h', sendNetmt cwd [localPath, typeMode, word, remotePath] true h = .ok (h', .CMD_SUCCESS) ∧
        (SentTo fs (fun conn => type conn = word.bytes) h h' ↔
          Told type 3 word h.server.clients) := by
  refine ⟨sendFrames cwd localPath remotePath content h.filebytes,
    sendFrames_complete cwd localPath remotePath content h.filebytes, ?_, ?_⟩
  · obtain ⟨h', hsend, hsent⟩ := send_sentTo cwd
      ⟨_, localPath, remotePath, _, groupWords localPath remotePath word⟩ h hone hfile
    exact ⟨h', hsend, selectBy_exact_iff hsent⟩
  · obtain ⟨h', hsend, hsent⟩ := send_sentTo cwd
      ⟨_, localPath, remotePath, _, typeWords localPath remotePath word⟩ h hone hfile
    exact ⟨h', hsend, selectBy_exact_iff hsent⟩

/-- A client that registered in an area. -/
def inArea (name : CString) : IoT :=
  ⟨⟨1, 7⟩, (Region.zero 200).put clientArea (name.toField LEN), [], DATABUF, 0, 0⟩

theorem area_inArea (name : CString) : area (inArea name) = name.bytes.take 63 := by
  have hlen : (name.toField LEN).length = 64 := CString.length_toField 64 (by decide) name
  have hfield : Region.slice clientArea LEN (inArea name).netmtclient.bytes = name.toField LEN := by
    change Region.slice clientArea LEN
      ((Region.zero 200).put clientArea (name.toField LEN)).bytes = _
    rw [Region.slice_put_same _ _ _ _ (by rw [hlen]; decide) (by rw [hlen]; decide)]
    exact List.take_of_length_le (by rw [hlen]; decide)
  have hname := CString.ofField_toField 64 (by decide) name []
  rw [List.append_nil] at hname
  rw [area, nameIn, hfield]
  exact hname

/-- `area1` and `area10` -/
def area1 : CString := ⟨[97, 114, 101, 97, 49], by decide⟩
def area10 : CString := ⟨[97, 114, 101, 97, 49, 48], by decide⟩

/-- `send /a group area1 /b` reaches a client of that area. -/
theorem area1_reached : ∃ fs h', sendNetmt rootDir
      [oneByte.localPath, groupMode, area1, oneByte.remotePath] true
      (hostWith [inArea area1]) = .ok (h', .CMD_SUCCESS) ∧
    SentTo fs (fun conn => area conn = area1.bytes) (hostWith [inArea area1]) h' := by
  obtain ⟨fs, -, ⟨h', hsend, hexact⟩, -⟩ := targets_exact_iff rootDir oneByte.localPath
    oneByte.remotePath area1 (hostWith [inArea area1]) (by simp [OneEntry, hostWith]) [1]
    (oneByte_file _)
  have htold : Told area 5 area1 (hostWith [inArea area1]).server.clients := by
    intro conn hconn _
    rw [List.mem_singleton.mp hconn, area_inArea]
    rfl
  exact ⟨fs, h', hsend, hexact.mpr htold⟩

/-- Exactly the clients that are meant get the file, whatever the list and the word. -/
def TargetsExact : Prop :=
  ∀ (cwd localPath remotePath word : CString) (h : Host), OneEntry h.server →
    ∀ content, h.server.files.content (absolutePath cwd localPath).bytes = some content →
    ∃ fs, CompleteTransfer (absolutePath cwd remotePath) content fs ∧
      (∃ h', sendNetmt cwd [localPath, groupMode, word, remotePath] true h =
        .ok (h', .CMD_SUCCESS) ∧
        SentTo fs (fun conn => area conn = word.bytes) h h') ∧
      ∃ h', sendNetmt cwd [localPath, typeMode, word, remotePath] true h = .ok (h', .CMD_SUCCESS) ∧
        SentTo fs (fun conn => type conn = word.bytes) h h'

/-- A file for `area1` goes to a client of `area10`. -/
theorem area10_reached : ¬ TargetsExact := by
  intro hall
  let h := hostWith [inArea area10]
  have hone : OneEntry h.server := by simp [h, OneEntry, hostWith]
  obtain ⟨fs, -, ⟨h', hsend, hexact⟩, -⟩ :=
    hall rootDir oneByte.localPath oneByte.remotePath area1 h
    hone [1] (oneByte_file _)
  obtain ⟨h'', hsend', hsent⟩ := send_sentTo rootDir
    ⟨_, oneByte.localPath, oneByte.remotePath, _,
      groupWords oneByte.localPath oneByte.remotePath area1⟩
    h hone (oneByte_file _)
  rw [hsend, Except.ok.injEq, Prod.mk.injEq] at hsend'
  obtain ⟨rfl, -⟩ := hsend'
  have hgroup : SentTo _ (fun conn => selectGroup area1 conn = true) h h' := hsent
  have hmem : inArea area10 ∈ h.server.clients := List.mem_singleton_self _
  have hselect : selectGroup area1 (inArea area10) = true := by
    rw [selectGroup, selectBy_iff]
    change (area (inArea area10)).take 5 = _
    rw [area_inArea]
    rfl
  have hother : area (inArea area10) ≠ area1.bytes := by
    rw [area_inArea]
    decide
  exact sent_elsewhere hgroup hexact hmem hselect hother

end NetmtSendModes
