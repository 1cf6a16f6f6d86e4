import Netmt.Server

/-!
# Console commands of the server

`get_netmt` asks one client for a file. `send_netmt` delivers a file in three
passes over the client list, each of which looks for its recipients anew; what
it keeps between the passes are the frame buffer, the open file and the byte
counter, and the last two are globals.
-/
namespace NetmtServerCommand

open NetmtCommand NetmtTcpRecv NetmtTransfer NetmtServer

/-- What a command returns to the console. -/
inductive Status where
  | CMD_SUCCESS | CMD_WARNING | notOpened
  deriving DecidableEq, Repr

/-- A path is taken relative to the working directory unless it starts with `/`. -/
def absolutePath (cwd path : CString) : CString :=
  if path.bytes.head? = some 47 then path
  else ⟨cwd.bytes ++ 47 :: path.bytes, by
    rw [List.mem_append, List.mem_cons]
    rintro (h | h | h)
    · exact cwd.nul_free h
    · exact absurd h (by decide)
    · exact path.nul_free h⟩

/-- `comm` with its two file names and its command. -/
def fileRequest (cwd localPath remotePath : CString) (id sub : Nat) : Frame :=
  ((((Region.zero 5168).put localfile ((absolutePath cwd localPath).toField FILE_LEN)).put
    remotefile ((absolutePath cwd remotePath).toField FILE_LEN)).putU32
    commonid id).putU32 subcommonid sub

/-- A pass over the client list that writes one frame. -/
def broadcast (select : IoT → Bool) (f : Frame) (s : Server) : Server :=
  { s with out := s.out ++ (s.clients.filter select).map fun conn => (conn.io, f) }

/-! ## `get_netmt` -/

/-- The frame that `get_netmt` writes. -/
def getRequest (cwd localPath client remotePath : CString) : Frame :=
  setLen ((fileRequest cwd localPath remotePath NETMT_GET NETMT_CLIENT).putI32 fd client.atoi)

def getNetmt (cwd : CString) (argv : List CString) (s : Server) : Server × Status :=
  match argv with
  | [localPath, client, remotePath] =>
    (broadcast (fun conn => conn.io.fd = client.atoi)
      (getRequest cwd localPath client remotePath) s, .CMD_SUCCESS)
  | _ => (s, .CMD_WARNING)

/-! ## `send_netmt` -/

/-- The server process as a command sees it. -/
structure Host where
  server : Server
  filebytes : Int

/-- Entries that a mode selects. -/
def selectAll : IoT → Bool := fun _ => true

/-- `strncmp(field, word, n) == 0` on a 64-byte field of the client record. -/
def selectBy (field n : Nat) (word : CString) : IoT → Bool := fun conn =>
  CString.sameFront n (Region.slice field LEN conn.netmtclient.bytes) word.bytes

def selectGroup (word : CString) : IoT → Bool := selectBy clientArea 5 word

def selectType (word : CString) : IoT → Bool := selectBy clientType 3 word

def selectSingle (word : CString) : IoT → Bool := fun conn => conn.io.fd = word.atoi

/-- `strncmp(argv[1], mode, n) == 0`. -/
def isMode (mode : List UInt8) (word : CString) : Bool :=
  CString.sameFront mode.length word.bytes mode

def allWord : List UInt8 := [97, 108, 108]
def groupWord : List UInt8 := [103, 114, 111, 117, 112]
def typeWord : List UInt8 := [116, 121, 112, 101]
def singleWord : List UInt8 := [115, 105, 110, 103, 108, 101]

/-- The chain of modes; any other word selects no pass at all. -/
def selectMode (mode arg : CString) : Option (IoT → Bool) :=
  if isMode allWord mode then some selectAll
  else if isMode groupWord mode then some (selectGroup arg)
  else if isMode typeWord mode then some (selectType arg)
  else if isMode singleWord mode then some (selectSingle arg)
  else none

/-- The word that holds the remote path. -/
def remoteArg (mode : CString) (argv : List CString) : Option CString :=
  if isMode allWord mode then argv[2]? else argv[3]?

/-- The locals of `send_netmt` that live across the passes. -/
structure Sending where
  select : IoT → Bool
  sendbuf : Frame

/-- `sendbuf` for the first pass. -/
def sendRequest (cwd localPath remotePath : CString) : Frame :=
  setLen (fileRequest cwd localPath remotePath NETMT_SEND NETMT_FILE_OPEN)

/-- What comes before the first pass: the paths, and `fopen` of the local file. -/
inductive Begin where
  | passes : Host → Sending → Begin
  | finished : Host → Status → Begin
  | fault : Fault → Begin

def sendBegin (cwd : CString) (argv : List CString) (fopenOk : Bool) (h : Host) : Begin :=
  match argv with
  | [] => .finished h .CMD_WARNING
  | localPath :: rest =>
    match rest.head?.bind fun mode => (remoteArg mode argv).map fun path => (mode, path) with
    | none => .fault .outOfBounds
    | some (mode, remotePath) =>
      let path := (absolutePath cwd localPath).bytes
      match (if fopenOk then h.server.files.openRead path else none) with
      | none => .finished { h with server := { h.server with fp := none } } .notOpened
      | some (files, id) =>
        let h' := { h with server := { h.server with files := files, fp := some id } }
        -- in the modes that look at `argv[2]`, `argv[3]` was there
        match selectMode mode ((argv[2]?).getD localPath) with
        | none => .finished h' .CMD_SUCCESS
        | some select => .passes h' ⟨select, sendRequest cwd localPath remotePath⟩

/-- The `FILE_OPEN` pass. -/
def sendOpen (t : Sending) (h : Host) : Host :=
  { h with server := broadcast t.select t.sendbuf h.server }

/-- `fp`, when it can be read. -/
def openFile (s : Server) : Except Fault StreamId :=
  match s.fp with
  | none => .error .nullFile
  | some id => if s.files.isOpen id then .ok id else .error .closedFile

/-- The `DATA` loop: every block goes to all recipients before the next is read. -/
def sendData (t : Sending) (h : Host) : Except Fault (Host × Sending) :=
  (openFile h.server).map fun id =>
    let r := readLoop (Framing.chunks BUFFER_SIZE (h.server.files.unread id))
      (t.sendbuf.putU32 subcommonid NETMT_DATA) h.filebytes
    (⟨r.1.foldl (fun s f => broadcast t.select f s) h.server, r.2.2⟩, { t with sendbuf := r.2.1 })

/-- The `SEND_END` pass, after the file is closed. -/
def sendEnd (t : Sending) (h : Host) : Except Fault Host :=
  (fcloseStream h.server.files h.server.fp).map fun files =>
    let s := { h.server with files := files }
    { h with server := broadcast t.select (endFrame t.sendbuf NETMT_SEND_END h.filebytes) s }

/-- The three passes with nothing in between. -/
def sendPasses (t : Sending) (h : Host) : Except Fault Host :=
  (sendData t (sendOpen t h)).bind fun r => sendEnd r.2 r.1

def sendNetmt (cwd : CString) (argv : List CString) (fopenOk : Bool) (h : Host) :
    Except Fault (Host × Status) :=
  match sendBegin cwd argv fopenOk h with
  | .fault e => .error e
  | .finished h' status => .ok (h', status)
  | .passes h' t => (sendPasses t h').map fun h'' => (h'', .CMD_SUCCESS)

/-! ## What the parts of `send_netmt` do -/

/-- The words of a `send` that has passes. -/
structure SendWords (argv : List CString) (localPath remotePath : CString) (select : IoT → Bool) :
    Prop where
  words : ∃ mode rest, argv = localPath :: mode :: rest ∧ remoteArg mode argv = some remotePath ∧
    selectMode mode ((argv[2]?).getD localPath) = some select

/-- The command after `fopen` of the local file. -/
def opened (h : Host) (files : FileStore) (id : StreamId) : Host :=
  { h with server := { h.server with files := files, fp := some id } }

theorem sendBegin_eq (cwd : CString) (h : Host) {argv : List CString}
    {localPath remotePath : CString} {select : IoT → Bool}
    (hw : SendWords argv localPath remotePath select) {files : FileStore} {id : StreamId}
    (ho : h.server.files.openRead (absolutePath cwd localPath).bytes = some (files, id)) :
    sendBegin cwd argv true h =
      .passes (opened h files id) ⟨select, sendRequest cwd localPath remotePath⟩ := by
  obtain ⟨mode, rest, rfl, hremote, hselect⟩ := hw.words
  simp only [sendBegin, List.head?_cons, Option.bind_some, hremote, Option.map_some, ho, if_true,
    hselect, opened]

/-- Only such a command has passes. -/
theorem sendBegin_passes {cwd : CString} {argv : List CString} {fopenOk : Bool} {h h' : Host}
    {t : Sending} (hb : sendBegin cwd argv fopenOk h = .passes h' t) :
    ∃ localPath remotePath files id, SendWords argv localPath remotePath t.select ∧
      h.server.files.openRead (absolutePath cwd localPath).bytes = some (files, id) ∧
      h' = opened h files id ∧ t.sendbuf = sendRequest cwd localPath remotePath := by
  cases argv with
  | nil => cases hb
  | cons localPath rest =>
    cases rest with
    | nil => cases hb
    | cons mode rest =>
      simp only [sendBegin, List.head?_cons, Option.bind_some] at hb
      cases hremote : remoteArg mode (localPath :: mode :: rest) with
      | none =>
        rw [hremote] at hb
        cases hb
      | some remotePath =>
        rw [hremote] at hb
        simp only [Option.map_some] at hb
        cases fopenOk with
        | false => cases hb
        | true =>
          simp only [if_true] at hb
          cases ho : h.server.files.openRead (absolutePath cwd localPath).bytes with
          | none =>
            rw [ho] at hb
            cases hb
          | some p =>
            obtain ⟨files, id⟩ := p
            rw [ho] at hb
            simp only at hb
            split at hb
            · cases hb
            · next select hselect =>
              cases hb
              exact ⟨localPath, remotePath, files, id,
                ⟨mode, rest, rfl, hremote, hselect⟩, ho, rfl, rfl⟩

/-- The frames of the `DATA` loop, the buffer and the byte count behind it. -/
def blockFrames (t : Sending) (content : List UInt8) (filebytes : Int) : List Frame × Frame × Int :=
  readLoop (Framing.chunks BUFFER_SIZE content) (t.sendbuf.putU32 subcommonid NETMT_DATA) filebytes

theorem sendData_eq (t : Sending) (h : Host) {id : StreamId} {path content : List UInt8}
    (hfp : h.server.fp = some id) (hr : h.server.files.Reading id path content) :
    sendData t h = .ok (⟨(blockFrames t content h.filebytes).1.foldl
      (fun s f => broadcast t.select f s) h.server, (blockFrames t content h.filebytes).2.2⟩,
      { t with sendbuf := (blockFrames t content h.filebytes).2.1 }) := by
  have ho : openFile h.server = .ok id := by
    simp only [openFile, hfp, hr.isOpen, if_true]
  rw [sendData, ho]
  simp only [Except.map, hr.unread, blockFrames]

theorem sendEnd_eq (t : Sending) (h : Host) {id : StreamId} {files : FileStore}
    (hfp : h.server.fp = some id) (hc : h.server.files.close id = some files) :
    sendEnd t h = .ok ⟨broadcast t.select (endFrame t.sendbuf NETMT_SEND_END h.filebytes)
      { h.server with files := files }, h.filebytes⟩ := by
  simp only [sendEnd, fcloseStream, hfp, hc, Except.map]

theorem blockFrames_spec (t : Sending) (content : List UInt8) (filebytes : Int) :
    List.Forall₂ (IsData (t.sendbuf.putU32 subcommonid NETMT_DATA))
      (Framing.chunks BUFFER_SIZE content)
      (blockFrames t content filebytes).1 ∧
    SameHead (blockFrames t content filebytes).2.1 (t.sendbuf.putU32 subcommonid NETMT_DATA) ∧
    Region.wrap32 (blockFrames t content filebytes).2.2 =
      Region.wrap32 (filebytes + content.length) := by
  have h := readLoop_spec (Framing.chunks BUFFER_SIZE content)
    (fun b hb => (Framing.length_of_mem_chunks (by decide) hb).2)
    (t.sendbuf.putU32 subcommonid NETMT_DATA) filebytes
  rwa [Framing.flatten_chunks] at h

/-- The `DATA` frames, one for each block. -/
theorem blockFrames_sub (t : Sending) (content : List UInt8) (filebytes : Int) :
    (blockFrames t content filebytes).1.map (fun f => f.u32 subcommonid) =
      List.replicate (Framing.chunks BUFFER_SIZE content).length NETMT_DATA := by
  have hframes := (blockFrames_spec t content filebytes).1
  rw [hframes.length_eq]
  generalize Framing.chunks BUFFER_SIZE content = blocks at hframes
  generalize (blockFrames t content filebytes).1 = fs at hframes
  induction hframes with
  | nil => rfl
  | cons hd _ ih =>
    have hsub := hd.head.u32 subcommonid (by decide) (by decide)
    rw [Region.u32_put_same _ _ _ (by simp)] at hsub
    rw [List.map_cons, hsub, ih]
    rfl

end NetmtServerCommand
