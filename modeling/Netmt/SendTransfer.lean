import Netmt.ServerCommand
import Mathlib.Data.List.Nodup

/-!
# Sending a file in three passes

Each pass of `send_netmt` writes to the entries that its mode selects in the
client list of that moment. What one connection gets is a well-formed transfer
exactly when it was there, and selected, early enough.
-/
namespace NetmtSendTransfer

open NetmtCommand NetmtTcpRecv NetmtTransfer NetmtServer NetmtServerCommand

/-- The frames written to a connection. -/
def toConn (c : Nat) (out : List (Hio × Frame)) : List Frame :=
  (out.filter fun p => p.1.conn = c).map Prod.snd

/-- A pass with these entries writes to the connection. -/
def Recipient (select : IoT → Bool) (c : Nat) (clients : List IoT) : Prop :=
  ∃ conn ∈ clients, conn.io.conn = c ∧ select conn = true

/-- Every connection has one entry. -/
def OneEntry (s : Server) : Prop := (s.clients.map fun conn => conn.io.conn).Nodup

@[simp] theorem toConn_append (c : Nat) (out out' : List (Hio × Frame)) :
    toConn c (out ++ out') = toConn c out ++ toConn c out' := by simp [toConn]

/-- What one pass writes. -/
def passOut (select : IoT → Bool) (clients : List IoT) (f : Frame) : List (Hio × Frame) :=
  (clients.filter select).map fun conn => (conn.io, f)

/-- What the `DATA` loop writes: every block to all recipients. -/
def passesOut (select : IoT → Bool) (clients : List IoT) (fs : List Frame) : List (Hio × Frame) :=
  fs.flatMap fun f => passOut select clients f

theorem toConn_pass_none (select : IoT → Bool) (c : Nat) (clients : List IoT) (f : Frame)
    (h : ¬ Recipient select c clients) : toConn c (passOut select clients f) = [] := by
  rw [toConn, List.map_eq_nil_iff, List.filter_eq_nil_iff]
  intro p hp hc
  obtain ⟨conn, hconn, rfl⟩ := List.mem_map.mp hp
  obtain ⟨hmem, hsel⟩ := List.mem_filter.mp hconn
  exact h ⟨conn, hmem, of_decide_eq_true hc, hsel⟩

theorem toConn_pass_one (select : IoT → Bool) (c : Nat) (clients : List IoT) (f : Frame)
    (hone : (clients.map fun conn => conn.io.conn).Nodup) (h : Recipient select c clients) :
    toConn c (passOut select clients f) = [f] := by
  induction clients with
  | nil =>
    obtain ⟨conn, hmem, -⟩ := h
    cases hmem
  | cons a rest ih =>
    rw [List.map_cons, List.nodup_cons] at hone
    obtain ⟨conn, hmem, hc, hsel⟩ := h
    rcases List.mem_cons.mp hmem with rfl | hmem
    · have hnone : toConn c (passOut select rest f) = [] := by
        apply toConn_pass_none
        rintro ⟨b, hb, hbc, -⟩
        exact hone.1 (List.mem_map.mpr ⟨b, hb, by rw [hbc, hc]⟩)
      have hsplit : passOut select (conn :: rest) f = (conn.io, f) :: passOut select rest f := by
        simp [passOut, hsel]
      rw [hsplit, ← List.singleton_append, toConn_append, hnone]
      simp [toConn, hc]
    · have hne : a.io.conn ≠ c := by
        rintro rfl
        exact hone.1 (List.mem_map.mpr ⟨conn, hmem, hc⟩)
      have hrest := ih hone.2 ⟨conn, hmem, hc, hsel⟩
      cases ha : select a with
      | false =>
        have hsplit : passOut select (a :: rest) f = passOut select rest f := by simp [passOut, ha]
        rw [hsplit, hrest]
      | true =>
        have hsplit : passOut select (a :: rest) f = (a.io, f) :: passOut select rest f := by
          simp [passOut, ha]
        rw [hsplit, ← List.singleton_append, toConn_append, hrest]
        simp [toConn, hne]

open Classical in
theorem toConn_pass (select : IoT → Bool) (c : Nat) (clients : List IoT) (f : Frame)
    (hone : (clients.map fun conn => conn.io.conn).Nodup) :
    toConn c (passOut select clients f) = if Recipient select c clients then [f] else [] := by
  split
  · next h => exact toConn_pass_one select c clients f hone h
  · next h => exact toConn_pass_none select c clients f h

open Classical in
theorem toConn_passes (select : IoT → Bool) (c : Nat) (clients : List IoT) (fs : List Frame)
    (hone : (clients.map fun conn => conn.io.conn).Nodup) :
    toConn c (passesOut select clients fs) = if Recipient select c clients then fs else [] := by
  induction fs with
  | nil => split <;> rfl
  | cons f fs ih =>
    have hsplit : passesOut select clients (f :: fs) =
        passOut select clients f ++ passesOut select clients fs := rfl
    rw [hsplit, toConn_append, ih, toConn_pass select c clients f hone]
    split <;> rfl

theorem broadcasts (select : IoT → Bool) (fs : List Frame) (s : Server) :
    fs.foldl (fun s f => broadcast select f s) s =
      { s with out := s.out ++ passesOut select s.clients fs } := by
  induction fs generalizing s with
  | nil => simp [passesOut]
  | cons f fs ih =>
    rw [List.foldl_cons, ih]
    simp [broadcast, passesOut, passOut]

/-- The three passes with nothing in between. -/
theorem sendPasses_eq (t : Sending) (h : Host) {id : StreamId} {path content : List UInt8}
    {files : FileStore} (hfp : h.server.fp = some id) (hr : h.server.files.Reading id path content)
    (hclose : h.server.files.close id = some files) :
    ∃ h', sendPasses t h = .ok h' ∧ h'.server.clients = h.server.clients ∧
      h'.server.files = files ∧ h'.filebytes = (blockFrames t content h.filebytes).2.2 ∧
      h'.server.out = h.server.out ++ (passOut t.select h.server.clients t.sendbuf ++
        passesOut t.select h.server.clients (blockFrames t content h.filebytes).1 ++
        passOut t.select h.server.clients (endFrame (blockFrames t content h.filebytes).2.1
          NETMT_SEND_END (blockFrames t content h.filebytes).2.2)) := by
  have hdata := sendData_eq t (sendOpen t h) hfp hr
  rw [broadcasts] at hdata
  have hsame : (sendOpen t h).filebytes = h.filebytes := rfl
  rw [hsame] at hdata
  generalize blockFrames t content h.filebytes = r at *
  have hend := sendEnd_eq ⟨t.select, r.2.1⟩ ⟨{ h.server with
      out := h.server.out ++ passOut t.select h.server.clients t.sendbuf ++
        passesOut t.select h.server.clients r.1 }, r.2.2⟩ hfp hclose
  refine ⟨⟨{ h.server with
      files := files
      out := h.server.out ++ (passOut t.select h.server.clients t.sendbuf ++
        passesOut t.select h.server.clients r.1 ++
        passOut t.select h.server.clients (endFrame r.2.1 NETMT_SEND_END r.2.2)) }, r.2.2⟩,
    ?_, rfl, rfl, rfl, rfl⟩
  rw [sendPasses, hdata]
  refine hend.trans ?_
  simp [broadcast, passOut, List.append_assoc]

/-! ## Between the passes -/

/-- Clients connect, disconnect and register. -/
inductive Meanwhile (s : Server) : Server → Prop where
  | nothing : Meanwhile s s
  | accept (io : Hio) {s₁ s₂ : Server} : Meanwhile s s₁ →
      io.conn ∉ s₁.clients.map (fun conn => conn.io.conn) → netmtAccept io s₁ = .next s₂ →
      Meanwhile s s₂
  | close (io : Hio) {s₁ s₂ : Server} : Meanwhile s s₁ →
      netmtClose io s₁ = .next s₂ → Meanwhile s s₂
  | register (f : Frame) {s₁ s₂ : Server} : Meanwhile s s₁ → onRegister f s₁ = .next s₂ →
      Meanwhile s s₂

/-- What the callbacks between the passes leave alone. -/
structure Kept (s s' : Server) : Prop where
  out : s'.out = s.out
  files : s'.files = s.files
  fp : s'.fp = s.fp
  mutex : s'.mutex = s.mutex
  oneEntry : OneEntry s → OneEntry s'

theorem accept_kept {io : Hio} {s s' : Server}
    (hnew : io.conn ∉ s.clients.map fun conn => conn.io.conn) (h : netmtAccept io s = .next s') :
    Kept s s' := by
  obtain rfl := accept_ends (.inl h)
  exact ⟨rfl, rfl, rfl, rfl, fun hone => List.nodup_cons.mpr ⟨hnew, hone⟩⟩

theorem close_kept {io : Hio} {s s' : Server} (h : netmtClose io s = .next s') : Kept s s' := by
  obtain rfl := close_ends (.inl h)
  exact ⟨rfl, rfl, rfl, rfl, fun hone => hone.sublist (List.filter_sublist.map _)⟩

theorem register_kept {f : Frame} {s s' : Server} (h : onRegister f s = .next s') : Kept s s' := by
  cases h
  refine ⟨rfl, rfl, rfl, rfl, fun hone => ?_⟩
  have hsame : ((s.clients.map fun conn =>
      if conn.io.fd = f.i32 fd then { conn with netmtclient := clientRecord f } else conn).map
        fun conn => conn.io.conn) = s.clients.map fun conn => conn.io.conn := by
    rw [List.map_map]
    apply List.map_congr_left
    intro conn _
    change (if _ then _ else _ : IoT).io.conn = _
    split <;> rfl
  change List.Nodup _
  rw [hsame]
  exact hone

theorem Kept.trans {s s₁ s₂ : Server} (h : Kept s s₁) (h' : Kept s₁ s₂) : Kept s s₂ :=
  ⟨h'.out.trans h.out, h'.files.trans h.files, h'.fp.trans h.fp, h'.mutex.trans h.mutex,
    fun hone => h'.oneEntry (h.oneEntry hone)⟩

theorem Meanwhile.kept {s s' : Server} (h : Meanwhile s s') : Kept s s' := by
  induction h with
  | nothing => exact ⟨rfl, rfl, rfl, rfl, id⟩
  | accept io _ hnew hstep ih => exact ih.trans (accept_kept hnew hstep)
  | close io _ hstep ih => exact ih.trans (close_kept hstep)
  | register f _ hstep ih => exact ih.trans (register_kept hstep)

/-- After `fopen` the command reads its file from the start. -/
theorem begin_reading {cwd : CString} {argv : List CString} {fopenOk : Bool} {h₀ begun : Host}
    {t : Sending} (hb : sendBegin cwd argv fopenOk h₀ = .passes begun t) :
    ∃ id path content, begun.server.fp = some id ∧ begun.server.files.Reading id path content ∧
      begun.server.out = h₀.server.out ∧ begun.server.clients = h₀.server.clients ∧
      begun.server.mutex = h₀.server.mutex ∧ t.sendbuf.u32 subcommonid = NETMT_FILE_OPEN := by
  obtain ⟨localPath, remotePath, files, id, -, ho, hbegun, hbuf⟩ := sendBegin_passes hb
  obtain ⟨b, -, -, hr⟩ := FileStore.openRead_reading ho
  subst hbegun
  refine ⟨id, _, b, rfl, hr, rfl, rfl, rfl, ?_⟩
  rw [hbuf]
  simp [sendRequest, fileRequest]

/-- No pass fails: whatever happens in between, a command that has opened its file
runs to its end. -/
theorem passes_run {cwd : CString} {argv : List CString} {fopenOk : Bool} {h₀ begun : Host}
    {t : Sending} (hb : sendBegin cwd argv fopenOk h₀ = .passes begun t) {s₁ s₂ : Server}
    (h₁ : Meanwhile begun.server s₁)
    (h₂ : Meanwhile (sendOpen t { begun with server := s₁ }).server s₂) :
    ∃ looped, sendData t { begun with server := s₂ } = .ok looped ∧
      looped.1.server.clients = s₂.clients ∧
      ∀ s₃, Meanwhile looped.1.server s₃ →
        ∃ final, sendEnd looped.2 { looped.1 with server := s₃ } = .ok final := by
  obtain ⟨id, path, content, hfp, hr, -⟩ := begin_reading hb
  obtain ⟨files, hclose, -⟩ := hr.close
  have hfp₂ : s₂.fp = some id := by rw [h₂.kept.fp, sendOpen, broadcast, h₁.kept.fp, hfp]
  have hfiles₂ : s₂.files = begun.server.files := by
    rw [h₂.kept.files, sendOpen, broadcast, h₁.kept.files]
  have hdata := sendData_eq t { begun with server := s₂ } hfp₂ (by rw [hfiles₂]; exact hr)
  rw [broadcasts] at hdata
  refine ⟨_, hdata, rfl, fun s₃ h₃ => ⟨_, @sendEnd_eq _ _ id files ?_ ?_⟩⟩
  · rw [h₃.kept.fp]
    change s₂.fp = _
    rw [h₂.kept.fp, sendOpen, broadcast, h₁.kept.fp, hfp]
  · rw [h₃.kept.files]
    change s₂.files.close id = _
    rw [h₂.kept.files, sendOpen, broadcast, h₁.kept.files, hclose]

/-! ## An execution -/

/-- One `send_netmt`, with whatever happens to the client list before each pass. -/
structure Execution (cwd : CString) (argv : List CString) (h₀ : Host) where
  begun : Host
  locals : Sending
  begins : sendBegin cwd argv true h₀ = .passes begun locals
  atOpen : Server
  beforeOpen : Meanwhile begun.server atOpen
  atData : Server
  beforeData : Meanwhile (sendOpen locals { begun with server := atOpen }).server atData
  looped : Host × Sending
  loops : sendData locals { begun with server := atData } = .ok looped
  atEnd : Server
  beforeEnd : Meanwhile looped.1.server atEnd
  final : Host
  ends : sendEnd looped.2 { looped.1 with server := atEnd } = .ok final

namespace Execution

variable {cwd : CString} {argv : List CString} {h₀ : Host} (x : Execution cwd argv h₀)

/-- What the local file holds. -/
def content : List UInt8 := (x.begun.server.fp.map x.begun.server.files.unread).getD []

/-- How many blocks the `DATA` loop reads. -/
def blocks : Nat := (Framing.chunks BUFFER_SIZE x.content).length

/-- The frames of the `DATA` loop. -/
def datas : List Frame := (blockFrames x.locals x.content x.begun.filebytes).1

/-- What this command wrote. -/
def written : List (Hio × Frame) := x.final.server.out.drop h₀.server.out.length

/-- The passes write to this connection. -/
def inOpen (c : Nat) : Prop := Recipient x.locals.select c x.atOpen.clients
def inData (c : Nat) : Prop := Recipient x.locals.select c x.atData.clients
def inEnd (c : Nat) : Prop := Recipient x.locals.select c x.atEnd.clients

/-- Every connection gets a prefix of `FILE_OPEN`, `DATA`, ..., `DATA`, `SEND_END`. -/
def WellFramed : Prop :=
  ∀ c, (toConn c x.written).map (fun f => f.u32 subcommonid) <+:
    NETMT_FILE_OPEN :: (List.replicate x.blocks NETMT_DATA ++ [NETMT_SEND_END])

theorem reading : ∃ id path, x.begun.server.fp = some id ∧
    x.begun.server.files.Reading id path x.content ∧ x.begun.server.out = h₀.server.out ∧
    x.begun.server.clients = h₀.server.clients ∧
    x.locals.sendbuf.u32 subcommonid = NETMT_FILE_OPEN := by
  obtain ⟨id, path, b, hfp, hr, hout, hclients, -, hsub⟩ := begin_reading x.begins
  have hcontent : x.content = b := by
    rw [content, hfp]
    exact hr.unread
  exact ⟨id, path, hfp, by rw [hcontent]; exact hr, hout, hclients, hsub⟩

/-- What the `DATA` loop leaves. -/
theorem looped_eq : x.looped =
    (⟨{ x.atData with out := x.atData.out ++ passesOut x.locals.select x.atData.clients x.datas },
      (blockFrames x.locals x.content x.begun.filebytes).2.2⟩,
      { x.locals with sendbuf := (blockFrames x.locals x.content x.begun.filebytes).2.1 }) := by
  obtain ⟨id, path, hfp, hr, -⟩ := x.reading
  have hkept := x.beforeOpen.kept
  have hkept' := x.beforeData.kept
  have hfp' : x.atData.fp = some id := by rw [hkept'.fp, sendOpen, broadcast, hkept.fp, hfp]
  have hfiles' : x.atData.files = x.begun.server.files := by
    rw [hkept'.files, sendOpen, broadcast, hkept.files]
  have hdata :=
    sendData_eq x.locals { x.begun with server := x.atData } hfp' (by rw [hfiles']; exact hr)
  rw [x.loops, Except.ok.injEq, broadcasts] at hdata
  exact hdata

/-- The three passes, each over the list of its moment. -/
theorem written_eq : ∃ ending : Frame, ending.u32 subcommonid = NETMT_SEND_END ∧
    x.written = passOut x.locals.select x.atOpen.clients x.locals.sendbuf ++
      passesOut x.locals.select x.atData.clients x.datas ++
      passOut x.locals.select x.atEnd.clients ending := by
  obtain ⟨id, path, hfp, hr, hout, -⟩ := x.reading
  have hkept := x.beforeOpen.kept
  have hkept' := x.beforeData.kept
  have hdata := x.looped_eq
  have hkept'' := x.beforeEnd.kept
  obtain ⟨files, hclose, -⟩ := hr.close
  have hend := @sendEnd_eq x.looped.2 { x.looped.1 with server := x.atEnd } id files
    (by rw [hkept''.fp, hdata, hkept'.fp, sendOpen, broadcast, hkept.fp, hfp])
    (by rw [hkept''.files, hdata, hkept'.files, sendOpen, broadcast, hkept.files, hclose])
  rw [x.ends, Except.ok.injEq] at hend
  refine ⟨endFrame x.looped.2.sendbuf NETMT_SEND_END x.looped.1.filebytes, by simp [endFrame], ?_⟩
  have hselect : x.looped.2.select = x.locals.select := by rw [hdata]
  have hfinal : x.final.server.out = h₀.server.out ++
      (passOut x.locals.select x.atOpen.clients x.locals.sendbuf ++
      passesOut x.locals.select x.atData.clients x.datas ++
      passOut x.locals.select x.atEnd.clients
        (endFrame x.looped.2.sendbuf NETMT_SEND_END x.looped.1.filebytes)) := by
    rw [hend, broadcast, hkept''.out, hselect]
    simp only [hdata, hkept'.out, sendOpen, broadcast, hkept.out, hout, passOut, List.append_assoc]
  rw [written, hfinal, List.drop_left]

end Execution

/-- Phases of which each is written or left out. -/
theorem phases_prefix {α : Type} {a b c : α} (hab : a ≠ b) (hac : a ≠ c) (hbc : b ≠ c) (n : Nat)
    (O D E : Prop) [Decidable O] [Decidable D] [Decidable E] :
    (if O then [a] else []) ++ (if D then List.replicate n b else []) ++ (if E then [c] else []) <+:
        a :: (List.replicate n b ++ [c]) ↔
      (D → 0 < n → O) ∧ (E → O ∧ (0 < n → D)) := by
  by_cases hO : O
  · by_cases hD : D
    · by_cases hE : E
      · simp [hO, hD, hE]
      · simp [hO, hD, hE]
    · by_cases hE : E
      · cases n with
        | zero => simp [hO, hD, hE]
        | succ n => simp [hO, hD, hE, List.replicate_succ, hbc.symm]
      · simp [hO, hD, hE]
  · by_cases hD : D
    · cases n with
      | zero =>
        by_cases hE : E
        · simp [hO, hD, hE, hac.symm]
        · simp [hO, hD, hE]
      | succ n => simp [hO, hD, List.replicate_succ, hab.symm]
    · by_cases hE : E
      · simp [hO, hD, hE, hac.symm]
      · simp [hO, hD, hE]

open Classical in
/-- One connection. -/
theorem framed_at_iff {cwd : CString} {argv : List CString} {h₀ : Host}
    (x : Execution cwd argv h₀) (hone : OneEntry h₀.server) (c : Nat) :
    (toConn c x.written).map (fun f => f.u32 subcommonid) <+:
        NETMT_FILE_OPEN :: (List.replicate x.blocks NETMT_DATA ++ [NETMT_SEND_END]) ↔
      (x.inData c → 0 < x.blocks → x.inOpen c) ∧
      (x.inEnd c → x.inOpen c ∧ (0 < x.blocks → x.inData c)) := by
  obtain ⟨id, path, -, -, -, hclients, hsub⟩ := x.reading
  obtain ⟨ending, hending, hwritten⟩ := x.written_eq
  have hdatas : x.datas.map (fun f => f.u32 subcommonid) = List.replicate x.blocks NETMT_DATA :=
    blockFrames_sub x.locals x.content x.begun.filebytes
  have hopen : OneEntry x.atOpen :=
    x.beforeOpen.kept.oneEntry (by rw [OneEntry, hclients]; exact hone)
  have hdata : OneEntry x.atData := x.beforeData.kept.oneEntry hopen
  have hlooped : OneEntry x.looped.1.server := by
    rw [x.looped_eq]
    exact hdata
  have hend : OneEntry x.atEnd := x.beforeEnd.kept.oneEntry hlooped
  have hphases :=
    phases_prefix (a := NETMT_FILE_OPEN) (b := NETMT_DATA) (c := NETMT_SEND_END) (by decide)
    (by decide) (by decide) x.blocks (x.inOpen c) (x.inData c) (x.inEnd c)
  have hpass : ∀ (P : Prop) (fs : List Frame),
    (if P then fs else []).map (fun f => f.u32 subcommonid) =
      if P then fs.map (fun f => f.u32 subcommonid) else [] := by
    intro P fs
    split <;> rfl
  rw [← hphases, hwritten, toConn_append, toConn_append, toConn_pass _ _ _ _ hopen,
    toConn_passes _ _ _ _ hdata, toConn_pass _ _ _ _ hend, List.map_append,
    List.map_append, hpass, hpass,
    hpass, hdatas, List.map_singleton, List.map_singleton, hsub, hending]
  exact Iff.rfl

/-- A `send` is well framed for every client exactly when the later passes find no
client that the `FILE_OPEN` pass missed, and the last none that the blocks missed. -/
theorem send_well_framed_iff {cwd : CString} {argv : List CString} {h₀ : Host}
    (x : Execution cwd argv h₀) (hone : OneEntry h₀.server) :
    x.WellFramed ↔ ∀ c, (x.inData c → 0 < x.blocks → x.inOpen c) ∧
      (x.inEnd c → x.inOpen c ∧ (0 < x.blocks → x.inData c)) := by
  apply forall_congr'
  intro c
  exact framed_at_iff x hone c

/-! ## A client that connects between the passes -/

/-- `send /a all /b`. -/
def sendToAll : List CString :=
  [slashA, ⟨allWord, by decide⟩, slashB]

def rootDir : CString := slash

/-- A server whose file `/a` has one byte. -/
def hostWith (clients : List IoT) : Host :=
  ⟨{ NetmtServer.initial (FileStore.empty.setContent [47, 97] [1]) with clients := clients }, 0⟩

theorem sendToAll_words : SendWords sendToAll slashA slashB selectAll :=
  ⟨⟨allWord, by decide⟩, [slashB], rfl, by decide, by
    have hall : isMode allWord ⟨allWord, by decide⟩ = true := by decide
    rw [selectMode, if_pos hall]⟩

theorem sendToAll_begins (clients : List IoT) :
    ∃ begun t, sendBegin rootDir sendToAll true (hostWith clients) = .passes begun t ∧
      t.select = selectAll ∧ begun.server.clients = clients ∧ begun.server.mutex = false ∧
      (begun.server.fp.map begun.server.files.unread).getD [] = [1] := by
  have hopen := FileStore.openRead_eq (hostWith clients).server.files [47, 97] [1] rfl
  have hbegin := sendBegin_eq rootDir (hostWith clients) sendToAll_words hopen
  exact ⟨_, _, hbegin, rfl, rfl, rfl, by
    simp [opened, hostWith, NetmtServer.initial, FileStore.unread, FileStore.setContent]⟩

/-- Clients come and go before the `DATA` loop only. -/
theorem sendToAll_execution (clients : List IoT) (change : Server → Server)
    (hchange : ∀ s, s.clients = clients → s.mutex = false → Meanwhile s (change s)) :
    ∃ (x : Execution rootDir sendToAll (hostWith clients)) (s : Server), s.clients = clients ∧
      x.locals.select = selectAll ∧ x.atOpen.clients = clients ∧ x.atData = change s ∧
      x.atEnd.clients = x.atData.clients ∧ x.content = [1] := by
  obtain ⟨begun, t, hbegin, hselect, hclients, hmutex, hcontent⟩ := sendToAll_begins clients
  have h₂ := hchange (sendOpen t begun).server hclients hmutex
  obtain ⟨looped, hloop, hlooped, hend⟩ := passes_run hbegin .nothing h₂
  obtain ⟨final, hfinal⟩ := hend _ .nothing
  exact ⟨⟨begun, t, hbegin, begun.server, .nothing, _, h₂, looped, hloop, _, .nothing, final,
    hfinal⟩, (sendOpen t begun).server, hclients, hselect, hclients, rfl, hlooped, hcontent⟩

theorem one_block : (Framing.chunks BUFFER_SIZE ([1] : List UInt8)).length = 1 := by
  rw [Framing.chunks, Framing.blocks_short (by decide), Framing.rest_short (by decide)]
  rfl

def connected : IoT := ⟨⟨1, 7⟩, default, [], DATABUF, 0, 0⟩

theorem recipient_connected : Recipient selectAll 1 [connected] :=
  ⟨connected, List.mem_singleton_self _, rfl, rfl⟩

/-- With nobody coming or going, the one client gets a well-formed transfer. -/
theorem send_to_one_well_framed : ∃ x : Execution rootDir sendToAll (hostWith [connected]),
    x.WellFramed ∧ x.inOpen 1 ∧ x.inData 1 ∧ x.inEnd 1 := by
  obtain ⟨x, s, hs, hselect, hopen, hdata, hend, -⟩ := sendToAll_execution [connected] id
    (fun s _ _ => .nothing)
  have hdata' : x.atData.clients = [connected] := by rw [hdata, id, hs]
  have hall : ∀ c, x.inOpen c ↔ Recipient selectAll c [connected] := by
    intro c
    rw [Execution.inOpen, hselect, hopen]
  have hall' : ∀ c, x.inData c ↔ Recipient selectAll c [connected] := by
    intro c
    rw [Execution.inData, hselect, hdata']
  have hall'' : ∀ c, x.inEnd c ↔ Recipient selectAll c [connected] := by
    intro c
    rw [Execution.inEnd, hselect, hend, hdata']
  refine ⟨x, (send_well_framed_iff x (by simp [OneEntry, hostWith])).mpr fun c => ?_,
    (hall 1).mpr recipient_connected, (hall' 1).mpr recipient_connected,
    (hall'' 1).mpr recipient_connected⟩
  rw [hall, hall', hall'']
  exact ⟨fun h _ => h, fun h => ⟨h, fun _ => h⟩⟩

/-- Every execution is well framed. -/
def SendsWellFramed : Prop :=
  ∀ (cwd : CString) (argv : List CString) (h₀ : Host) (x : Execution cwd argv h₀),
    OneEntry h₀.server → x.WellFramed

/-- A client that connects between the first two passes gets `DATA` without `FILE_OPEN`. -/
theorem late_client_not_well_framed : ¬ SendsWellFramed := by
  intro h
  let accepted : Server → Server := fun s => { s with clients := connected :: s.clients }
  obtain ⟨x, s, hs, hselect, hopen, hdata, -, hcontent⟩ := sendToAll_execution [] accepted
    (fun s hs hm => .accept ⟨1, 7⟩ .nothing (by simp [hs]) (netmtAccept_eq ⟨1, 7⟩ s hm))
  have hframed := (framed_at_iff x (by simp [OneEntry, hostWith]) 1).mp
    (h rootDir sendToAll (hostWith []) x (by simp [OneEntry, hostWith]) 1)
  have hin : x.inData 1 := by
    rw [Execution.inData, hselect, hdata]
    exact ⟨connected, List.mem_cons_self, rfl, rfl⟩
  have hblocks : 0 < x.blocks := by
    rw [Execution.blocks, hcontent, one_block]
    decide
  obtain ⟨conn, hconn, -⟩ := hframed.1 hin hblocks
  rw [hopen] at hconn
  cases hconn

end NetmtSendTransfer
