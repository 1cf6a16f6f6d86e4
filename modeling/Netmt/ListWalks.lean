import Netmt.Server
import Netmt.Lib.Links
import Netmt.Lib.Schedule
import Mathlib.Logic.Function.Basic
import Mathlib.Data.List.Nodup

/-!
# Walking the client list while writes fail

Two handlers of the server walk the client list with `list_for_each` and write to the
entries that they look for. On the loop's own thread, a write to a broken connection
closes it, and the close callback unlinks and frees the entry before the write
returns. The loop then asks the freed entry for the next one.
-/
namespace NetmtListWalks

open NetmtCommand NetmtTcpRecv NetmtServer Links

/-- The server during a walk. -/
structure Walk where
  /-- `t_server.clients` -/
  ring : Circle IoT
  /-- `userdata` of the connections -/
  userdata : Hio → Option Nat
  opened : List Hio
  mutex : Bool
  sendbuf : Frame
  out : List (Hio × Frame)

/-- `netmt_close`. -/
def netmtClose (io : Hio) (w : Walk) : Except Fault Walk :=
  match w.userdata io with
  | none => .ok w
  | some client =>
    let w' := { w with userdata := Function.update w.userdata io none }
    if w.mutex then .error .deadlock
    else
      match w.ring.delete client with
      | none => .error .nullUserdata
      | some r => .ok { w' with ring := r.free client }

/-- `hio_write` on the thread of the loop: a broken connection is closed at once. -/
def hioWrite (broken : Hio → Bool) (io : Hio) (f : Frame) (w : Walk) : Except Fault Walk :=
  if io ∉ w.opened then .ok w
  else if broken io then netmtClose io { w with opened := w.opened.filter fun o => o ≠ io }
  else .ok { w with out := w.out ++ [(io, f)] }

/-- The body of a walk: a match is written to, and `sendbuf` is then changed by `after`. -/
def visit (broken : Hio → Bool) (after : Frame → Frame) (conn : IoT) (w : Walk) :
    Except Fault Walk :=
  if conn.io.fd = w.sendbuf.i32 fd then
    let sendbuf := setLen w.sendbuf
    (hioWrite broken conn.io sendbuf { w with sendbuf := sendbuf }).map fun w' =>
      { w' with sendbuf := after sendbuf }
  else .ok w

/-- The heartbeat clears `sendbuf` behind a write. -/
def heartbeatVisit (broken : Hio → Bool) : IoT → Walk → Except Fault Walk :=
  visit broken fun _ => Region.zero 5168

def getEndVisit (broken : Hio → Bool) : IoT → Walk → Except Fault Walk := visit broken id

/-- `list_for_each(node, &t_server.clients)`. -/
def listForEach (body : IoT → Walk → Except Fault Walk) (fuel : Nat) (w : Walk) :
    Except (Stop Fault) (List Nat × Walk) := forEach Walk.ring body fuel w.ring.next w

/-- The list is whole, its entries are those of the open connections, and a connection
leads to its entry. -/
structure Listed (w : Walk) (cells : List (Nat × IoT)) : Prop where
  ring : w.ring.Has cells
  opened : w.opened = cells.map fun c => c.2.io
  apart : (cells.map fun c => c.2.io).Nodup
  userdata : ∀ c ∈ cells, w.userdata c.2.io = some c.1

/-- The walk ends, has visited every entry that remains once, and leaves the entries of
the connections that are still open. -/
def Survives (body : IoT → Walk → Except Fault Walk) (w : Walk) (cells : List (Nat × IoT)) : Prop :=
  ∃ fuel visited w', listForEach body fuel w = .ok (visited, w') ∧
    Listed w' (cells.filter fun c => c.2.io ∈ w'.opened) ∧
    ∀ c ∈ cells, c.2.io ∈ w'.opened → visited.count c.1 = 1

/-! ## Closing outside of a walk -/

/-- Between two walks a connection is closed without harm. -/
theorem netmtClose_listed {w : Walk} {cells : List (Nat × IoT)} (h : Listed w cells)
    (hmutex : w.mutex = false) (c : Nat × IoT) (hc : c ∈ cells) :
    ∃ w', netmtClose c.2.io { w with opened := w.opened.filter fun o => o ≠ c.2.io } = .ok w' ∧
      Listed w' (cells.filter fun d => d.2.io ≠ c.2.io) ∧ read w'.ring.heap c.1 = none := by
  obtain ⟨pre, post, rfl⟩ := List.mem_iff_append.mp hc
  obtain ⟨r, hdelete, hhas⟩ := h.ring.delete
  have huser := h.userdata c (by simp)
  have hclose : netmtClose c.2.io { w with opened := w.opened.filter fun o => o ≠ c.2.io } =
      .ok { w with
        opened := w.opened.filter fun o => o ≠ c.2.io
        userdata := Function.update w.userdata c.2.io none
        ring := r.free c.1 } := by
    simp only [netmtClose, huser, hmutex, hdelete, Bool.false_eq_true, if_false]
  have hne : ∀ d ∈ pre ++ post, d.2.io ≠ c.2.io := by
    have hapart := h.apart
    rw [List.map_append, List.map_cons, List.nodup_append, List.nodup_cons] at hapart
    intro d hd
    cases List.mem_append.mp hd with
    | inl hd => exact hapart.2.2 _ (List.mem_map_of_mem hd) _ List.mem_cons_self
    | inr hd => exact fun heq => hapart.2.1.1 (heq ▸ List.mem_map_of_mem hd)
  have hothers : (pre ++ c :: post).filter (fun d => d.2.io ≠ c.2.io) = pre ++ post := by
    rw [List.filter_append, List.filter_cons_of_neg (by simp), ← List.filter_append,
      List.filter_eq_self.mpr fun d hd => decide_eq_true (hne d hd)]
  refine ⟨_, hclose, ?_, read_free c.1⟩
  have hsub : (pre ++ post).Sublist (pre ++ c :: post) :=
    (List.Sublist.refl pre).append (List.sublist_cons_self c post)
  rw [hothers]
  refine ⟨hhas, ?_, h.apart.sublist (hsub.map _), fun d hd => ?_⟩
  · change w.opened.filter _ = _
    rw [h.opened, List.filter_map, ← hothers]
    rfl
  · change Function.update w.userdata c.2.io none d.2.io = _
    rw [Function.update_of_ne (hne d hd)]
    exact h.userdata d (hsub.subset hd)

/-! ## The walks -/

/-- No write of the walk goes to a broken connection. -/
def Unbroken (broken : Hio → Bool) (after : Frame → Frame) : List IoT → Frame → Prop
  | [], _ => True
  | conn :: rest, sendbuf =>
    if conn.io.fd = sendbuf.i32 fd then
      broken conn.io = false ∧ Unbroken broken after rest (after (setLen sendbuf))
    else Unbroken broken after rest sendbuf

section Walks

variable {broken : Hio → Bool} {after : Frame → Frame}

theorem visit_other {conn : IoT} {w : Walk} (h : conn.io.fd ≠ w.sendbuf.i32 fd) :
    visit broken after conn w = .ok w := by
  rw [visit, if_neg h]

theorem visit_match {broken : Hio → Bool} (after : Frame → Frame) {conn : IoT} {w : Walk}
    (h : conn.io.fd = w.sendbuf.i32 fd) (hopen : conn.io ∈ w.opened)
    (hok : broken conn.io = false) : visit broken after conn w =
      .ok { w with
        sendbuf := after (setLen w.sendbuf)
        out := w.out ++ [(conn.io, setLen w.sendbuf)] } := by
  simp only [visit, if_pos h, hioWrite, hopen, hok, not_true_eq_false, Bool.false_eq_true, if_false,
    Except.map]

/-- What the walk writes when none of its connections is broken. -/
def walkWrites (after : Frame → Frame) : List IoT → Frame → List (Hio × Frame)
  | [], _ => []
  | conn :: rest, sendbuf =>
    if conn.io.fd = sendbuf.i32 fd then
      (conn.io, setLen sendbuf) :: walkWrites after rest (after (setLen sendbuf))
    else walkWrites after rest sendbuf

/-- Nothing but writes happens then. -/
theorem unbroken_quiet {conns : List IoT} {w : Walk} (hopen : ∀ conn ∈ conns, conn.io ∈ w.opened)
    (h : Unbroken broken after conns w.sendbuf) :
    ∃ sendbuf, Quiet Walk.ring (visit broken after) conns w
      { w with sendbuf := sendbuf, out := w.out ++ walkWrites after conns w.sendbuf } := by
  induction conns generalizing w with
  | nil =>
    refine ⟨w.sendbuf, ?_⟩
    rw [walkWrites, List.append_nil]
    exact .nil w
  | cons conn rest ih =>
    rw [Unbroken] at h
    rw [walkWrites]
    split at h
    · next hfd =>
      have hvisit := visit_match after hfd (hopen conn (by simp)) h.1
      obtain ⟨sendbuf, hquiet⟩ := ih (w := { w with
        sendbuf := after (setLen w.sendbuf)
        out := w.out ++ [(conn.io, setLen w.sendbuf)] })
        (fun d hd => hopen d (List.mem_cons_of_mem _ hd)) h.2
      refine ⟨sendbuf, ?_⟩
      rw [if_pos hfd]
      simp only [List.append_assoc, List.singleton_append] at hquiet
      exact .cons hvisit rfl hquiet
    · next hfd =>
      obtain ⟨sendbuf, hquiet⟩ := ih (fun d hd => hopen d (List.mem_cons_of_mem _ hd)) h
      refine ⟨sendbuf, ?_⟩
      rw [if_neg hfd]
      exact .cons (visit_other hfd) rfl hquiet

/-- Up to the first write that goes to a broken connection, nothing but writes happens. -/
theorem broken_split {conns : List IoT} {w : Walk} (hopen : ∀ conn ∈ conns, conn.io ∈ w.opened)
    (h : ¬ Unbroken broken after conns w.sendbuf) :
    ∃ pre conn post sendbuf out, conns = pre ++ conn :: post ∧
      Quiet Walk.ring (visit broken after) pre w { w with sendbuf := sendbuf, out := out } ∧
      conn.io.fd = sendbuf.i32 fd ∧ broken conn.io = true := by
  induction conns generalizing w with
  | nil => exact absurd trivial h
  | cons conn rest ih =>
    rw [Unbroken] at h
    split at h
    · next hfd =>
      cases hbroken : broken conn.io with
      | true => exact ⟨[], conn, rest, w.sendbuf, w.out, rfl, .nil w, hfd, hbroken⟩
      | false =>
        have hvisit := visit_match after hfd (hopen conn (by simp)) hbroken
        obtain ⟨pre, d, post, sendbuf, out, rfl, hquiet, hd⟩ := ih (w := { w with
          sendbuf := after (setLen w.sendbuf)
          out := w.out ++ [(conn.io, setLen w.sendbuf)] })
          (fun d hd => hopen d (List.mem_cons_of_mem _ hd)) fun hrest => h ⟨hbroken, hrest⟩
        exact ⟨conn :: pre, d, post, sendbuf, out, rfl, .cons hvisit rfl hquiet, hd⟩
    · next hfd =>
      obtain ⟨pre, d, post, sendbuf, out, rfl, hquiet, hd⟩ :=
        ih (fun d hd => hopen d (List.mem_cons_of_mem _ hd)) h
      exact ⟨conn :: pre, d, post, sendbuf, out, rfl, .cons (visit_other hfd) rfl hquiet, hd⟩

/-- The write to a broken connection faults, or takes the entry from under the loop. -/
theorem visit_broken {w : Walk} {cells : List (Nat × IoT)} (h : Listed w cells) {c : Nat × IoT}
    (hc : c ∈ cells) (hfd : c.2.io.fd = w.sendbuf.i32 fd) (hbroken : broken c.2.io = true)
    (w₂ : Walk) (hvisit : visit broken after c.2 w = .ok w₂) : read w₂.ring.heap c.1 = none := by
  have hopen : c.2.io ∈ w.opened := by
    rw [h.opened]
    exact List.mem_map_of_mem hc
  have hlisted : Listed { w with sendbuf := setLen w.sendbuf } cells :=
    ⟨h.ring, h.opened, h.apart, h.userdata⟩
  simp only [visit, if_pos hfd, hioWrite, hopen, not_true_eq_false, if_false, hbroken,
    if_true] at hvisit
  cases hmutex : w.mutex with
  | true =>
    simp only [netmtClose, h.userdata c hc, hmutex, if_true] at hvisit
    cases hvisit
  | false =>
    obtain ⟨w₁, hclose, -, hfreed⟩ := netmtClose_listed hlisted hmutex c hc
    simp only [hclose] at hvisit
    cases hvisit
    exact hfreed

theorem Listed.open_conns {w : Walk} {cells : List (Nat × IoT)} (h : Listed w cells) :
    ∀ conn ∈ cells.map Prod.snd, conn.io ∈ w.opened := by
  intro conn hconn
  obtain ⟨c, hc, rfl⟩ := List.mem_map.mp hconn
  rw [h.opened]
  exact List.mem_map_of_mem hc

/-- A walk that writes to no broken connection visits all entries and changes none. -/
theorem unbroken_walk {w : Walk} {cells : List (Nat × IoT)} (h : Listed w cells)
    (hunbroken : Unbroken broken after (cells.map Prod.snd) w.sendbuf) :
    ∃ sendbuf, listForEach (visit broken after) cells.length w = .ok (cells.map Prod.fst, { w with
      sendbuf := sendbuf
      out := w.out ++ walkWrites after (cells.map Prod.snd) w.sendbuf }) := by
  obtain ⟨sendbuf, hquiet⟩ := unbroken_quiet h.open_conns hunbroken
  refine ⟨sendbuf, ?_⟩
  rw [listForEach, h.ring.next]
  exact forEach_quiet h.ring.segment hquiet cells.length (le_refl _)

/-- A walk survives exactly when it writes to no broken connection. -/
theorem survives_iff {w : Walk} {cells : List (Nat × IoT)} (h : Listed w cells) :
    Survives (visit broken after) w cells ↔
    Unbroken broken after (cells.map Prod.snd) w.sendbuf := by
  constructor
  · rintro ⟨fuel, visited, w', hwalk, -⟩
    by_contra hbroken
    obtain ⟨pre, conn, post, sendbuf, out, hsplit, hquiet, hfd, hconn⟩ :=
      broken_split h.open_conns hbroken
    obtain ⟨cpre, ccons, rfl, hpre, hcons⟩ := List.map_eq_append_iff.mp hsplit
    obtain ⟨c, cpost, rfl, rfl, -⟩ := List.map_eq_cons_iff.mp hcons
    rw [listForEach, h.ring.next] at hwalk
    refine forEach_stops h.ring.segment (hpre ▸ hquiet) (fun w₂ hvisit => ?_) fuel _ hwalk
    have hlisted : Listed { w with sendbuf := sendbuf, out := out } (cpre ++ c :: cpost) :=
      ⟨h.ring, h.opened, h.apart, h.userdata⟩
    exact visit_broken hlisted (by simp) hfd hconn w₂ hvisit
  · intro hunbroken
    obtain ⟨sendbuf, hwalk⟩ := unbroken_walk h hunbroken
    have hall : (cells.filter fun c => decide (c.2.io ∈ w.opened)) = cells := by
      rw [List.filter_eq_self]
      exact fun c hc => decide_eq_true (h.open_conns c.2 (List.mem_map_of_mem hc))
    refine ⟨cells.length, _, _, hwalk, ?_, fun c hc _ => ?_⟩
    · change Listed _ (cells.filter fun c => decide (c.2.io ∈ w.opened))
      rw [hall]
      exact ⟨h.ring, h.opened, h.apart, h.userdata⟩
    · exact List.count_eq_one_of_mem h.ring.apart (List.mem_map_of_mem hc)

end Walks

/-! ## Which connections are written to -/

theorem setLen_fd (f : Frame) : (setLen f).i32 fd = f.i32 fd := by
  rw [setLen, Region.putI32, Region.i32_put_other _ _ _ _ (by simp) (by simp)]

/-- Without clearing, all entries with the descriptor. -/
theorem unbroken_id {broken : Hio → Bool} (conns : List IoT) (sendbuf : Frame) :
    Unbroken broken id conns sendbuf ↔
      ∀ conn ∈ conns, conn.io.fd = sendbuf.i32 fd → broken conn.io = false := by
  induction conns generalizing sendbuf with
  | nil => simp [Unbroken]
  | cons conn rest ih =>
    rw [Unbroken, List.forall_mem_cons, id, ih, setLen_fd, ih]
    split
    · next hfd => rw [imp_iff_right hfd]
    · next hfd => exact (and_iff_right fun h => absurd h hfd).symm

theorem unbroken_zero {broken : Hio → Bool} (conns : List IoT) :
    Unbroken broken (fun _ => Region.zero 5168) conns (Region.zero 5168) ↔
      ∀ conn ∈ conns, conn.io.fd = 0 → broken conn.io = false := by
  induction conns with
  | nil => simp [Unbroken]
  | cons conn rest ih =>
    rw [Unbroken, List.forall_mem_cons, Region.i32_zero, ih]
    split
    · next hfd => rw [imp_iff_right hfd]
    · next hfd => exact (and_iff_right fun h => absurd h hfd).symm

/-- With clearing, the first entry with the descriptor, and those with descriptor 0 behind it. -/
theorem unbroken_cleared {broken : Hio → Bool} (conns : List IoT) (sendbuf : Frame) :
    Unbroken broken (fun _ => Region.zero 5168) conns sendbuf ↔
      ∀ pre conn post, conns = pre ++ conn :: post →
        conn.io.fd = (if ∃ d ∈ pre, d.io.fd = sendbuf.i32 fd then 0 else sendbuf.i32 fd) →
        broken conn.io = false := by
  induction conns with
  | nil => simp [Unbroken]
  | cons conn rest ih =>
    have hfirst : ¬ ∃ d ∈ ([] : List IoT), d.io.fd = sendbuf.i32 fd := by simp
    rw [Unbroken, Schedule.forall_split_cons, if_neg hfirst]
    split
    · next hfd =>
      have hbehind : ∀ pre : List IoT, ∃ d ∈ conn :: pre, d.io.fd = sendbuf.i32 fd :=
        fun pre => ⟨conn, List.mem_cons_self, hfd⟩
      simp only [unbroken_zero, imp_iff_right hfd, if_pos (hbehind _)]
      refine and_congr_right fun _ => ⟨fun h pre d post hsplit hd => h d (by simp [hsplit]) hd, ?_⟩
      intro h d hd hzero
      obtain ⟨pre, post, hsplit⟩ := List.mem_iff_append.mp hd
      exact h pre d post hsplit hzero
    · next hfd =>
      have hskip : ∀ pre : List IoT, (∃ d ∈ conn :: pre, d.io.fd = sendbuf.i32 fd) ↔
          ∃ d ∈ pre, d.io.fd = sendbuf.i32 fd := by
        intro pre
        rw [List.exists_mem_cons_iff, or_iff_right hfd]
      simp only [ih, hskip]
      exact (and_iff_right fun h => absurd h hfd).symm

/-! ## The model of the handlers -/

/-- The heartbeat writes what its handler says. -/
theorem walkWrites_pong (conns : List IoT) (sendbuf : Frame) :
    walkWrites (fun _ => Region.zero 5168) conns sendbuf = pongWalk conns sendbuf := by
  induction conns generalizing sendbuf with
  | nil => rfl
  | cons conn rest ih => rw [walkWrites, pongWalk, ih, ih]

theorem setLen_setLen (f : Frame) : setLen (setLen f) = setLen f :=
  Region.put_put f len rfl (by simp)

/-- And so does the end of a `get`. -/
theorem walkWrites_getEnd (conns : List IoT) (sendbuf : Frame) : walkWrites id conns sendbuf =
    (conns.filter fun conn => conn.io.fd = sendbuf.i32 fd).map fun conn =>
      (conn.io, setLen sendbuf) := by
  induction conns generalizing sendbuf with
  | nil => rfl
  | cons conn rest ih =>
    rw [walkWrites, ih, ih, id, setLen_fd, setLen_setLen]
    by_cases hfd : conn.io.fd = sendbuf.i32 fd
    · rw [if_pos hfd, List.filter_cons, if_pos (decide_eq_true hfd), List.map_cons]
    · rw [if_neg hfd, List.filter_cons, if_neg fun h => hfd (of_decide_eq_true h)]

/-- A walk that survives writes what the model of its handler writes, and nothing else happens. -/
theorem walks_refine {broken : Hio → Bool} {w : Walk} {cells : List (Nat × IoT)}
    (h : Listed w cells) :
    (Survives (heartbeatVisit broken) w cells → ∃ sendbuf,
      listForEach (heartbeatVisit broken) cells.length w = .ok (cells.map Prod.fst, { w with
        sendbuf := sendbuf
        out := w.out ++ pongWalk (cells.map Prod.snd) w.sendbuf })) ∧
    (Survives (getEndVisit broken) w cells → ∃ sendbuf,
      listForEach (getEndVisit broken) cells.length w = .ok (cells.map Prod.fst, { w with
        sendbuf := sendbuf
        out := w.out ++ ((cells.map Prod.snd).filter fun conn => conn.io.fd = w.sendbuf.i32 fd).map
          fun conn => (conn.io, setLen w.sendbuf) })) := by
  rw [← walkWrites_pong, ← walkWrites_getEnd]
  exact ⟨fun hs => unbroken_walk h ((survives_iff h).mp hs), fun hs =>
    unbroken_walk h ((survives_iff h).mp hs)⟩

section Descriptors

variable {broken : Hio → Bool} {w : Walk} {cells : List (Nat × IoT)}

/-- The heartbeat writes to the first entry with the frame's descriptor, and then to
entries with descriptor 0. -/
theorem heartbeat_survives_iff (h : Listed w cells) : Survives (heartbeatVisit broken) w cells ↔
    ∀ pre conn post, cells.map Prod.snd = pre ++ conn :: post →
      conn.io.fd = (if ∃ d ∈ pre, d.io.fd = w.sendbuf.i32 fd then 0 else w.sendbuf.i32 fd) →
      broken conn.io = false :=
  (survives_iff h).trans (unbroken_cleared _ _)

/-- The end of a `get` writes to all entries with the frame's descriptor. -/
theorem getEnd_survives_iff (h : Listed w cells) : Survives (getEndVisit broken) w cells ↔
    ∀ conn ∈ cells.map Prod.snd, conn.io.fd = w.sendbuf.i32 fd → broken conn.io = false :=
  (survives_iff h).trans (unbroken_id _ _)

end Descriptors

theorem walks_survive_iff (broken : Hio → Bool) (w : Walk) (cells : List (Nat × IoT))
    (h : Listed w cells) :
    (Survives (heartbeatVisit broken) w cells ↔
      ∀ pre conn post, cells.map Prod.snd = pre ++ conn :: post →
        conn.io.fd = (if ∃ d ∈ pre, d.io.fd = w.sendbuf.i32 fd then 0 else w.sendbuf.i32 fd) →
        broken conn.io = false) ∧
    (Survives (getEndVisit broken) w cells ↔
      ∀ conn ∈ cells.map Prod.snd, conn.io.fd = w.sendbuf.i32 fd → broken conn.io = false) :=
  ⟨heartbeat_survives_iff h, getEnd_survives_iff h⟩

/-! ## Two clients -/

/-- Connections with descriptors 7 and 8; the frame is for 7. -/
def connA : IoT := ⟨⟨1, 7⟩, default, [], DATABUF, 0, 0⟩
def connB : IoT := ⟨⟨2, 8⟩, default, [], DATABUF, 0, 0⟩

def twoCells : List (Nat × IoT) := [(0, connA), (1, connB)]

def twoClients : Walk where
  ring := ⟨[some ⟨none, some 1, connA⟩, some ⟨some 0, none, connB⟩], some 0, some 1⟩
  userdata io := if io = connA.io then some 0 else if io = connB.io then some 1 else none
  opened := [connA.io, connB.io]
  mutex := false
  sendbuf := (default : Frame).putI32 fd 7
  out := []

theorem twoClients_listed : Listed twoClients twoCells where
  ring := ⟨⟨rfl, rfl, trivial⟩, rfl, rfl, by unfold Apart; decide⟩
  opened := rfl
  apart := by decide
  userdata c hc := by
    rcases List.mem_cons.mp hc with rfl | hc
    · rfl
    · obtain rfl := List.mem_singleton.mp hc
      rfl

theorem twoClients_fd : twoClients.sendbuf.i32 fd = 7 := by
  have hsame : twoClients.sendbuf.i32 fd = Region.wrap32 7 := Region.i32_put_same _ _ _ (by simp)
  rw [hsame]
  decide

/-- The other connection may be broken. -/
theorem other_broken_survives : Survives (heartbeatVisit fun io => io.fd = 8) twoClients twoCells ∧
    Survives (getEndVisit fun io => io.fd = 8) twoClients twoCells := by
  obtain ⟨hbeat, hget⟩ :=
    walks_survive_iff (fun io => io.fd = 8) twoClients twoCells twoClients_listed
  rw [twoClients_fd] at hbeat hget
  refine ⟨hbeat.mpr fun pre conn post _ hfd => ?_, hget.mpr fun conn _ hfd => ?_⟩
  · split at hfd <;> simp [hfd]
  · simp [hfd]

/-- The connection that is written to is broken. -/
theorem own_broken_faults : ¬ Survives (heartbeatVisit fun io => io.fd = 7) twoClients twoCells ∧
    ¬ Survives (getEndVisit fun io => io.fd = 7) twoClients twoCells := by
  constructor
  · intro h
    have hok := (heartbeat_survives_iff twoClients_listed).mp h [] connA [connB] rfl
      (by rw [if_neg (by simp), twoClients_fd]; decide)
    cases hok
  · intro h
    have hok := (getEnd_survives_iff twoClients_listed).mp h connA (by simp [twoCells])
      (by rw [twoClients_fd]; decide)
    cases hok

end NetmtListWalks
