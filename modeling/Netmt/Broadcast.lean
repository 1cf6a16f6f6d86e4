import Netmt.Registry

/-!
# The broadcast to all clients

`send_total_string` walks the client list, keeps the descriptors it meets in an array
of ten, and writes the command to each of them.
-/
namespace NetmtBroadcast

open NetmtCommand NetmtTcpRecv NetmtTransfer NetmtServer NetmtServerCommand NetmtRegistry

/-- The locals of `send_total_string`, with what was written. -/
structure Locals where
  connfd : Vector Int 10
  count : Nat
  comm : Frame
  out : List (Hio × Frame)

def start (cmd : Frame) : Locals := ⟨Vector.replicate 10 0, 0, cmd, []⟩

/-- The body of `list_for_each`, on `conn->io`. -/
def visit (t : Locals) (io : Option Hio) : Except Fault Locals :=
  match io with
  | none => .ok t
  | some io =>
    if io.fd ≠ 0 then
      if h : t.count < 10 then
        .ok { connfd := t.connfd.set t.count io.fd
              count := t.count + 1
              comm := setLen t.comm
              out := t.out ++ [(io, setLen t.comm)] }
      else .error .localBuffer
    else .ok t

/-- The loop. -/
def walk : List (Option Hio) → Locals → Except Fault Locals
  | [], t => .ok t
  | io :: ios, t => (visit t io).bind (walk ios)

/-- `send_total_string`, on the `io` of every entry. -/
def sendTotal (cmd : Frame) (ios : List (Option Hio)) : Except Fault Locals := walk ios (start cmd)

/-- The entries that are meant: with an `io`, and this with a descriptor. -/
def recipients (ios : List (Option Hio)) : List Hio := (ios.filterMap id).filter fun io => io.fd ≠ 0

/-- No index leaves `connfd`, and each recipient is written the command once, with its length. -/
def Reaches (cmd : Frame) (ios : List (Option Hio)) : Prop :=
  ∃ t, sendTotal cmd ios = .ok t ∧ t.out = (recipients ios).map fun io => (io, setLen cmd)

/-! ## The loop -/

theorem setLen_setLen (f : Frame) : setLen (setLen f) = setLen f :=
  Region.put_put f len rfl (by simp)

theorem recipients_some (io : Hio) (ios : List (Option Hio)) :
    recipients (some io :: ios) = if io.fd ≠ 0 then io :: recipients ios else recipients ios := by
  simp only [recipients, List.filterMap_cons, id_eq, List.filter_cons, decide_eq_true_iff]

/-- The locals after a walk from `t` that met `met`. -/
structure Walked (t t' : Locals) (met : List Hio) : Prop where
  count : t'.count = t.count + met.length
  connfd : t'.connfd.toList.take t'.count = t.connfd.toList.take t.count ++ met.map Hio.fd
  comm : setLen t'.comm = setLen t.comm
  out : t'.out = t.out ++ met.map fun io => (io, setLen t.comm)

theorem Walked.refl (t : Locals) : Walked t t [] := ⟨rfl, by simp, rfl, by simp⟩

theorem Walked.trans {t t' t'' : Locals} {met more : List Hio} (h : Walked t t' met)
    (h' : Walked t' t'' more) : Walked t t'' (met ++ more) where
  count := by rw [h'.count, h.count, List.length_append, Nat.add_assoc]
  connfd := by rw [h'.connfd, h.connfd, List.map_append, List.append_assoc]
  comm := h'.comm.trans h.comm
  out := by rw [h'.out, h.out, h.comm, List.map_append, List.append_assoc]

/-- An entry that is met while there is room. -/
theorem visit_some {t : Locals} {io : Hio} (hfd : io.fd ≠ 0) (h : t.count < 10) :
    ∃ t', visit t (some io) = .ok t' ∧ Walked t t' [io] := by
  refine ⟨_, by rw [visit, if_pos hfd, dif_pos h], rfl, ?_, setLen_setLen t.comm, rfl⟩
  change (t.connfd.set t.count io.fd).toList.take (t.count + 1) =
    t.connfd.toList.take t.count ++ [io.fd]
  have hlen : t.count < t.connfd.toList.length := by
    rw [Vector.length_toList]
    exact h
  rw [Vector.toList_set, List.take_add_one, List.take_set_of_le (le_refl _),
    List.getElem?_set_self hlen]
  rfl

/-- The counter goes up with the recipients, and the walk ends when all of them have room. -/
theorem walk_ok {ios : List (Option Hio)} {t : Locals}
    (h : t.count + (recipients ios).length ≤ 10) :
    ∃ t', walk ios t = .ok t' ∧ Walked t t' (recipients ios) := by
  induction ios generalizing t with
  | nil => exact ⟨t, rfl, Walked.refl t⟩
  | cons io ios ih =>
    cases io with
    | none => exact ih h
    | some io =>
      rw [recipients_some] at h ⊢
      by_cases hfd : io.fd ≠ 0
      · rw [if_pos hfd] at h ⊢
        rw [List.length_cons] at h
        obtain ⟨t', hvisit, hmet⟩ := visit_some (t := t) hfd (by omega)
        have hcount := hmet.count
        rw [List.length_singleton] at hcount
        obtain ⟨t'', hwalk, hmore⟩ := ih (t := t') (by omega)
        refine ⟨t'', ?_, hmet.trans hmore⟩
        rw [walk, hvisit, Except.bind, hwalk]
      · rw [if_neg hfd] at h ⊢
        rw [walk, visit, if_neg hfd, Except.bind]
        exact ih h

/-- With more of them it leaves the array. -/
theorem walk_overflow {ios : List (Option Hio)} {t : Locals} (ht : t.count ≤ 10)
    (h : 10 < t.count + (recipients ios).length) : walk ios t = .error .localBuffer := by
  induction ios generalizing t with
  | nil =>
    have hnil : (recipients []).length = 0 := rfl
    omega
  | cons io ios ih =>
    cases io with
    | none => exact ih ht h
    | some io =>
      rw [recipients_some] at h
      by_cases hfd : io.fd ≠ 0
      · rw [if_pos hfd, List.length_cons] at h
        by_cases hroom : t.count < 10
        · obtain ⟨t', hvisit, hmet⟩ := visit_some (t := t) hfd hroom
          have hcount := hmet.count
          rw [List.length_singleton] at hcount
          rw [walk, hvisit, Except.bind]
          exact ih (by omega) (by omega)
        · rw [walk, visit, if_pos hfd, dif_neg hroom]
          rfl
      · rw [if_neg hfd] at h
        rw [walk, visit, if_neg hfd, Except.bind]
        exact ih ht h

/-! ## The broadcast -/

/-- What the broadcast does, told without its array. -/
theorem sendTotal_eq (cmd : Frame) (ios : List (Option Hio)) :
    if 10 < (recipients ios).length then sendTotal cmd ios = .error .localBuffer
    else ∃ t, sendTotal cmd ios = .ok t ∧ Walked (start cmd) t (recipients ios) := by
  have hstart : (start cmd).count = 0 := rfl
  split
  · exact walk_overflow (by omega) (by omega)
  · exact walk_ok (by omega)

/-- The broadcast reaches every recipient exactly when there are at most ten. -/
theorem broadcast_reaches_iff (cmd : Frame) (ios : List (Option Hio)) :
    Reaches cmd ios ↔ (recipients ios).length ≤ 10 := by
  have heq := sendTotal_eq cmd ios
  constructor
  · rintro ⟨t, hrun, -⟩
    by_contra hmany
    rw [if_pos (by omega), hrun] at heq
    cases heq
  · intro h
    rw [if_neg (by omega)] at heq
    obtain ⟨t, hrun, hwalked⟩ := heq
    exact ⟨t, hrun, hwalked.out⟩

/-- Eleven connections, each with a descriptor of its own. -/
def eleven : List (Option Hio) := (List.range 11).map fun k => some ⟨k, k + 7⟩

/-- The eleventh descriptor is written behind the array. -/
theorem eleven_overflow : ¬ ∀ (cmd : Frame) (ios : List (Option Hio)), Reaches cmd ios := by
  intro h
  obtain ⟨t, hrun, -⟩ := h default eleven
  have heq := sendTotal_eq default eleven
  rw [if_pos (by decide), hrun] at heq
  cases heq

/-! ## The server -/

theorem recipients_clients (clients : List IoT) :
    recipients (clients.map fun conn => some conn.io) =
    (clients.filter fun conn => conn.io.fd ≠ 0).map IoT.io := by
  induction clients with
  | nil => rfl
  | cons conn clients ih =>
    rw [List.map_cons, recipients_some, ih, List.filter_cons]
    simp only [decide_eq_true_iff]
    split <;> rfl

/-- On the server's own list, where every entry has an `io`. -/
theorem sendTotalString_walk (cmd : Frame) (s : Server) :
    sendTotalString cmd s =
      (sendTotal cmd (s.clients.map fun conn => some conn.io)).map fun t =>
        { s with out := s.out ++ t.out } := by
  have heq := sendTotal_eq cmd (s.clients.map fun conn => some conn.io)
  rw [recipients_clients, List.length_map] at heq
  rw [sendTotalString]
  split
  · next hmany =>
    rw [if_pos hmany] at heq
    rw [heq]
    rfl
  · next hfew =>
    rw [if_neg hfew] at heq
    obtain ⟨t, hrun, hwalked⟩ := heq
    have hout := hwalked.out
    rw [List.map_map] at hout
    rw [hrun, broadcast]
    exact congrArg (fun out => Except.ok { s with out := s.out ++ out }) hout.symm

/-- Clients that are accepted one after the other. -/
def acceptAll : List Hio → Server → Step Server
  | [], s => .next s
  | io :: ios, s =>
    match netmtAccept io s with
    | .next s' => acceptAll ios s'
    | st => st

/-- Nothing bounds the list: each that is accepted gets an entry. -/
theorem acceptAll_clients (ios : List Hio) {s : Server} (h : s.mutex = false) :
    ∃ s', acceptAll ios s = .next s' ∧ s'.clients.map IoT.io = ios.reverse ++
      s.clients.map IoT.io := by
  induction ios generalizing s with
  | nil => exact ⟨s, rfl, rfl⟩
  | cons io ios ih =>
    rw [acceptAll, netmtAccept_eq io s h]
    obtain ⟨s', hrun, hclients⟩ :=
      ih (s := { s with clients := ⟨io, default, [], DATABUF, 0, 0⟩ :: s.clients }) h
    refine ⟨s', hrun, hclients.trans ?_⟩
    rw [List.map_cons, List.reverse_cons, List.append_assoc]
    rfl

/-- So the broadcast of a server that took more than ten connections leaves the array. -/
theorem accepted_overflow (cmd : Frame) {ios : List Hio}
    (hmany : 10 < (ios.filter fun io => io.fd ≠ 0).length) {s : Server} (h : s.mutex = false) :
    ∃ s', acceptAll ios s = .next s' ∧ sendTotalString cmd s' = .error .localBuffer := by
  obtain ⟨s', hrun, hclients⟩ := acceptAll_clients ios h
  refine ⟨s', hrun, if_pos ?_⟩
  have hlen : (s'.clients.filter fun conn => conn.io.fd ≠ 0).length =
      ((s'.clients.map IoT.io).filter fun io => io.fd ≠ 0).length := by
    rw [List.filter_map, List.length_map]
    rfl
  rw [hlen, hclients, List.filter_append, List.length_append, List.filter_reverse,
    List.length_reverse]
  omega

end NetmtBroadcast
