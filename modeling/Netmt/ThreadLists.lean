import Netmt.Thread

/-!
# The lists of a scheduler

What the heap and the ends of `thread.c` stand for: lists of nodes with their tasks. Every
operation on links is one on these lists, and a node that is on none of them is in hand.
-/
namespace NetmtThreadLists

open Links Shelves NetmtThread

variable {φ α : Type}

/-- The lists, with the addresses of their nodes; `alloc` nodes were allocated. -/
@[ext] structure Tasks (φ α : Type) where
  lists : ListName → List (Nat × Thread φ α)
  fds : ListName → Nat → Bool
  alloc : Nat

def Tasks.put (l : ListName) (cells : List (Nat × Thread φ α)) (T : Tasks φ α) : Tasks φ α :=
  { T with lists := Function.update T.lists l cells }

def Tasks.setFd (l : ListName) (fd : Nat) (on : Bool) (T : Tasks φ α) : Tasks φ α :=
  { T with fds := Function.update T.fds l (Function.update (T.fds l) fd on) }

@[simp] theorem put_self (l : ListName) (cells : List (Nat × Thread φ α)) (T : Tasks φ α) :
    (T.put l cells).lists l = cells := Function.update_self ..

theorem put_other {l l' : ListName} (h : l' ≠ l) (cells : List (Nat × Thread φ α)) (T : Tasks φ α) :
    (T.put l cells).lists l' = T.lists l' := Function.update_of_ne h _ _

/-- The master holds the lists `T`. -/
structure Holds (m : ThreadMaster φ α) (T : Tasks φ α) : Prop where
  shelves : Has m.heap m.lists T.lists
  fds : m.fds = T.fds
  alloc : m.alloc = T.alloc
  size : m.heap.length = T.alloc

/-- The node is in hand: on no list, and with no links. -/
structure InHand (m : ThreadMaster φ α) (T : Tasks φ α) (p : Nat) (x : Thread φ α) : Prop where
  read : read m.heap p = some ⟨none, none, x⟩
  loose : Loose T.lists p

variable {m : ThreadMaster φ α} {T : Tasks φ α} {p : Nat} {x : Thread φ α}

theorem create_holds :
    Holds (threadMasterCreate : ThreadMaster φ α) ⟨fun _ => [], fun _ _ => false, 0⟩ :=
  ⟨has_nil _, rfl, rfl, rfl⟩

theorem Holds.setFd (h : Holds m T) (l : ListName) (fd : Nat) (on : Bool) :
    Holds (m.setFd l fd on) (T.setFd l fd on) := by
  refine ⟨h.shelves, ?_, h.alloc, h.size⟩
  rw [ThreadMaster.setFd, Tasks.setFd, h.fds]

theorem InHand.setFd (h : InHand m T p x) (l : ListName) (fd : Nat) (on : Bool) :
    InHand (m.setFd l fd on) (T.setFd l fd on) p x := ⟨h.read, h.loose⟩

/-- Fields of the node in hand are written. -/
theorem InHand.edit (h : Holds m T) (hp : InHand m T p x) (f : Thread φ α → Thread φ α) :
    ∃ m', m.edit p f = some m' ∧ Holds m' T ∧ InHand m' T p (f x) := by
  refine ⟨{ m with heap := write p ⟨none, none, f x⟩ m.heap }, ?_,
    ⟨h.shelves.write hp.loose _, h.fds, h.alloc, ?_⟩, ?_,
    hp.loose⟩
  · rw [ThreadMaster.edit, hp.read]
    rfl
  · exact (length_write _ _ _).trans h.size
  · exact read_write (read_lt hp.read) _

/-! ## Onto a list and off it -/

theorem last_isSome_iff (cells : List (Nat × Thread φ α)) :
    (last none cells).isSome = true ↔ cells ≠ [] := by
  constructor
  · rintro hsome rfl
    cases hsome
  · intro hne
    obtain ⟨p, hp⟩ := last_isSome none cells hne
    rw [hp]
    rfl

/-- The head of a list behind which something is put. -/
theorem head_put (cells rest : List (Nat × Thread φ α)) (p : Nat) :
    (if (last none cells).isSome then first (cells ++ rest) none else some p) =
      first (cells ++ (p, x) :: rest) none := by
  cases cells with
  | nil => rfl
  | cons c cells => exact if_pos ((last_isSome_iff _).mpr (List.cons_ne_nil c cells))

theorem listAdd_holds (h : Holds m T) (l : ListName) (hp : Loose T.lists p) {n : Node (Thread φ α)}
    (hn : read m.heap p = some n) :
    ∃ m', threadListAdd l p m = some m' ∧ Holds m' (T.put l (T.lists l ++ [(p, n.item)])) := by
  have hcells : T.lists l = T.lists l ++ [] := (List.append_nil _).symm
  have hseg := h.shelves.segment l
  rw [hcells] at hseg
  obtain ⟨heap, hlink, hseg', hlen, hsame⟩ :=
    splice_next_prev n.item hseg (hcells ▸ h.shelves.apart l) (read_lt hn)
    (hcells ▸ hp l)
  have hends := h.shelves.ends l
  have hhas := h.shelves.insert hcells hp hseg' hsame
  refine ⟨m.put l heap (endsOf (T.lists l ++ [(p, n.item)])), ?_, hhas, h.fds, h.alloc,
    hlen.trans h.size⟩
  obtain ⟨heap₁, hnext, hsome⟩ := Option.bind_eq_some_iff.mp hlink
  obtain rfl : heap₁ = heap := Option.some.inj hsome
  have hnext' : setNext (m.lists l).tail p
      (write p { n with next := none, prev := (m.lists l).tail } m.heap) = some heap₁ := by
    rw [hends]
    exact hnext
  have hhead := head_put (x := n.item) (T.lists l) [] p
  rw [List.append_nil] at hhead
  have hlast : some p = last none (T.lists l ++ [(p, n.item)]) := by
    rw [last_append]
    rfl
  rw [threadListAdd, hn, Option.bind_some, hnext', Option.map_some, hends]
  exact congrArg (fun e => some (m.put l heap₁ e)) (ends_eq hhead hlast (by simp [endsOf]))

theorem listAddBefore_holds (h : Holds m T) (l : ListName) (hp : Loose T.lists p)
    {n : Node (Thread φ α)} (hn : read m.heap p = some n) {pre post : List (Nat × Thread φ α)}
    {c : Nat × Thread φ α} (hcells : T.lists l = pre ++ c :: post) :
    ∃ m', threadListAddBefore l c.1 p m = some m' ∧
    Holds m' (T.put l (pre ++ (p, n.item) :: c :: post)) := by
  have hseg := h.shelves.segment l
  rw [hcells] at hseg
  have hpoint := hseg.read_cell
  obtain ⟨heap, hlink, hseg', hlen, hsame⟩ :=
    splice_next_prev n.item hseg (hcells ▸ h.shelves.apart l) (read_lt hn)
    (hcells ▸ hp l)
  have hends := h.shelves.ends l
  rw [hcells] at hends
  have hhas := h.shelves.insert hcells hp hseg' hsame
  refine ⟨m.put l heap (endsOf (pre ++ (p, n.item) :: c :: post)), ?_, hhas, h.fds, h.alloc,
    hlen.trans h.size⟩
  rw [first] at hlink
  obtain ⟨heap₁, hnext, hprev⟩ := Option.bind_eq_some_iff.mp hlink
  have hhead := head_put (x := n.item) pre (c :: post) p
  have hlast : last none (pre ++ c :: post) = last none (pre ++ (p, n.item) :: c :: post) := by
    rw [last_append, last_append]
    rfl
  rw [threadListAddBefore, hn, Option.bind_some, hpoint, Option.bind_some]
  simp only [hnext, Option.bind_some, hprev, Option.map_some, hends]
  exact congrArg (fun e => some (m.put l heap e)) (ends_eq hhead hlast (by simp [endsOf]; omega))

theorem listDelete_holds (h : Holds m T) {l : ListName} {pre post : List (Nat × Thread φ α)}
    {c : Nat × Thread φ α} (hcells : T.lists l = pre ++ c :: post) :
    ∃ m', threadListDelete l c.1 m = some m' ∧ Holds m' (T.put l (pre ++ post)) ∧
      InHand m' (T.put l (pre ++ post)) c.1 c.2 := by
  have hseg := h.shelves.segment l
  have hapart := h.shelves.apart l
  rw [hcells] at hseg hapart
  obtain ⟨heap, hlink, hseg', hlen, hsame⟩ := unlink hseg hapart
  have hmiddle := apart_middle.mp hapart
  have hcomm := point_comm hmiddle.2.ends (first post none) (last none pre) m.heap
  rw [hlink] at hcomm
  have hlt : c.1 < heap.length := by
    rw [hlen]
    exact read_lt hseg.read_cell
  have hends := h.shelves.ends l
  rw [hcells] at hends
  have hframe : ∀ q, (∀ d ∈ pre ++ post, d.1 ≠ q) → q ≠ c.1 →
      read (write c.1 ⟨none, none, c.2⟩ heap) q = read m.heap q := by
    intro q hq hne
    rw [read_write_other hne.symm, hsame q hq]
  have hseg'' : Segment (write c.1 ⟨none, none, c.2⟩ heap) none (pre ++ post) none :=
    hseg'.frame fun d hd => read_write_other (hmiddle.1 d hd).symm _ _
  obtain ⟨hhas, hloose⟩ := h.shelves.remove hcells hseg'' hframe
  refine ⟨m.put l (write c.1 ⟨none, none, c.2⟩ heap) (endsOf (pre ++ post)), ?_,
    ⟨hhas, h.fds, h.alloc, (length_write _ _ _).trans (hlen.trans h.size)⟩,
    read_write hlt _, hloose⟩
  obtain ⟨heap₁, hprev, hnext⟩ := Option.bind_eq_some_iff.mp hcomm
  have hhead : (if (last none pre).isSome then first (pre ++ c :: post) none else first post none) =
      first (pre ++ post) none := by
    cases pre with
    | nil => rfl
    | cons d pre => exact if_pos ((last_isSome_iff _).mpr (List.cons_ne_nil d pre))
  have htail : (if (first post none).isSome then last none (pre ++ c :: post) else last none pre) =
      last none (pre ++ post) := by
    cases post with
    | nil =>
      rw [List.append_nil]
      rfl
    | cons d post =>
      rw [last_append, last_append]
      rfl
  rw [threadListDelete, hseg.read_cell, Option.bind_some]
  simp only [hprev, Option.bind_some, hnext, Option.map_some, hends]
  exact congrArg (fun e => some (m.put l (write c.1 ⟨none, none, c.2⟩ heap) e))
    (ends_eq hhead htail (by simp [endsOf]; omega))

/-- Fields of a node on a list are written. -/
theorem edit_holds (h : Holds m T) {l : ListName} {pre post : List (Nat × Thread φ α)}
    {c : Nat × Thread φ α} (hcells : T.lists l = pre ++ c :: post) (f : Thread φ α → Thread φ α) :
    ∃ m', m.edit c.1 f = some m' ∧ Holds m' (T.put l (pre ++ (c.1, f c.2) :: post)) := by
  have hseg := h.shelves.segment l
  rw [hcells] at hseg
  refine ⟨{ m with heap := write c.1 ⟨last none pre, first post none, f c.2⟩ m.heap }, ?_,
    h.shelves.set_item hcells (f c.2), h.fds, h.alloc, (length_write _ _ _).trans h.size⟩
  rw [ThreadMaster.edit, hseg.read_cell]
  rfl

/-- The node in hand is put behind a list. -/
theorem InHand.add (h : Holds m T) (hp : InHand m T p x) (l : ListName) :
    ∃ m', threadListAdd l p m = some m' ∧ Holds m' (T.put l (T.lists l ++ [(p, x)])) :=
  listAdd_holds h l hp.loose hp.read

def unused (x : Thread φ α) : Thread φ α := { x with type := .THREAD_UNUSED }

/-- The node in hand is kept for later. -/
theorem InHand.release (h : Holds m T) (hp : InHand m T p x) :
    ∃ m', release p m = some m' ∧ Holds m' (T.put .unuse (T.lists .unuse ++ [(p, unused x)])) := by
  obtain ⟨m₁, hedit, h₁, hp₁⟩ := hp.edit h unused
  obtain ⟨m', hadd, h'⟩ := hp₁.add h₁ .unuse
  refine ⟨m', ?_, h'⟩
  have hedit' : m.edit p (fun t => { t with type := .THREAD_UNUSED }) = some m₁ := hedit
  rw [NetmtThread.release, hedit', Option.bind_some, threadAddUnuse, hp₁.read, Option.bind_some]
  exact (if_pos ⟨rfl, rfl, rfl⟩).trans hadd

/-- The first node of a list is taken off. -/
theorem trimHead_holds (h : Holds m T) {l : ListName} {c : Nat × Thread φ α}
    {cells : List (Nat × Thread φ α)} (hcells : T.lists l = c :: cells) :
    ∃ m', threadTrimHead l m = some (some c.1, m') ∧ Holds m' (T.put l cells) ∧
    InHand m' (T.put l cells) c.1 c.2 := by
  obtain ⟨m', hdelete, h', hp⟩ := listDelete_holds h (hcells.trans (List.nil_append _).symm)
  have hhead : (m.lists l).head = some c.1 := by
    rw [h.shelves.ends l, hcells]
    rfl
  refine ⟨m', ?_, h', hp⟩
  rw [threadTrimHead, hhead]
  simp only [hdelete, Option.map_some]

theorem trimHead_nil (h : Holds m T) {l : ListName} (hcells : T.lists l = []) :
    threadTrimHead l m = some (none, m) := by
  have hhead : (m.lists l).head = none := by
    rw [h.shelves.ends l, hcells]
    rfl
  rw [threadTrimHead, hhead]

/-- `thread_run` hands out the task of the node in hand. -/
theorem InHand.run (h : Holds m T) (hp : InHand m T p x) :
    ∃ m', runTask p m = some (.task x, m') ∧
      Holds m' (T.put .unuse (T.lists .unuse ++ [(p, unused x)])) := by
  obtain ⟨m', hrelease, h'⟩ := hp.release h
  refine ⟨m', ?_, h'⟩
  rw [runTask, threadRun, hp.read, Option.bind_some, hrelease]
  rfl

/-! ## A node for a task -/

/-- The node that the next task gets. -/
def Tasks.take (T : Tasks φ α) : Nat × Tasks φ α :=
  match T.lists .unuse with
  | [] => (T.alloc, { T with alloc := T.alloc + 1 })
  | c :: cells => (c.1, T.put .unuse cells)

theorem threadGet_holds (h : Holds m T) (type : ThreadType) (func : φ) (arg : α) :
    ∃ m' u, threadGet type func arg m = some (T.take.1, m') ∧ Holds m' T.take.2 ∧
      InHand m' T.take.2 T.take.1 ⟨type, func, arg, u⟩ := by
  cases hunuse : T.lists .unuse with
  | nil =>
    have hhead : (m.lists .unuse).head = none := by
      rw [h.shelves.ends .unuse, hunuse]
      rfl
    have htake : T.take = (T.alloc, { T with alloc := T.alloc + 1 }) := by rw [Tasks.take, hunuse]
    rw [htake]
    have hloose : Loose T.lists T.alloc := h.size ▸ h.shelves.loose_new
    refine ⟨{ m with
        heap := alloc ⟨none, none, ⟨type, func, arg, .val 0⟩⟩ m.heap
        alloc := m.alloc + 1 }, .val 0, ?_,
      ⟨h.shelves.alloc _, h.fds, congrArg (· + 1) h.alloc, ?_⟩, ?_, hloose⟩
    · rw [threadGet, hhead, h.size]
    · exact (length_alloc _ _).trans (congrArg (· + 1) h.size)
    · rw [← h.size]
      exact read_alloc _ _
  | cons c cells =>
    obtain ⟨m₁, hdelete, h₁, hp₁⟩ := listDelete_holds h (hunuse.trans (List.nil_append _).symm)
    have hhead : (m.lists .unuse).head = some c.1 := by
      rw [h.shelves.ends .unuse, hunuse]
      rfl
    have htake : T.take = (c.1, T.put .unuse cells) := by rw [Tasks.take, hunuse]
    rw [htake]
    obtain ⟨m', hedit, h', hp'⟩ :=
      hp₁.edit h₁ fun t => { t with type := type, func := func, arg := arg }
    refine ⟨m', c.2.u, ?_, h', hp'⟩
    rw [threadGet, hhead]
    simp only [hdelete, Option.bind_some, hedit, Option.map_some]

/-! ## The loops over a list -/

/-- A timer is looked for by the times of the cells. -/
theorem findTimer_holds (stop : Timeval → Bool) (go : Nat × Thread φ α → Bool)
    {heap : Heap (Thread φ α)} {cells : List (Nat × Thread φ α)} {before : Option Nat} {fuel : Nat}
    (hs : Segment heap before cells none) (hfuel : cells.length ≤ fuel)
    (hgo : ∀ c ∈ cells, ∃ t, c.2.u = .sands t ∧ stop t = !go c) :
    findTimer stop heap fuel (first cells none) = some (first (cells.dropWhile go) none) := by
  induction cells generalizing before fuel with
  | nil => cases fuel <;> rfl
  | cons c cells ih =>
    cases fuel with
    | zero => cases hfuel
    | succ fuel =>
      obtain ⟨t, hu, hstop⟩ := hgo c List.mem_cons_self
      rw [first, findTimer, hs.1]
      simp only [Option.bind_some, hu, Payload.getSands, hstop]
      cases hc : go c with
      | false =>
        rw [List.dropWhile_cons_of_neg (by simp [hc])]
        rfl
      | true =>
        rw [List.dropWhile_cons_of_pos hc]
        exact ih hs.2 (Nat.le_of_succ_le_succ hfuel) fun d hd => hgo d (List.mem_cons_of_mem c hd)

/-- A list is no longer than the heap. -/
theorem Holds.length_le (h : Holds m T) (l : ListName) : (T.lists l).length ≤ m.heap.length := by
  have hsub : (T.lists l).map Prod.fst ⊆ List.range m.heap.length := by
    intro a ha
    obtain ⟨c, hc, rfl⟩ := List.mem_map.mp ha
    exact List.mem_range.mpr ((h.shelves.segment l).addr_lt c hc)
  have hle := List.Nodup.length_le_of_subset (h.shelves.apart l) hsub
  rwa [List.length_map, List.length_range] at hle

end NetmtThreadLists
