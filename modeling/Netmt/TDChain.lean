import Netmt.ChainMgr
import Mathlib.Data.List.Nodup
import Mathlib.Data.List.Perm.Subperm

/-!
# The chain template

`initdchainmgr.h` for every choice of its parameters: `CTDChain<T, sort, equal,
pointer>` and `CTDChainMgr`. All chains lie in one heap, so that nodes can go from
one to another. With `pointer` an item is the address of an object, and the same item
twice is the same object; what was deleted is only recorded here, `pushObject` looks
for it. `none` stands for a null or freed node, and for a walk that is not over after
as many steps as nodes were ever allocated.
-/
namespace NetmtTDChain

open Links
open NetmtChainMgr (head tail pushPrev pushNext)

inductive CtEqualMethod where
  | CtEM_ALLOW | CtEM_REJECT | CtEM_REPLACE
  deriving DecidableEq, Repr

inductive CtRetCode where
  | CtRC_FAIL | CtRC_SUCCESS | CtRC_REJECT | CtRC_REPLACE
  deriving DecidableEq, Repr

/-- The template's parameters, and the operators that it uses. `TypeComp` looks
through a pointer, `SmallestNext` compares what the nodes hold. -/
structure Params (α : Type) where
  sort : Bool
  equal : CtEqualMethod
  pointer : Bool
  gt : α → α → Bool
  eq : α → α → Bool
  above : α → α → Bool

/-- The nodes, and the items that were deleted, whether or not a node still holds one. -/
structure Store (α : Type) where
  heap : Heap α
  deleted : List α
  deriving DecidableEq, Repr

section Chain

variable {α : Type} (t : Params α)

/-! ## Nodes -/

def searchPrev (item : α) (h : Heap α) (p : Nat) : Option (Option Nat) :=
  (walk Node.prev (fun a => t.eq a item) h h.length p).map fun r => if r.2 then some r.1 else none

def searchNext (item : α) (h : Heap α) (p : Nat) : Option (Option Nat) :=
  (walk Node.next (fun a => t.eq a item) h h.length p).map fun r => if r.2 then some r.1 else none

/-- `Search`, on the node at `p`. -/
def search (item : α) (h : Heap α) (p : Nat) : Option (Option Nat) :=
  match read h p with
  | none => none
  | some n =>
    if t.eq n.item item then some (some p)
    else if t.sort then
      if t.gt item n.item then searchNext t item h p else searchPrev t item h p
    else
      match searchPrev t item h p with
      | some none => searchNext t item h p
      | found => found

/-- `Pop` of the node at `p`. -/
def popNode (h : Heap α) (p : Nat) : Option (Heap α) :=
  (read h p).bind fun n =>
    ((pointNext n.prev n.next h).bind (pointPrev n.next n.prev)).map
      (write p { n with prev := none, next := none })

/-- `delete m_tItem`, where the template holds pointers. -/
def deleteItem (item : α) (s : Store α) : Store α :=
  if t.pointer then { s with deleted := s.deleted ++ [item] } else s

/-- `~CTDChain`: the nodes behind go with it. -/
def deleteChain : Nat → Nat → Store α → Option (Store α)
  | 0, _, _ => none
  | fuel + 1, p, s =>
    match read s.heap p with
    | none => none
    | some n =>
      let s := deleteItem t n.item s
      (pointNext n.prev none s.heap).bind fun h =>
        match n.next with
        | none => some { s with heap := free p h }
        | some q =>
          (pointPrev (some q) none h).bind fun h =>
            (deleteChain fuel q { s with heap := h }).map fun s => { s with heap := free p s.heap }

/-- `SetNodeItem` -/
def setNodeItem (p : Nat) (item : α) (s : Store α) : Option (Store α) :=
  (read s.heap p).map fun n =>
    deleteItem t n.item { s with heap := write p { n with item := item } s.heap }

/-- `Push(CTDChain *&)` behind the comparison with equal nodes: look for the place
and link `node` there. -/
def insertNode (item : α) (h : Heap α) (p node : Nat) : Option (Heap α) :=
  match read h p with
  | none => none
  | some this =>
    if t.sort then
      if t.gt item this.item then
        match walk Node.next (fun a => !t.gt item a) h h.length p with
        | none => none
        | some (q, _) => (pushNext h q node).map Prod.snd
      else
        match walk Node.prev (fun a => !t.gt a item) h h.length p with
        | none => none
        | some (q, true) => (pushNext h q node).map Prod.snd
        | some (q, false) => (pushPrev h q node).map Prod.snd
    else (tail h p).bind fun q => (pushNext h q node).map Prod.snd

/-- The node that is as good as the new one, where the template looks for it. -/
def equalNode (item : α) (h : Heap α) (p : Nat) : Option (Option Nat) :=
  match t.equal with
  | .CtEM_ALLOW => some none
  | _ => search t item h p

/-- `Push(CTDChain *&)`, on the node at `p`. -/
def pushNode (s : Store α) (p node : Nat) : Option (CtRetCode × Store α) :=
  match read s.heap node with
  | none => none
  | some n =>
    match equalNode t n.item s.heap p with
    | none => none
    | some none => (insertNode t n.item s.heap p node).map fun h =>
      (.CtRC_SUCCESS, { s with heap := h })
    | some (some q) =>
      if t.equal = .CtEM_REJECT then some (.CtRC_REJECT, s)
      else (setNodeItem t q n.item s).map fun s => (.CtRC_REPLACE, s)

/-- What becomes of a single node that was not linked: its item is not deleted with
it where another node holds it now. -/
def dropNode (code : CtRetCode) (node : Nat) (s : Store α) : Option (Store α) :=
  match code with
  | .CtRC_SUCCESS => some s
  | .CtRC_REPLACE =>
    if t.pointer then (read s.heap node).map fun _ => { s with heap := free node s.heap }
    else deleteChain t s.heap.length node s
  | _ => deleteChain t s.heap.length node s

/-- `Push(T &)`, on the node at `p`. -/
def pushItem (item : α) (s : Store α) (p : Nat) : Option (CtRetCode × Store α) :=
  let node := s.heap.length
  (pushNode t { s with heap := alloc ⟨none, none, item⟩ s.heap } p node).bind fun r =>
    (dropNode t r.1 node r.2).map fun s => (r.1, s)

/-- The loop of `Merge`: one node after the other is taken out and pushed on the
node at `p`. -/
def mergeLoop (p : Nat) : Nat → Option Nat → Nat → Store α → Option (Nat × Store α)
  | _, none, num, s => some (num, s)
  | 0, some _, _, _ => none
  | fuel + 1, some node, num, s =>
    match read s.heap node with
    | none => none
    | some n =>
      (popNode s.heap node).bind fun h => (pushNode t { s with heap := h } p node).bind fun r =>
        (dropNode t r.1 node r.2).bind fun s =>
          mergeLoop p fuel n.next (if r.1 = .CtRC_SUCCESS then num + 1 else num) s

/-- `Merge`, on the node at `p`: the number of nodes inserted. -/
def merge (p : Nat) (chain : Option Nat) (s : Store α) : Option (Nat × Store α) :=
  match chain with
  | none => some (0, s)
  | some first =>
    (read s.heap first).bind fun n =>
      ((pointNext n.prev none s.heap).map (write first { n with prev := none })).bind fun h =>
        if t.equal = .CtEM_ALLOW ∧ ¬ t.sort then
          (follow h h.length (some first)).bind fun cells => (tail h p).bind fun q =>
            ((setNext (some q) first h).bind (setPrev (some first) q)).map fun h =>
              (cells.length, { s with heap := h })
        else mergeLoop t p h.length (some first) 0 { s with heap := h }

/-- `SmallestNext`: the nodes behind are compared with the smallest so far. -/
def smallestNext (h : Heap α) : Nat → Nat → Option Nat → Option Nat
  | _, small, none => some small
  | 0, _, some _ => none
  | fuel + 1, small, some q =>
    match read h small, read h q with
    | some s, some n => smallestNext h fuel (if t.above s.item n.item then q else small) n.next
    | _, _ => none

/-- The loop of `Sort`: the smallest node behind goes in front of the one at `p`. -/
def sortLoop : Nat → Option Nat → Heap α → Option (Heap α)
  | _, none, h => some h
  | 0, some _, _ => none
  | fuel + 1, some p, h =>
    (read h p).bind fun n => (smallestNext t h h.length p n.next).bind fun small =>
      if small = p then sortLoop fuel n.next h
      else (popNode h small).bind fun h => (pushPrev h p small).bind fun r =>
        sortLoop fuel (some p) r.2

/-- `Sort`, on the node at `p`. -/
def sortChain (h : Heap α) (p : Nat) : Option (Heap α) :=
  (head h p).bind fun q => sortLoop t h.length (some q) h

end Chain

/-! ## The manager -/

structure CTDChainMgr where
  nodeHead : Option Nat
  nodeTail : Option Nat
  nodeCurr : Option Nat
  nodeNum : Int
  deriving DecidableEq, Repr

/-- `Null`, and the manager when it is made. -/
def CTDChainMgr.null : CTDChainMgr := ⟨none, none, none, 0⟩

namespace CTDChainMgr

variable {α : Type} (t : Params α)

/-- Head and tail are looked for again, from where they were. -/
def findEnds (s : Store α) (m : CTDChainMgr) : Option CTDChainMgr :=
  match m.nodeHead, m.nodeTail with
  | some first, some last =>
    (head s.heap first).bind fun first => (tail s.heap last).map fun last =>
      { m with nodeHead := some first, nodeTail := some last }
  | _, _ => none

/-- `Push(T &)` -/
def push (item : α) (s : Store α) (m : CTDChainMgr) : Option (CtRetCode × Store α × CTDChainMgr) :=
  match m.nodeHead with
  | none =>
    let node := some s.heap.length
    some (.CtRC_SUCCESS, { s with heap := alloc ⟨none, none, item⟩ s.heap },
      ⟨node, node, node, m.nodeNum + 1⟩)
  | some _ =>
    match m.nodeTail with
    | none => none
    | some last =>
      (pushItem t item s last).bind fun r =>
        if r.1 = .CtRC_SUCCESS then
          (findEnds r.2 m).map fun m => (.CtRC_SUCCESS, r.2, { m with nodeNum := m.nodeNum + 1 })
        else some (.CtRC_FAIL, r.2, m)

/-- `Pop(T &)` -/
def pop (item : α) (s : Store α) (m : CTDChainMgr) : Option (Store α × CTDChainMgr) :=
  match m.nodeHead with
  | none => none
  | some first =>
    match search t item s.heap first with
    | none => none
    | some none => some (s, m)
    | some (some p) =>
      (read s.heap p).bind fun n =>
        let m :=
          if p = first then { m with nodeHead := n.next }
          else if m.nodeTail = some p then { m with nodeTail := n.prev }
          else m
        (popNode s.heap p).bind fun h =>
          (deleteChain t h.length p { s with heap := h }).map fun s =>
          (s, { m with nodeNum := m.nodeNum - 1 })

/-- `Empty` -/
def empty (s : Store α) (m : CTDChainMgr) : Option (Store α × CTDChainMgr) :=
  match m.nodeHead with
  | none => some (s, null)
  | some p => (deleteChain t s.heap.length p s).map fun s => (s, null)

/-- `Begin`: the item, or `NULL`. -/
def toBegin (s : Store α) (m : CTDChainMgr) : Option (Option α × CTDChainMgr) :=
  match m.nodeHead with
  | none => some (none, m)
  | some p => (read s.heap p).map fun n => (some n.item, { m with nodeCurr := some p })

/-- `End` -/
def toEnd (s : Store α) (m : CTDChainMgr) : Option (Option α × CTDChainMgr) :=
  match m.nodeHead with
  | none => some (none, m)
  | some _ =>
    m.nodeTail.bind fun p => (read s.heap p).map fun n =>
      (some n.item, { m with nodeCurr := some p })

/-- The cursor goes to the node at `p`, or to `wrap` when there is none. -/
def moveTo (p wrap : Option Nat) (s : Store α) (m : CTDChainMgr) :
    Option (Option α × CTDChainMgr) :=
  match p with
  | none => some (none, { m with nodeCurr := wrap })
  | some p => (read s.heap p).map fun n => (some n.item, { m with nodeCurr := some p })

/-- `Next` -/
def toNext (s : Store α) (m : CTDChainMgr) : Option (Option α × CTDChainMgr) :=
  (m.nodeCurr.bind (read s.heap)).bind fun n => moveTo n.next m.nodeHead s m

/-- `Prev` -/
def toPrev (s : Store α) (m : CTDChainMgr) : Option (Option α × CTDChainMgr) :=
  (m.nodeCurr.bind (read s.heap)).bind fun n => moveTo n.prev m.nodeTail s m

/-- `Sort` -/
def sort (s : Store α) (m : CTDChainMgr) : Option (Store α × CTDChainMgr) :=
  m.nodeHead.bind fun p => (sortChain t s.heap p).bind fun h =>
    (findEnds { s with heap := h } m).map fun m => ({ s with heap := h }, m)

/-- `Push(CTDChain *&)`: the nodes from `chain` on. -/
def pushChain (chain : Option Nat) (s : Store α) (m : CTDChainMgr) :
    Option (Store α × CTDChainMgr) :=
  m.nodeTail.bind fun last => (merge t last chain s).bind fun r =>
    (findEnds r.2 m).map fun m => (r.2, { m with nodeNum := m.nodeNum + r.1 })

/-- `Push(CTDChainMgr *)`: what is returned, the store, and both managers. The call
that moves the nodes leaves `chainmgr` without a head. -/
def pushMgr (s : Store α) (m chainmgr : CTDChainMgr) :
    Option (Int × Store α × CTDChainMgr × CTDChainMgr) :=
  if chainmgr.nodeNum = 0 then some (0, s, m, chainmgr)
  else
    (pushChain t chainmgr.nodeHead s m).bind fun r =>
      (empty t r.1 { chainmgr with nodeHead := none }).map fun e => (r.2.nodeNum, e.1, r.2, e.2)

end CTDChainMgr

/-! ## Linked chains -/

section Linked

variable {α : Type} {t : Params α} {h : Heap α} {cells : List (Nat × α)} {item : α}

/-- The cells are linked both ways, and no node lies twice among them. -/
structure Linked (h : Heap α) (cells : List (Nat × α)) : Prop where
  segment : Segment h none cells none
  apart : Apart cells

/-- Nothing but the nodes of `cells` has changed. -/
def SameOff (cells : List (Nat × α)) (h h' : Heap α) : Prop :=
  ∀ p, (∀ c ∈ cells, c.1 ≠ p) → read h' p = read h p

theorem Linked.nil (h : Heap α) : Linked h [] := ⟨trivial, List.nodup_nil⟩

theorem Linked.frame {h' : Heap α} (L : Linked h cells)
    (hsame : ∀ c ∈ cells, read h' c.1 = read h c.1) :
    Linked h' cells := ⟨L.segment.frame hsame, L.apart⟩

theorem Linked.addr_lt (L : Linked h cells) : ∀ c ∈ cells, c.1 < h.length := L.segment.addr_lt

/-- There are at most as many nodes as were ever allocated. -/
theorem Linked.room (L : Linked h cells) : cells.length ≤ h.length := by
  have hsub : cells.map Prod.fst ⊆ List.range h.length := by
    intro p hp
    obtain ⟨c, hc, rfl⟩ := List.mem_map.mp hp
    exact List.mem_range.mpr (L.addr_lt c hc)
  simpa using (List.Nodup.subperm L.apart hsub).length_le

theorem Linked.read_cell {pre post : List (Nat × α)} {c : Nat × α}
    (L : Linked h (pre ++ c :: post)) :
    read h c.1 = some ⟨last none pre, first post none, c.2⟩ := L.segment.read_cell

/-- The two ways to cut a chain at a node. -/
theorem Linked.around {pre post : List (Nat × α)} {c : Nat × α} (L : Linked h (pre ++ c :: post)) :
    Segment h none (pre ++ [c]) (first post none) ∧ Segment h (last none pre) (c :: post) none := by
  refine ⟨?_, ((segment_append _ _ _ _ _).mp L.segment).2⟩
  have hs := L.segment
  rw [List.append_cons] at hs
  exact ((segment_append _ _ _ _ _).mp hs).1

theorem Linked.alloc (L : Linked h cells) (n : Node α) :
    Linked (alloc n h) cells ∧ ∀ c ∈ cells, c.1 ≠ h.length :=
  ⟨L.frame fun c hc => read_alloc_other (L.addr_lt c hc) n, fun c hc => (L.addr_lt c hc).ne⟩

/-- A linked node is told apart by its address. -/
theorem Linked.cell_eq (L : Linked h cells) {c d : Nat × α} (hc : c ∈ cells) (hd : d ∈ cells)
    (heq : c.1 = d.1) : c = d := List.inj_on_of_nodup_map L.apart hc hd heq

theorem Linked.head (L : Linked h cells) {c : Nat × α} (hc : c ∈ cells) :
    head h c.1 = first cells none := NetmtChainMgr.head_segment L.segment hc L.room

theorem Linked.tail (L : Linked h cells) {c : Nat × α} (hc : c ∈ cells) :
    tail h c.1 = last none cells := NetmtChainMgr.tail_segment L.segment hc L.room

/-! ## Searches -/

theorem searchPrev_spec {pre post : List (Nat × α)} {c : Nat × α} (t : Params α) (item : α)
    (L : Linked h (pre ++ c :: post)) :
    (searchPrev t item h c.1 = some none ∧ ∀ e ∈ pre ++ [c], t.eq e.2 item = false) ∨
      ∃ d ∈ pre ++ [c], searchPrev t item h c.1 = some (some d.1) ∧ t.eq d.2 item = true := by
  have hroom := L.room
  simp only [List.length_append, List.length_cons] at hroom
  rcases walk_prev_from (fun a => t.eq a item) h.length L.around.1 (by omega) with
    ⟨front, d, mid, heq, hd, -, hwalk⟩ | ⟨hnone, d, mid, -, hwalk⟩
  · refine .inr ⟨d, by rw [heq]; simp, ?_, hd⟩
    rw [searchPrev, hwalk]
    rfl
  · refine .inl ⟨?_, hnone⟩
    rw [searchPrev, hwalk]
    rfl

theorem searchNext_spec {pre post : List (Nat × α)} {c : Nat × α} (t : Params α) (item : α)
    (L : Linked h (pre ++ c :: post)) :
    (searchNext t item h c.1 = some none ∧ ∀ e ∈ c :: post, t.eq e.2 item = false) ∨
      ∃ d ∈ c :: post, searchNext t item h c.1 = some (some d.1) ∧ t.eq d.2 item = true := by
  have hroom := L.room
  simp only [List.length_append, List.length_cons] at hroom
  rcases walk_next_from (fun a => t.eq a item) h.length L.around.2 (by omega) with
    ⟨mid, d, rest, heq, hd, -, hwalk⟩ | ⟨hnone, mid, d, -, hwalk⟩
  · refine .inr ⟨d, by rw [heq]; simp, ?_, hd⟩
    rw [searchNext, hwalk]
    rfl
  · refine .inl ⟨?_, hnone⟩
    rw [searchNext, hwalk]
    rfl

/-- A search ends; what it finds is an equal node of the chain. When it finds none,
the part of the chain that it looked at has none. -/
theorem search_spec {pre post : List (Nat × α)} {c : Nat × α} (t : Params α) (item : α)
    (L : Linked h (pre ++ c :: post)) :
    (search t item h c.1 = some none ∧
      (t.sort = false → ∀ e ∈ pre ++ c :: post, t.eq e.2 item = false) ∧
      (t.gt item c.2 = true → ∀ e ∈ c :: post, t.eq e.2 item = false) ∧
      (t.gt item c.2 = false → ∀ e ∈ pre ++ [c], t.eq e.2 item = false)) ∨
    ∃ d ∈ pre ++ c :: post, search t item h c.1 = some (some d.1) ∧ t.eq d.2 item = true := by
  have hfront : ∀ d ∈ pre ++ [c], d ∈ pre ++ c :: post := fun d hd => by
    rw [List.append_cons]
    exact List.mem_append_left _ hd
  have hback : ∀ d ∈ c :: post, d ∈ pre ++ c :: post := fun d hd => List.mem_append_right _ hd
  cases hc : t.eq c.2 item with
  | true =>
    refine .inr ⟨c, hback c List.mem_cons_self, ?_, hc⟩
    simp only [search, L.read_cell, hc, if_true]
  | false =>
    have hread := L.read_cell
    rcases searchPrev_spec t item L with ⟨hprev, hnoprev⟩ | ⟨d, hd, hprev, heqd⟩ <;>
      rcases searchNext_spec t item L with ⟨hnext, hnonext⟩ | ⟨e, he, hnext, heqe⟩
    · refine .inl ⟨?_, fun _ a ha => ?_, fun _ => hnonext, fun _ => hnoprev⟩
      · simp only [search, hread, hc, hprev, hnext, Bool.false_eq_true, if_false, ite_self]
      · rcases List.mem_append.mp ha with ha | ha
        · exact hnoprev a (List.mem_append_left _ ha)
        · exact hnonext a ha
    · by_cases hback' : t.sort = true ∧ t.gt item c.2 = false
      · refine .inl ⟨?_, fun hs => ?_, fun hg => ?_, fun _ => hnoprev⟩
        · simp only [search, hread, hc, hprev, hback'.1, hback'.2,
            Bool.false_eq_true, if_false, if_true]
        · rw [hback'.1] at hs
          cases hs
        · rw [hback'.2] at hg
          cases hg
      · refine .inr ⟨e, hback e he, ?_, heqe⟩
        cases hs : t.sort <;> cases hg : t.gt item c.2 <;>
          simp_all only [search, Bool.false_eq_true, if_false, if_true, not_true_eq_false, and_self]
    · by_cases hfwd : t.sort = true ∧ t.gt item c.2 = true
      · refine .inl ⟨?_, fun hs => ?_, fun _ => hnonext, fun hg => ?_⟩
        · simp only [search, hread, hc, hnext, hfwd.1, hfwd.2,
            Bool.false_eq_true, if_false, if_true]
        · rw [hfwd.1] at hs
          cases hs
        · rw [hfwd.2] at hg
          cases hg
      · refine .inr ⟨d, hfront d hd, ?_, heqd⟩
        cases hs : t.sort <;> cases hg : t.gt item c.2 <;>
          simp_all only [search, Bool.false_eq_true, if_false, if_true, not_true_eq_false, and_self]
    · by_cases hfwd : t.sort = true ∧ t.gt item c.2 = true
      · refine .inr ⟨e, hback e he, ?_, heqe⟩
        simp only [search, hread, hc, hnext, hfwd.1, hfwd.2, Bool.false_eq_true, if_false, if_true]
      · refine .inr ⟨d, hfront d hd, ?_, heqd⟩
        cases hs : t.sort <;> cases hg : t.gt item c.2 <;>
          simp_all only [search, Bool.false_eq_true, if_false, if_true, not_true_eq_false, and_self]

/-! ## A node out of a chain, and into it -/

theorem popNode_spec {pre post : List (Nat × α)} {c : Nat × α} (L : Linked h (pre ++ c :: post)) :
    ∃ h', popNode h c.1 = some h' ∧ Linked h' (pre ++ post) ∧ read h' c.1 = some ⟨none, none, c.2⟩ ∧
      h'.length = h.length ∧ SameOff (pre ++ c :: post) h h' := by
  obtain ⟨h₁, hlink, hs, hlen, hsame⟩ := unlink L.segment L.apart
  have hsub : (pre ++ post).Sublist (pre ++ c :: post) :=
    (List.Sublist.refl pre).append (List.sublist_cons_self c post)
  have hother := (apart_middle.mp L.apart).1
  have hlt : c.1 < h₁.length := hlen ▸ read_lt L.read_cell
  refine ⟨write c.1 ⟨none, none, c.2⟩ h₁, ?_,
    ⟨hs.frame fun d hd => ?_, L.apart.sublist (hsub.map _)⟩,
    read_write hlt _, by rw [length_write, hlen], fun p hp => ?_⟩
  · rw [popNode, L.read_cell, Option.bind_some, hlink]
    rfl
  · exact read_write_other (hother d hd).symm _ _
  · rw [read_write_other (hp c (by simp)), hsame p fun d hd => hp d (hsub.subset hd)]

/-- Where `Push` puts a node, looking from the cell `c` between `front` and `back`. -/
inductive Place (t : Params α) (item : α) (front : List (Nat × α)) (c : Nat × α)
    (back : List (Nat × α)) : List (Nat × α) → List (Nat × α) → Prop where
  | unsorted : t.sort = false → Place t item front c back (front ++ c :: back) []
  | behindAll : t.sort = true → t.gt item c.2 = true → (∀ e ∈ c :: back, t.gt item e.2 = true) →
      Place t item front c back (front ++ c :: back) []
  | forward {mid : List (Nat × α)} {d : Nat × α} {rest : List (Nat × α)} : t.sort = true →
      t.gt item c.2 = true → c :: back = mid ++ d :: rest → (∀ e ∈ mid, t.gt item e.2 = true) →
      t.gt item d.2 = false → Place t item front c back (front ++ mid ++ [d]) rest
  | backward {pre : List (Nat × α)} {d : Nat × α} {mid : List (Nat × α)} : t.sort = true →
      t.gt item c.2 = false → front ++ [c] = pre ++ d :: mid → (∀ e ∈ mid, t.gt e.2 item = true) →
      t.gt d.2 item = false → Place t item front c back (pre ++ [d]) (mid ++ back)
  | beforeAll : t.sort = true → t.gt item c.2 = false → (∀ e ∈ front ++ [c], t.gt e.2 item = true) →
      Place t item front c back [] (front ++ c :: back)

/-- The place lies in the chain. -/
theorem Place.cut {front back pre post : List (Nat × α)} {c : Nat × α}
    (hp : Place t item front c back pre post) : pre ++ post = front ++ c :: back := by
  cases hp with
  | unsorted _ => exact List.append_nil _
  | behindAll _ _ _ => exact List.append_nil _
  | forward _ _ hsplit _ _ => simp [hsplit]
  | backward _ _ hsplit _ _ =>
    rw [List.append_cons front, hsplit]
    simp
  | beforeAll _ _ _ => rfl

theorem pushNext_spec {pre post : List (Nat × α)} {c : Nat × α} {q : Nat}
    (L : Linked h (pre ++ c :: post)) (hnode : read h q = some ⟨none, none, item⟩)
    (hfresh : ∀ d ∈ pre ++ c :: post, d.1 ≠ q) :
    ∃ h', (pushNext h c.1 q).map Prod.snd = some h' ∧
    Segment h' none (pre ++ [c] ++ (q, item) :: post) none ∧
      h'.length = h.length ∧ ∀ p, (∀ d ∈ pre ++ c :: post, d.1 ≠ p) → q ≠ p →
      read h' p = read h p := by
  obtain ⟨h', hpush, hs, hrest⟩ := NetmtChainMgr.pushNext_behind L.segment L.apart hnode hfresh
  refine ⟨h', by rw [hpush]; rfl, by simpa using hs, hrest⟩

theorem pushPrev_spec {pre post : List (Nat × α)} {c : Nat × α} {q : Nat}
    (L : Linked h (pre ++ c :: post)) (hnode : read h q = some ⟨none, none, item⟩)
    (hfresh : ∀ d ∈ pre ++ c :: post, d.1 ≠ q) :
    ∃ h', (pushPrev h c.1 q).map Prod.snd = some h' ∧
    Segment h' none (pre ++ (q, item) :: c :: post) none ∧
      h'.length = h.length ∧ ∀ p, (∀ d ∈ pre ++ c :: post, d.1 ≠ p) → q ≠ p →
      read h' p = read h p := by
  obtain ⟨h', hpush, hs, hrest⟩ := NetmtChainMgr.pushPrev_before L.segment L.apart hnode hfresh
  exact ⟨h', by rw [hpush]; rfl, hs, hrest⟩

/-- A single node is linked at a place. -/
theorem insertNode_spec {front back : List (Nat × α)} {c : Nat × α} {q : Nat} (t : Params α)
    (L : Linked h (front ++ c :: back)) (hnode : read h q = some ⟨none, none, item⟩)
    (hfresh : ∀ d ∈ front ++ c :: back, d.1 ≠ q) :
    ∃ h' pre post, insertNode t item h c.1 q = some h' ∧ Place t item front c back pre post ∧
      Linked h' (pre ++ (q, item) :: post) ∧ h'.length = h.length ∧
      ∀ p, (∀ d ∈ front ++ c :: back, d.1 ≠ p) → q ≠ p → read h' p = read h p := by
  have hroom := L.room
  simp only [List.length_append, List.length_cons] at hroom
  have hapart : ∀ pre post, pre ++ post = front ++ c :: back →
      Apart (pre ++ (q, item) :: post) := by
    intro pre post hcut
    rw [apart_middle, hcut]
    exact ⟨hfresh, L.apart⟩
  -- behind any cell
  have hbehind : ∀ pre d post, front ++ c :: back = pre ++ d :: post →
      ∃ h', (pushNext h d.1 q).map Prod.snd = some h' ∧
      Linked h' (pre ++ [d] ++ (q, item) :: post) ∧
        h'.length = h.length ∧
        ∀ p, (∀ e ∈ front ++ c :: back, e.1 ≠ p) → q ≠ p → read h' p = read h p := by
    intro pre d post hcut
    obtain ⟨h', hpush, hs, hlen, hsame⟩ := pushNext_spec (hcut ▸ L) hnode (hcut ▸ hfresh)
    exact ⟨h', hpush, ⟨hs, hapart _ _ (by rw [hcut]; simp)⟩, hlen, hcut ▸ hsame⟩
  cases hs : t.sort with
  | false =>
    obtain ⟨init, d, hlast⟩ :=
      (List.eq_nil_or_concat (front ++ c :: back)).resolve_left (by simp)
    rw [List.concat_eq_append] at hlast
    obtain ⟨h', hpush, L', hlen, hsame⟩ := hbehind init d [] hlast
    have htail := L.tail (c := c) (by simp)
    rw [hlast, last_append] at htail
    have hcut : init ++ [d] = front ++ c :: back := hlast.symm
    refine ⟨h', _, [], ?_, .unsorted hs, hcut ▸ L', hlen, hsame⟩
    simp only [insertNode, L.read_cell, hs, Bool.false_eq_true, if_false]
    rw [htail]
    exact hpush
  | true =>
    cases hg : t.gt item c.2 with
    | true =>
      rcases walk_next_from (fun a => !t.gt item a) h.length L.around.2 (by omega) with
        ⟨mid, d, rest, hcut, hd, hmid, hwalk⟩ | ⟨hall, mid, d, hcut, hwalk⟩
      · obtain ⟨h', hpush, L', hlen, hsame⟩ := hbehind (front ++ mid) d rest (by rw [hcut]; simp)
        refine ⟨h', _, rest, ?_, .forward hs hg hcut (fun e he => by simpa using hmid e he)
          (by simpa using hd), L', hlen, hsame⟩
        simp only [insertNode, L.read_cell, hs, hg, if_true, hwalk]
        exact hpush
      · obtain ⟨h', hpush, L', hlen, hsame⟩ := hbehind (front ++ mid) d [] (by rw [hcut]; simp)
        have hfull : front ++ mid ++ [d] = front ++ c :: back := by rw [hcut]; simp
        refine ⟨h', _, [], ?_,
          .behindAll hs hg fun e he => by simpa using hall e he, hfull ▸ L', hlen, hsame⟩
        simp only [insertNode, L.read_cell, hs, hg, if_true, hwalk]
        exact hpush
    | false =>
      rcases walk_prev_from (fun a => !t.gt a item) h.length L.around.1 (by omega) with
        ⟨pre, d, mid, hcut, hd, hmid, hwalk⟩ | ⟨hall, d, mid, hcut, hwalk⟩
      · obtain ⟨h', hpush, L', hlen, hsame⟩ := hbehind pre d (mid ++ back) (by
          rw [List.append_cons front, hcut]
          simp)
        refine ⟨h', _, _, ?_, .backward hs hg hcut (fun e he => by simpa using hmid e he)
          (by simpa using hd), L', hlen, hsame⟩
        simp only [insertNode, L.read_cell, hs, hg, if_true, Bool.false_eq_true, if_false, hwalk]
        exact hpush
      · have hfull : front ++ c :: back = d :: (mid ++ back) := by
          rw [List.append_cons front, hcut]
          rfl
        have L₀ : Linked h ([] ++ d :: (mid ++ back)) := by
          rw [List.nil_append, ← hfull]
          exact L
        obtain ⟨h', hpush, hs', hlen, hsame⟩ := pushPrev_spec L₀ hnode (by
          rw [List.nil_append, ← hfull]
          exact hfresh)
        rw [List.nil_append, ← hfull] at hs' hsame
        refine ⟨h', [], _, ?_, .beforeAll hs hg fun e he => by simpa using hall e he,
          ⟨hs', hapart [] _ rfl⟩, hlen, hsame⟩
        simp only [insertNode, L.read_cell, hs, hg, if_true, Bool.false_eq_true, if_false, hwalk]
        exact hpush

/-- A chain is told by its nodes. -/
theorem Linked.unique {cells' : List (Nat × α)} (L : Linked h cells) (L' : Linked h cells')
    (hperm : cells'.Perm cells) : cells' = cells := by
  have hfirst : first cells none = first cells' none := by
    cases cells with
    | nil => rw [hperm.eq_nil]
    | cons c cells =>
      obtain ⟨pre, post, rfl⟩ := List.mem_iff_append.mp (hperm.mem_iff.mpr List.mem_cons_self)
      have hread := L'.read_cell
      rw [L.segment.1] at hread
      have hbefore : none = last none pre := congrArg Node.prev (Option.some.inj hread)
      cases pre with
      | nil => rfl
      | cons d pre =>
        obtain ⟨p, hp⟩ := last_isSome none (d :: pre) (List.cons_ne_nil _ _)
        rw [hp] at hbefore
        cases hbefore
  have hfollow := follow_segment L.segment L.room
  rw [hfirst, follow_segment L'.segment L'.room] at hfollow
  exact Option.some.inj hfollow

/-- A node for which there is no equal one is linked at its place. -/
theorem pushNode_new {front back : List (Nat × α)} {c : Nat × α} {q : Nat} {s : Store α}
    (L : Linked s.heap (front ++ c :: back)) (hnode : read s.heap q = some ⟨none, none, item⟩)
    (hfresh : ∀ d ∈ front ++ c :: back, d.1 ≠ q)
    (hnew : equalNode t item s.heap c.1 = some none) :
    ∃ h' pre post, pushNode t s c.1 q = some (.CtRC_SUCCESS, { s with heap := h' }) ∧
      Place t item front c back pre post ∧ Linked h' (pre ++ (q, item) :: post) ∧
      h'.length = s.heap.length ∧
      ∀ p, (∀ d ∈ front ++ c :: back, d.1 ≠ p) → q ≠ p → read h' p = read s.heap p := by
  obtain ⟨h', pre, post, hinsert, hrest⟩ := insertNode_spec t L hnode hfresh
  refine ⟨h', pre, post, ?_, hrest⟩
  simp only [pushNode, hnode, hnew, hinsert]
  rfl

theorem equalNode_allow (hallow : t.equal = .CtEM_ALLOW) (p : Nat) :
    equalNode t item h p = some none := by
  rw [equalNode, hallow]

theorem equalNode_search (hnot : t.equal ≠ .CtEM_ALLOW) (p : Nat) :
    equalNode t item h p = search t item h p := by
  cases hequal : t.equal with
  | CtEM_ALLOW => exact absurd hequal hnot
  | CtEM_REJECT => rw [equalNode, hequal]
  | CtEM_REPLACE => rw [equalNode, hequal]

theorem equalNode_none {front back : List (Nat × α)} {c : Nat × α}
    (L : Linked h (front ++ c :: back)) (hnew : t.equal = .CtEM_ALLOW ∨
      ∀ d ∈ front ++ c :: back, t.eq d.2 item = false) :
    equalNode t item h c.1 = some none := by
  by_cases hallow : t.equal = .CtEM_ALLOW
  · exact equalNode_allow hallow _
  · rw [equalNode_search hallow]
    rcases search_spec t item L with hnone | ⟨d, hd, -, heq⟩
    · exact hnone.1
    · rw [hnew.resolve_left hallow d hd] at heq
      cases heq

/-! ## What is deleted -/

@[simp] theorem deleteItem_heap (t : Params α) (item : α) (s : Store α) :
    (deleteItem t item s).heap = s.heap := by
  rw [deleteItem]
  split <;> rfl

theorem deleteItem_deleted (t : Params α) (item : α) (h : Heap α) (s : Store α) :
    (deleteItem t item { s with heap := h }).deleted = (deleteItem t item s).deleted := by
  rw [deleteItem, deleteItem]
  split <;> rfl

/-- A single node. -/
theorem deleteChain_single {s : Store α} {p fuel : Nat} (hfuel : 0 < fuel)
    (hread : read s.heap p = some ⟨none, none, item⟩) : deleteChain t fuel p s =
      some { deleteItem t item s with heap := free p s.heap } := by
  obtain ⟨fuel, rfl⟩ := Nat.exists_eq_add_one_of_ne_zero hfuel.ne'
  simp only [deleteChain, hread, deleteItem_heap, pointNext]
  rfl

theorem setNodeItem_spec {pre post : List (Nat × α)} {c : Nat × α} {s : Store α} (t : Params α)
    (item : α) (L : Linked s.heap (pre ++ c :: post)) :
    ∃ h', setNodeItem t c.1 item s = some (deleteItem t c.2 { s with heap := h' }) ∧
      Linked h' (pre ++ (c.1, item) :: post) ∧ h'.length = s.heap.length ∧
      SameOff (pre ++ c :: post) s.heap h' := by
  refine ⟨_, ?_, ⟨L.segment.set_item item L.apart, ?_⟩, length_write _ _ _, fun p hp => ?_⟩
  · rw [setNodeItem, L.read_cell]
    rfl
  · have haddr : (pre ++ (c.1, item) :: post).map Prod.fst = (pre ++ c :: post).map Prod.fst := by
      simp
    rw [Apart, haddr]
    exact L.apart
  · exact read_write_other (hp c (by simp)) _ _

/-! ## Pushing an item -/

/-- The nodes that were there before, those of `cells` apart, are as they were. -/
def Untouched (cells : List (Nat × α)) (h h' : Heap α) : Prop :=
  h.length ≤ h'.length ∧ ∀ p < h.length, (∀ c ∈ cells, c.1 ≠ p) → read h' p = read h p

theorem Untouched.linked {others : List (Nat × α)} {h' : Heap α} (U : Untouched cells h h')
    (L : Linked h others) (hcross : ∀ c ∈ cells, ∀ d ∈ others, c.1 ≠ d.1) : Linked h' others :=
  L.frame fun d hd => U.2 d.1 (L.addr_lt d hd) fun c hc => hcross c hc d hd

/-- A new node is linked. -/
theorem pushItem_new {front back : List (Nat × α)} {c : Nat × α} {s : Store α}
    (L : Linked s.heap (front ++ c :: back))
    (hnew : equalNode t item (alloc ⟨none, none, item⟩ s.heap) c.1 = some none) :
    ∃ h' pre post, pushItem t item s c.1 = some (.CtRC_SUCCESS, { s with heap := h' }) ∧
      Place t item front c back pre post ∧ Linked h' (pre ++ (s.heap.length, item) :: post) ∧
      Untouched (front ++ c :: back) s.heap h' := by
  obtain ⟨L₁, hfresh⟩ := L.alloc ⟨none, none, item⟩
  obtain ⟨h', pre, post, hpush, hplace, L', hlen, hsame⟩ := pushNode_new (t := t)
    (s := { s with heap := Links.alloc ⟨none, none, item⟩ s.heap }) L₁ (read_alloc _ _) hfresh hnew
  refine ⟨h', pre, post, ?_, hplace, L', ?_, fun p hp hoff => ?_⟩
  · rw [pushItem, hpush]
    rfl
  · rw [hlen, length_alloc]
    exact Nat.le_succ _
  · rw [hsame p hoff hp.ne', read_alloc_other hp]

/-- A node that was only allocated is gone again. -/
theorem free_alloc_untouched (n : Node α) (h : Heap α) (cells : List (Nat × α)) :
    Untouched cells h (free h.length (alloc n h)) := by
  refine ⟨by rw [length_free, length_alloc]; exact Nat.le_succ _, fun p hp _ => ?_⟩
  rw [read_free_other hp.ne', read_alloc_other hp]

/-- Where an equal node is refused, the item goes with its node. -/
theorem pushItem_rejected {s : Store α} {p q : Nat} (hreject : t.equal = .CtEM_REJECT)
    (hold : search t item (alloc ⟨none, none, item⟩ s.heap) p = some (some q)) :
    pushItem t item s p = some (.CtRC_REJECT,
      { deleteItem t item s with heap := free s.heap.length (alloc ⟨none, none, item⟩ s.heap) }) :=
        by
  have hequal : equalNode t item (alloc ⟨none, none, item⟩ s.heap) p = some (some q) := by
    rw [equalNode_search (by rw [hreject]; decide), hold]
  have hpush : pushNode t { s with heap := alloc ⟨none, none, item⟩ s.heap } p s.heap.length =
      some (.CtRC_REJECT, { s with heap := alloc ⟨none, none, item⟩ s.heap }) := by
    simp only [pushNode, read_alloc, hequal, hreject, if_true]
  rw [pushItem, hpush]
  simp only [Option.bind_some, dropNode]
  rw [deleteChain_single (by rw [length_alloc]; exact Nat.succ_pos _) (read_alloc _ _)]
  simp only [Option.map_some, deleteItem]
  split <;> rfl

/-- Where it is replaced, it gets the new item, and the new node goes. -/
theorem pushItem_replaced {pre post : List (Nat × α)} {d : Nat × α} {s : Store α} {p : Nat}
    (L : Linked s.heap (pre ++ d :: post)) (hreplace : t.equal = .CtEM_REPLACE)
    (hold : search t item (alloc ⟨none, none, item⟩ s.heap) p = some (some d.1)) :
    ∃ h', pushItem t item s p = some (.CtRC_REPLACE, deleteItem t d.2 { s with heap := h' }) ∧
      Linked h' (pre ++ (d.1, item) :: post) ∧ Untouched (pre ++ d :: post) s.heap h' := by
  obtain ⟨L₁, hfresh⟩ := L.alloc ⟨none, none, item⟩
  obtain ⟨h₁, hset, L₂, hlen, hsame⟩ := setNodeItem_spec
    (s := { s with heap := alloc ⟨none, none, item⟩ s.heap }) t item L₁
  have hequal : equalNode t item (Links.alloc ⟨none, none, item⟩ s.heap) p = some (some d.1) := by
    rw [equalNode_search (by rw [hreplace]; decide), hold]
  have hpush : pushNode t { s with heap := Links.alloc ⟨none, none, item⟩ s.heap } p s.heap.length =
      some (.CtRC_REPLACE, deleteItem t d.2 { s with heap := h₁ }) := by
    simp only [pushNode, read_alloc, hequal, hreplace]
    rw [if_neg (by decide), hset]
    rfl
  have hnode : read h₁ s.heap.length = some ⟨none, none, item⟩ := by
    rw [hsame _ hfresh]
    exact read_alloc _ _
  refine ⟨free s.heap.length h₁, ?_, L₂.frame fun c hc => ?_, ?_, fun q hq hoff => ?_⟩
  · rw [pushItem, hpush]
    simp only [Option.bind_some, dropNode, deleteItem_heap]
    cases hpointer : t.pointer with
    | true =>
      simp only [if_true, hnode, Option.map_some, deleteItem, hpointer]
    | false =>
      have hlen' : 0 < h₁.length := by
        rw [hlen, length_alloc]
        exact Nat.succ_pos _
      simp only [deleteItem, hpointer, Bool.false_eq_true, if_false]
      rw [deleteChain_single hlen' hnode]
      simp only [deleteItem, hpointer, Bool.false_eq_true, if_false, Option.map_some]
  · have hne : c.1 ≠ s.heap.length := by
      have haddr : c.1 ∈ (pre ++ d :: post).map Prod.fst := by
        have hmem : c.1 ∈ (pre ++ (d.1, item) :: post).map Prod.fst := List.mem_map_of_mem hc
        simpa using hmem
      obtain ⟨e, he, heq⟩ := List.mem_map.mp haddr
      exact heq ▸ hfresh e he
    exact read_free_other hne.symm _
  · rw [length_free, hlen, length_alloc]
    exact Nat.le_succ _
  · rw [read_free_other hq.ne', hsame q hoff, read_alloc_other hq]

end Linked

/-! ## What a manager holds -/

section Holds

variable {α : Type} {t : Params α} {s : Store α} {m : CTDChainMgr}
  {cells : List (Nat × α)} {item : α}

/-- Head, tail and number are those of the chain. -/
structure Holds (s : Store α) (m : CTDChainMgr) (cells : List (Nat × α)) : Prop where
  linked : Linked s.heap cells
  head : m.nodeHead = first cells none
  tail : m.nodeTail = last none cells
  num : m.nodeNum = cells.length

theorem holds_null (s : Store α) : Holds s .null [] := ⟨.nil _, rfl, rfl, rfl⟩

theorem Holds.frame {others : List (Nat × α)} {s' : Store α} (H : Holds s m cells)
    (U : Untouched others s.heap s'.heap) (hcross : ∀ c ∈ others, ∀ d ∈ cells, c.1 ≠ d.1) :
    Holds s' m cells := ⟨U.linked H.linked hcross, H.head, H.tail, H.num⟩

/-- Head and tail are found again from any two nodes of the chain. -/
theorem findEnds_spec (L : Linked s.heap cells) (hhead : ∃ c ∈ cells, m.nodeHead = some c.1)
    (htail : ∃ c ∈ cells, m.nodeTail = some c.1) : m.findEnds s =
      some { m with nodeHead := first cells none, nodeTail := last none cells } := by
  obtain ⟨c, hc, hhead⟩ := hhead
  obtain ⟨d, hd, htail⟩ := htail
  have hne : cells ≠ [] := List.ne_nil_of_mem hc
  obtain ⟨e, rest, hcons⟩ := List.exists_cons_of_ne_nil hne
  obtain ⟨q, hq⟩ := last_isSome none cells hne
  have hfirst : first cells none = some e.1 := by
    rw [hcons]
    rfl
  simp only [CTDChainMgr.findEnds, hhead, htail, L.head hc, L.tail hd, hfirst, hq, Option.bind_some,
    Option.map_some]

theorem push_empty (t : Params α) (item : α) (H : Holds s m []) :
    ∃ m', m.push t item s =
        some (.CtRC_SUCCESS, { s with heap := alloc ⟨none, none, item⟩ s.heap }, m') ∧
      Holds { s with heap := alloc ⟨none, none, item⟩ s.heap } m' [(s.heap.length, item)] ∧
      m'.nodeCurr = some s.heap.length := by
  refine ⟨⟨some s.heap.length, some s.heap.length, some s.heap.length, m.nodeNum + 1⟩, ?_,
    ⟨⟨⟨read_alloc _ _, trivial⟩, List.nodup_singleton _⟩, rfl, rfl, ?_⟩, rfl⟩
  · rw [CTDChainMgr.push, H.head]
    rfl
  · rw [H.num]
    rfl

/-- A manager that holds nodes pushes on the last one. -/
theorem push_eq {init : List (Nat × α)} {c : Nat × α} (H : Holds s m (init ++ [c])) :
    m.push t item s = (pushItem t item s c.1).bind fun r =>
      if r.1 = .CtRC_SUCCESS then
        (m.findEnds r.2).map fun m => (.CtRC_SUCCESS, r.2, { m with nodeNum := m.nodeNum + 1 })
      else some (.CtRC_FAIL, r.2, m) := by
  have htail : m.nodeTail = some c.1 := by
    rw [H.tail, last_append]
    rfl
  obtain ⟨p, hhead⟩ : ∃ p, m.nodeHead = some p := by
    rw [H.head]
    cases init <;> exact ⟨_, rfl⟩
  rw [CTDChainMgr.push, hhead, htail]

theorem push_refused {init : List (Nat × α)} {c : Nat × α} {code : CtRetCode} {s' : Store α}
    (H : Holds s m (init ++ [c])) (hpush : pushItem t item s c.1 = some (code, s'))
    (hcode : code ≠ .CtRC_SUCCESS) : m.push t item s = some (.CtRC_FAIL, s', m) := by
  rw [push_eq H, hpush, Option.bind_some, if_neg hcode]

/-- An item for which there is no equal one gets a node. -/
theorem push_new {init : List (Nat × α)} {c : Nat × α} (H : Holds s m (init ++ [c]))
    (hnew : equalNode t item (alloc ⟨none, none, item⟩ s.heap) c.1 = some none) :
    ∃ h' pre post m', m.push t item s = some (.CtRC_SUCCESS, { s with heap := h' }, m') ∧
      Place t item init c [] pre post ∧
      Holds { s with heap := h' } m' (pre ++ (s.heap.length, item) :: post) ∧
      m'.nodeCurr = m.nodeCurr ∧ Untouched (init ++ [c]) s.heap h' := by
  obtain ⟨h', pre, post, hpush, hplace, L', U⟩ := pushItem_new H.linked hnew
  have hmem : ∀ d ∈ init ++ [c], d ∈ pre ++ (s.heap.length, item) :: post := by
    intro d hd
    rw [← hplace.cut] at hd
    rcases List.mem_append.mp hd with hd | hd
    · exact List.mem_append_left _ hd
    · exact List.mem_append_right _ (List.mem_cons_of_mem _ hd)
  have hhead : ∃ d ∈ pre ++ (s.heap.length, item) :: post, m.nodeHead = some d.1 := by
    obtain ⟨d, rest, hcons⟩ := List.exists_cons_of_ne_nil (l := init ++ [c]) (by simp)
    refine ⟨d, hmem d (by rw [hcons]; simp), ?_⟩
    rw [H.head, hcons]
    rfl
  have htail : ∃ d ∈ pre ++ (s.heap.length, item) :: post, m.nodeTail = some d.1 := by
    refine ⟨c, hmem c (by simp), ?_⟩
    rw [H.tail, last_append]
    rfl
  let m' : CTDChainMgr :=
    { m with
      nodeHead := first (pre ++ (s.heap.length, item) :: post) none
      nodeTail := last none (pre ++ (s.heap.length, item) :: post)
      nodeNum := m.nodeNum + 1 }
  refine ⟨h', pre, post, m', ?_, hplace, ⟨L', rfl, rfl, ?_⟩, rfl, U⟩
  · rw [push_eq H, hpush, Option.bind_some, if_pos rfl]
    rw [findEnds_spec (s := { s with heap := h' }) L' hhead htail]
    rfl
  · have hlen := congrArg List.length hplace.cut
    have hnum := H.num
    simp only [List.length_append, List.length_cons] at hlen hnum ⊢
    change m.nodeNum + 1 = _
    rw [hnum]
    omega

end Holds

/-! ## Templates over an order -/

section Ordered

variable {α : Type}

/-- `sort = 1`, over pointees that `>` puts in order. -/
def ordered (o : NetmtChainMgr.Pointees α) (equal : CtEqualMethod) (pointer : Bool)
    (above : α → α → Bool) : Params α := ⟨true, equal, pointer, o.gt, o.eq, above⟩

variable (o : NetmtChainMgr.Pointees α) (above : α → α → Bool)

/-! The manager of `ChainMgr` is this template for pointers, in order and without
equal items. -/

def storeOf (m : NetmtChainMgr.CTDChainMgr α) : Store α := ⟨m.heap, m.deleted⟩

def mgrOf (m : NetmtChainMgr.CTDChainMgr α) : CTDChainMgr :=
  ⟨m.nodeHead, m.nodeTail, m.nodeCurr, m.nodeNum⟩

def codeOf : NetmtChainMgr.CtRetCode → CtRetCode
  | .CtRC_FAIL => .CtRC_FAIL
  | .CtRC_SUCCESS => .CtRC_SUCCESS
  | .CtRC_REJECT => .CtRC_REJECT

theorem equalNode_old (item : α) (h : Heap α) (p : Nat) :
    equalNode (ordered o .CtEM_REJECT true above) item h p = NetmtChainMgr.search o item h p := rfl

theorem pushNext_old (h : Heap α) (deleted : List α) (p node : Nat) :
    (pushNext h p node).map (fun r => (codeOf r.1, (⟨r.2, deleted⟩ : Store α))) =
      ((pushNext h p node).map Prod.snd).map fun h => (.CtRC_SUCCESS, ⟨h, deleted⟩) := by
  unfold pushNext
  cases read h p with
  | none => rfl
  | some this =>
    cases read h node with
    | none => rfl
    | some n =>
      simp only [Option.map_map]
      rfl

theorem pushPrev_old (h : Heap α) (deleted : List α) (p node : Nat) :
    (pushPrev h p node).map (fun r => (codeOf r.1, (⟨r.2, deleted⟩ : Store α))) =
      ((pushPrev h p node).map Prod.snd).map fun h => (.CtRC_SUCCESS, ⟨h, deleted⟩) := by
  unfold pushPrev
  cases read h p with
  | none => rfl
  | some this =>
    cases read h node with
    | none => rfl
    | some n =>
      simp only [Option.map_map]
      rfl

theorem pushNode_old (h : Heap α) (deleted : List α) (p node : Nat) :
    pushNode (ordered o .CtEM_REJECT true above) ⟨h, deleted⟩ p node =
      (NetmtChainMgr.pushNode o h p node).map fun r => (codeOf r.1, ⟨r.2, deleted⟩) := by
  cases hnode : read h node with
  | none => cases hp : read h p <;>
      simp only [pushNode, NetmtChainMgr.pushNode, hnode, hp, Option.map_none]
  | some n =>
    cases hp : read h p with
    | none =>
      simp only [pushNode, NetmtChainMgr.pushNode, hnode, hp, equalNode, ordered,
        search, Option.map_none]
    | some this =>
      simp only [pushNode, NetmtChainMgr.pushNode, hnode, hp, equalNode_old]
      cases NetmtChainMgr.search o n.item h p with
      | none => rfl
      | some found =>
        cases found with
        | some q => rfl
        | none =>
          simp only [insertNode, hp, ordered, if_true]
          by_cases hg : o.gt n.item this.item = true
          · simp only [hg, if_true]
            cases walk Node.next (fun a => !o.gt n.item a) h h.length p with
            | none => rfl
            | some r => exact (pushNext_old h deleted r.1 node).symm
          · simp only [hg, Bool.false_eq_true, if_false]
            cases walk Node.prev (fun a => !o.gt a n.item) h h.length p with
            | none => rfl
            | some r =>
              obtain ⟨q, hit⟩ := r
              cases hit with
              | true => exact (pushNext_old h deleted q node).symm
              | false => exact (pushPrev_old h deleted q node).symm

/-- Where equal items are refused, a push of a node has two outcomes. -/
theorem pushNode_outcome {t : Params α} {s : Store α} {p node : Nat} {r : CtRetCode × Store α}
    (hreject : t.equal = .CtEM_REJECT) (hpush : pushNode t s p node = some r) :
    r.1 = .CtRC_SUCCESS ∨ r = (.CtRC_REJECT, s) := by
  unfold pushNode at hpush
  cases hnode : read s.heap node with
  | none => simp only [hnode, reduceCtorEq] at hpush
  | some n =>
    cases hequal : equalNode t n.item s.heap p with
    | none => simp only [hnode, hequal, reduceCtorEq] at hpush
    | some found =>
      cases found with
      | none =>
        simp only [hnode, hequal] at hpush
        obtain ⟨h', -, rfl⟩ := Option.map_eq_some_iff.mp hpush
        exact .inl rfl
      | some q =>
        simp only [hnode, hequal, hreject, if_true] at hpush
        exact .inr (Option.some.inj hpush).symm

/-- A push of an item of the one is one of the other. -/
theorem pushItem_old (item : α) (m : NetmtChainMgr.CTDChainMgr α) (p : Nat) :
    pushItem (ordered o .CtEM_REJECT true above) item (storeOf m) p =
      (NetmtChainMgr.pushItem o item m p).map fun r => (codeOf r.1, storeOf r.2) := by
  have hpush := pushNode_old o above (alloc ⟨none, none, item⟩ m.heap) m.deleted p m.heap.length
  simp only [pushItem, NetmtChainMgr.pushItem, storeOf]
  rw [hpush]
  cases hold : NetmtChainMgr.pushNode o (alloc ⟨none, none, item⟩ m.heap) p m.heap.length with
  | none => rfl
  | some r =>
    obtain ⟨code, h'⟩ := r
    rw [hold] at hpush
    cases code with
    | CtRC_SUCCESS => rfl
    | CtRC_FAIL =>
      rcases pushNode_outcome rfl hpush with hcode | hcode
      · cases hcode
      · cases congrArg Prod.fst hcode
    | CtRC_REJECT =>
      have hsame : h' = alloc ⟨none, none, item⟩ m.heap := by
        rcases pushNode_outcome rfl hpush with hcode | hcode
        · cases hcode
        · exact congrArg (fun r => r.2.heap) hcode
      subst hsame
      have hsingle := deleteChain_single (t := ordered o .CtEM_REJECT true above)
        (s := ⟨alloc ⟨none, none, item⟩ m.heap, m.deleted⟩)
        (p := m.heap.length) (Nat.succ_pos m.heap.length) (read_alloc _ _)
      simp only [Option.map_some, Option.bind_some, dropNode, codeOf]
      rw [length_alloc, hsingle]
      rfl

/-- The manager's own links stay. -/
theorem pushItem_mgr {item : α} {m m' : NetmtChainMgr.CTDChainMgr α} {p : Nat}
    {code : NetmtChainMgr.CtRetCode} (hpush : NetmtChainMgr.pushItem o item m p = some (code, m')) :
    mgrOf m' = mgrOf m := by
  unfold NetmtChainMgr.pushItem at hpush
  cases hnode : NetmtChainMgr.pushNode o (alloc ⟨none, none, item⟩ m.heap) p m.heap.length with
  | none => simp only [hnode, reduceCtorEq] at hpush
  | some r =>
    obtain ⟨code', h⟩ := r
    cases code' <;>
    · simp only [hnode, Option.some.injEq, Prod.mk.injEq] at hpush
      rw [← hpush.2]
      rfl

/-- A push of the one manager is a push of the other. -/
theorem push_old (item : α) (m : NetmtChainMgr.CTDChainMgr α) :
    (mgrOf m).push (ordered o .CtEM_REJECT true above) item (storeOf m) =
      (m.push o item).map fun r => (codeOf r.1, storeOf r.2, mgrOf r.2) := by
  cases hhead : m.nodeHead with
  | none =>
    simp only [CTDChainMgr.push, NetmtChainMgr.CTDChainMgr.push, mgrOf, hhead, storeOf,
      codeOf, Option.map_some]
    rfl
  | some first =>
    cases htail : m.nodeTail with
    | none => simp only [CTDChainMgr.push, NetmtChainMgr.CTDChainMgr.push, mgrOf, hhead,
        htail, Option.map_none]
    | some last =>
      have hitem := pushItem_old o above item m last
      simp only [CTDChainMgr.push, NetmtChainMgr.CTDChainMgr.push, mgrOf, hhead, htail]
      rw [hitem]
      cases hold : NetmtChainMgr.pushItem o item m last with
      | none => rfl
      | some r =>
        obtain ⟨code, m'⟩ := r
        have hmgr := pushItem_mgr o hold
        simp only [mgrOf, CTDChainMgr.mk.injEq] at hmgr
        have hnum : m'.nodeNum = m.nodeNum := Int.ofNat.inj hmgr.2.2.2
        cases code with
        | CtRC_FAIL =>
          simp only [codeOf, Option.map_some, Option.bind_some, hmgr, hhead, htail]
          rfl
        | CtRC_REJECT =>
          simp only [codeOf, Option.map_some, Option.bind_some, hmgr, hhead, htail]
          rfl
        | CtRC_SUCCESS =>
          simp only [codeOf, Option.map_some, Option.bind_some,
            CTDChainMgr.findEnds, storeOf, if_true]
          cases head m'.heap first with
          | none => rfl
          | some first' =>
            cases tail m'.heap last with
            | none => rfl
            | some last' =>
              simp only [Option.bind_some, Option.map_some, hmgr, hnum]
              rfl

end Ordered

end NetmtTDChain
