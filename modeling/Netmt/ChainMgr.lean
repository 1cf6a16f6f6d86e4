import Netmt.Lib.Links
import Netmt.Lib.Keyed
import Mathlib.Order.Lattice

/-!
# The chain manager

`initdchainmgr.h`: `CTDChain<T, 1, CtEM_REJECT, 1>` and its manager. `T` is a type of
pointers: the same item twice is the same object, and `Pointees` compares what the
items point to. The template deletes the object of an item that it rejects. `none`
stands for a null or freed node, for a walk that is not over after as many steps as
nodes were ever allocated, and for a comparison with a deleted object.
-/
namespace NetmtChainMgr

open Links

/-- The operators of the pointees, of which `>` is a strict total order that
`==` goes with. -/
structure Pointees (α : Type) where
  gt : α → α → Bool
  eq : α → α → Bool
  gt_asymm : ∀ a b, gt a b = true → gt b a = false
  gt_trans : ∀ a b c, gt a b = true → gt b c = true → gt a c = true
  total : ∀ a b, gt a b = false → gt b a = false → eq a b = true
  eq_gt : ∀ a b c, eq a b = true → gt a c = gt b c ∧ gt c a = gt c b

/-- Items that are compared by a key. -/
def Pointees.ofKey {α κ : Type} [LinearOrder κ] (key : α → κ) : Pointees α where
  gt a b := decide (key b < key a)
  eq a b := decide (key a = key b)
  gt_asymm a b h := by simpa using (of_decide_eq_true h).le
  gt_trans a b c h h' := by
    simpa using (of_decide_eq_true h').trans (of_decide_eq_true h)
  total a b h h' := by
    simp only [decide_eq_false_iff_not, not_lt] at h h'
    simpa using le_antisymm h h'
  eq_gt a b c h := by
    have heq : key a = key b := of_decide_eq_true h
    simp [heq]

/-! ## The chain -/

inductive CtRetCode where
  | CtRC_FAIL | CtRC_SUCCESS | CtRC_REJECT
  deriving DecidableEq, Repr

section Chain

variable {α : Type} (o : Pointees α)

/-- `SearchPrev`, on the node at `p`. -/
def searchPrev (item : α) (h : Heap α) (p : Nat) : Option (Option Nat) :=
  (walk Node.prev (fun a => o.eq a item) h h.length p).map fun r => if r.2 then some r.1 else none

/-- `SearchNext` -/
def searchNext (item : α) (h : Heap α) (p : Nat) : Option (Option Nat) :=
  (walk Node.next (fun a => o.eq a item) h h.length p).map fun r => if r.2 then some r.1 else none

/-- `Search`, in the direction that the first comparison shows. -/
def search (item : α) (h : Heap α) (p : Nat) : Option (Option Nat) :=
  match read h p with
  | none => none
  | some n =>
    if o.eq n.item item then some (some p)
    else if o.gt item n.item then searchNext o item h p
    else searchPrev o item h p

/-- `Head` -/
def head (h : Heap α) (p : Nat) : Option Nat :=
  (walk Node.prev (fun _ => false) h h.length p).map Prod.fst

/-- `Tail` -/
def tail (h : Heap α) (p : Nat) : Option Nat :=
  (walk Node.next (fun _ => false) h h.length p).map Prod.fst

/-- `PushPrev`: link `node` in front of `p`. -/
def pushPrev (h : Heap α) (p node : Nat) : Option (CtRetCode × Heap α) :=
  match read h p, read h node with
  | some this, some n =>
    let h := write node { n with prev := this.prev, next := some p } h
    ((setNext this.prev node h).bind (setPrev (some p) node)).map fun h => (.CtRC_SUCCESS, h)
  | _, _ => none

/-- `PushNext`: link `node` behind `p`. -/
def pushNext (h : Heap α) (p node : Nat) : Option (CtRetCode × Heap α) :=
  match read h p, read h node with
  | some this, some n =>
    let h := write node { n with prev := some p, next := this.next } h
    ((setPrev this.next node h).bind (setNext (some p) node)).map fun h => (.CtRC_SUCCESS, h)
  | _, _ => none

/-- `Push(CTDChain *&)`, on the node at `p`. -/
def pushNode (h : Heap α) (p node : Nat) : Option (CtRetCode × Heap α) :=
  match read h p, read h node with
  | some this, some n =>
    match search o n.item h p with
    | none => none
    | some (some _) => some (.CtRC_REJECT, h)
    | some none =>
      if o.gt n.item this.item then
        match walk Node.next (fun a => !o.gt n.item a) h h.length p with
        | none => none
        | some (q, _) => pushNext h q node
      else
        match walk Node.prev (fun a => !o.gt a n.item) h h.length p with
        | none => none
        | some (q, true) => pushNext h q node
        | some (q, false) => pushPrev h q node
  | _, _ => none

end Chain

/-! ## The manager -/

structure CTDChainMgr (α : Type) where
  heap : Heap α
  nodeHead : Option Nat
  nodeTail : Option Nat
  nodeCurr : Option Nat
  nodeNum : Nat
  /-- the objects that were deleted with the nodes of their items -/
  deleted : List α
  deriving DecidableEq, Repr

def CTDChainMgr.initial (α : Type) : CTDChainMgr α := ⟨[], none, none, none, 0, []⟩

section Mgr

variable {α : Type} (o : Pointees α)

/-- `CTDChain::Push(T &)`: a rejected node is deleted, and with it the object of its
item, also when another node holds that object. -/
def pushItem (item : α) (m : CTDChainMgr α) (p : Nat) : Option (CtRetCode × CTDChainMgr α) :=
  let node := m.heap.length
  match pushNode o (alloc ⟨none, none, item⟩ m.heap) p node with
  | none => none
  | some (.CtRC_REJECT, h) =>
    some (.CtRC_REJECT, { m with heap := free node h, deleted := m.deleted ++ [item] })
  | some (code, h) => some (code, { m with heap := h })

/-- `CTDChainMgr::Push(T &)` -/
def CTDChainMgr.push (item : α) (m : CTDChainMgr α) : Option (CtRetCode × CTDChainMgr α) :=
  match m.nodeHead, m.nodeTail with
  | none, _ =>
    let node := some m.heap.length
    some (.CtRC_SUCCESS, { m with
      heap := alloc ⟨none, none, item⟩ m.heap
      nodeHead := node
      nodeTail := node
      nodeCurr := node
      nodeNum := m.nodeNum + 1 })
  | some first, some last =>
    match pushItem o item m last with
    | none => none
    | some (.CtRC_SUCCESS, m) =>
      match head m.heap first, tail m.heap last with
      | some first, some last =>
        some (.CtRC_SUCCESS, { m with
          nodeHead := some first, nodeTail := some last, nodeNum := m.nodeNum + 1 })
      | _, _ => none
    | some (_, m) => some (.CtRC_FAIL, m)
  | some _, none => none

section Objects

variable [DecidableEq α]

/-- A node from `nodeHead` on holds an object that was deleted. -/
def Dangles (deleted : List α) (h : Heap α) (nodeHead : Option Nat) : Prop :=
  ∃ c ∈ (follow h h.length nodeHead).getD [], c.2 ∈ deleted

instance (deleted : List α) (h : Heap α) (nodeHead : Option Nat) :
    Decidable (Dangles deleted h nodeHead) :=
  inferInstanceAs (Decidable (∃ c ∈ _, _))

/-- A push with the objects that it compares: no more is said of a run in which the item
or one that is held was deleted, whether or not the walk comes to it. -/
def CTDChainMgr.pushObject (item : α) (m : CTDChainMgr α) : Option (CtRetCode × CTDChainMgr α) :=
  if item ∈ m.deleted ∨ Dangles m.deleted m.heap m.nodeHead then none else m.push o item

/-- One push after the other. -/
def pushAll (items : List α) (m : CTDChainMgr α) : Option (CTDChainMgr α) :=
  items.foldlM (fun m item => (m.pushObject o item).map Prod.snd) m

end Objects

end Mgr

/-! ## The order -/

namespace Pointees

variable {α : Type} (o : Pointees α)

theorem gt_irrefl (a : α) : o.gt a a = false := by
  cases h : o.gt a a with
  | false => rfl
  | true => rw [o.gt_asymm a a h] at h; cases h

theorem eq_of_not_gt {a b : α} (h : o.gt a b = false) (h' : o.gt b a = false) : o.eq a b = true :=
  o.total a b h h'

theorem not_eq_of_gt {a b : α} (h : o.gt a b = true) : o.eq a b = false ∧ o.eq b a = false := by
  constructor
  · cases heq : o.eq a b with
    | false => rfl
    | true => rw [(o.eq_gt a b b heq).1, o.gt_irrefl] at h; cases h
  · cases heq : o.eq b a with
    | false => rfl
    | true => rw [← (o.eq_gt b a b heq).1, o.gt_irrefl] at h; cases h

theorem eq_trans {a b c : α} (h : o.eq a b = true) (h' : o.eq b c = true) : o.eq a c = true := by
  apply o.eq_of_not_gt
  · rw [(o.eq_gt a b c h).1, (o.eq_gt b c c h').1, o.gt_irrefl]
  · rw [(o.eq_gt a b c h).2, (o.eq_gt b c c h').2, o.gt_irrefl]

/-- An item is in front of, equal to, or behind another. -/
theorem gt_of_not {a b : α} (h : o.gt a b = false) (hne : o.eq a b = false) : o.gt b a = true := by
  cases h' : o.gt b a with
  | true => rfl
  | false => rw [o.eq_of_not_gt h h'] at hne; cases hne

/-- Strictly increasing. -/
def Sorted (l : List α) : Prop := l.Pairwise fun a b => o.gt b a = true

/-- An item that is new to a sorted list has one place in it. -/
theorem place {β : Type} {f : β → α} {l : List β} (hs : o.Sorted (l.map f)) {item : α}
    (hnew : ∀ b ∈ l, o.eq (f b) item = false) :
    ∃ pre post, l = pre ++ post ∧ (∀ b ∈ pre, o.gt item (f b) = true) ∧
      ∀ b ∈ post, o.gt (f b) item = true := by
  induction l using List.reverseRecOn with
  | nil => exact ⟨[], [], rfl, by simp, by simp⟩
  | append_singleton l c ih =>
    rw [Sorted, List.map_append, List.pairwise_append] at hs
    cases hc : o.gt (f c) item with
    | true =>
      obtain ⟨pre, post, rfl, hpre, hpost⟩ := ih hs.1 fun b hb => hnew b (List.mem_append_left _ hb)
      refine ⟨pre, post ++ [c], by simp, hpre, fun b hb => ?_⟩
      cases List.mem_append.mp hb with
      | inl hb =>
        exact hpost b hb
      | inr hb =>
        rw [List.mem_singleton.mp hb]
        exact hc
    | false =>
      have hlt : o.gt item (f c) = true := o.gt_of_not hc (hnew c (by simp))
      refine ⟨l ++ [c], [], by simp, fun b hb => ?_, by simp⟩
      cases List.mem_append.mp hb with
      | inl hb =>
        exact o.gt_trans _ _ _ hlt (hs.2.2 (f b) (List.mem_map_of_mem hb) (f c) (by simp))
      | inr hb =>
        rw [List.mem_singleton.mp hb]
        exact hlt

theorem sorted_insert {pre post : List α} (hs : o.Sorted (pre ++ post)) {item : α}
    (hpre : ∀ b ∈ pre, o.gt item b = true) (hpost : ∀ b ∈ post, o.gt b item = true) :
    o.Sorted (pre ++ item :: post) := by
  rw [Sorted, List.pairwise_append] at hs
  rw [Sorted, List.pairwise_append, List.pairwise_cons]
  refine ⟨hs.1, ⟨hpost, hs.2.1⟩, fun a ha b hb => ?_⟩
  rcases List.mem_cons.mp hb with rfl | hb
  · exact hpre a ha
  · exact hs.2.2 a ha b hb

end Pointees

/-! ## What a push does -/

section Push

variable {α : Type} {o : Pointees α} {h : Heap α} {cells : List (Nat × α)} {item : α} {p : Nat}

theorem search_found (hs : Segment h none cells none) (hp : last none cells = some p)
    (hroom : cells.length ≤ h.length) (hsorted : o.Sorted (cells.map Prod.snd))
    (hold : ∃ c ∈ cells, o.eq c.2 item = true) : ∃ q, search o item h p = some (some q) := by
  obtain ⟨c, hc, heq⟩ := hold
  obtain ⟨pre, post, rfl⟩ := List.mem_iff_append.mp hc
  -- everything behind the equal item is greater, and is walked over
  have hbehind : ∀ d ∈ post, o.gt d.2 item = true := by
    intro d hd
    rw [Pointees.Sorted, List.map_append, List.pairwise_append, List.map_cons,
      List.pairwise_cons] at hsorted
    rw [← (o.eq_gt c.2 item d.2 heq).2]
    exact hsorted.2.1.1 d.2 (List.mem_map_of_mem hd)
  have hwalk : searchPrev o item h p = some (some c.1) := by
    rw [searchPrev, walk_prev_found hs hp (by simp at hroom; omega) heq
      fun d hd => (o.not_eq_of_gt (hbehind d hd)).1]
    rfl
  cases post using List.reverseRecOn with
  | nil =>
    rw [last_append] at hp
    obtain rfl : c.1 = p := Option.some.inj hp
    exact ⟨c.1, by rw [search, hs.read_cell]; simp only [heq, if_true]⟩
  | append_singleton post d =>
    have hsplit : pre ++ c :: (post ++ [d]) = (pre ++ c :: post) ++ [d] := by simp
    rw [hsplit] at hs hp
    rw [last_append] at hp
    obtain rfl : d.1 = p := Option.some.inj hp
    have hgt := hbehind d (by simp)
    refine ⟨c.1, ?_⟩
    rw [search, hs.read_cell]
    simp only [(o.not_eq_of_gt hgt).1, o.gt_asymm _ _ hgt, Bool.false_eq_true, if_false]
    exact hwalk

theorem search_none (hs : Segment h none cells none) (hp : last none cells = some p)
    (hroom : cells.length ≤ h.length) (hnew : ∀ c ∈ cells, o.eq c.2 item = false) :
    search o item h p = some none := by
  rcases List.eq_nil_or_concat cells with rfl | ⟨init, c, rfl⟩
  · cases hp
  · rw [List.concat_eq_append] at hs hp hroom hnew
    have hlast := hp
    rw [last_append] at hlast
    obtain rfl : c.1 = p := Option.some.inj hlast
    rw [search, hs.read_cell]
    simp only [hnew c (by simp), Bool.false_eq_true, if_false]
    split
    · have hend : ∃ q, last _ [c] = some q ∧
          walk Node.next (fun a => o.eq a item) h h.length c.1 = some (q, false) :=
        walk_next_last ((segment_append _ _ _ _ _).mp hs).2 (by simp at hroom ⊢; omega)
          fun d hd => hnew d (List.mem_append_right _ hd)
      obtain ⟨q, -, hwalk⟩ := hend
      rw [searchNext, hwalk]
      rfl
    · have hend : ∃ q, first (init ++ [c]) none = some q ∧
          walk Node.prev (fun a => o.eq a item) h h.length c.1 = some (q, false) :=
        walk_prev_first hs hp hroom hnew
      obtain ⟨q, -, hwalk⟩ := hend
      rw [searchPrev, hwalk]
      rfl

theorem pushNext_behind {pre post : List (Nat × α)} {c : Nat × α} {q : Nat}
    (hs : Segment h none (pre ++ c :: post) none) (ha : Apart (pre ++ c :: post))
    (hnode : read h q = some ⟨none, none, item⟩) (hfresh : ∀ d ∈ pre ++ c :: post, d.1 ≠ q) :
    ∃ h', pushNext h c.1 q = some (.CtRC_SUCCESS, h') ∧
      Segment h' none (pre ++ c :: (q, item) :: post) none ∧ h'.length = h.length ∧
      ∀ p, (∀ d ∈ pre ++ c :: post, d.1 ≠ p) → q ≠ p → read h' p = read h p := by
  have hsplit : pre ++ c :: post = (pre ++ [c]) ++ post := by simp
  have hthis := hs.read_cell
  rw [hsplit] at hs ha hfresh
  obtain ⟨h', hlink, hs', hlen, hsame⟩ := splice_prev_next item hs ha (read_lt hnode) hfresh
  rw [last_append] at hlink
  refine ⟨h', ?_, by simpa using hs', hlen, hsplit ▸ hsame⟩
  rw [pushNext, hthis, hnode]
  exact congrArg (Option.map _) hlink

theorem pushPrev_before {pre post : List (Nat × α)} {c : Nat × α} {q : Nat}
    (hs : Segment h none (pre ++ c :: post) none) (ha : Apart (pre ++ c :: post))
    (hnode : read h q = some ⟨none, none, item⟩) (hfresh : ∀ d ∈ pre ++ c :: post, d.1 ≠ q) :
    ∃ h', pushPrev h c.1 q = some (.CtRC_SUCCESS, h') ∧
      Segment h' none (pre ++ (q, item) :: c :: post) none ∧ h'.length = h.length ∧
      ∀ p, (∀ d ∈ pre ++ c :: post, d.1 ≠ p) → q ≠ p → read h' p = read h p := by
  obtain ⟨h', hlink, hs', hlen, hsame⟩ := splice_next_prev item hs ha (read_lt hnode) hfresh
  refine ⟨h', ?_, hs', hlen, hsame⟩
  rw [pushPrev, hs.read_cell, hnode]
  exact congrArg (Option.map _) hlink

/-- A node is linked at its place. -/
theorem pushNode_place {pre post : List (Nat × α)} {q : Nat}
    (hs : Segment h none (pre ++ post) none) (ha : Apart (pre ++ post))
    (hp : last none (pre ++ post) = some p) (hroom : (pre ++ post).length ≤ h.length)
    (hnode : read h q = some ⟨none, none, item⟩) (hfresh : ∀ c ∈ pre ++ post, c.1 ≠ q)
    (hpre : ∀ c ∈ pre, o.gt item c.2 = true) (hpost : ∀ c ∈ post, o.gt c.2 item = true) :
    ∃ h', pushNode o h p q = some (.CtRC_SUCCESS, h') ∧
      Segment h' none (pre ++ (q, item) :: post) none ∧ h'.length = h.length := by
  have hnew : ∀ c ∈ pre ++ post, o.eq c.2 item = false := by
    intro c hc
    cases List.mem_append.mp hc with
    | inl hc =>
      exact (o.not_eq_of_gt (hpre c hc)).2
    | inr hc =>
      exact (o.not_eq_of_gt (hpost c hc)).1
  have hsearch := search_none hs hp hroom hnew
  cases post using List.reverseRecOn with
  | nil =>
    -- it belongs behind the last node
    obtain ⟨init, c, rfl⟩ := (List.eq_nil_or_concat pre).resolve_left (by rintro rfl; cases hp)
    simp only [List.concat_eq_append, List.append_nil] at *
    rw [last_append] at hp
    obtain rfl : c.1 = p := Option.some.inj hp
    have hgt := hpre c (by simp)
    have hstay : ∃ q, last (last none init) [c] = some q ∧
        walk Node.next (fun a => !o.gt item a) h h.length c.1 = some (q, false) :=
      walk_next_last ((segment_append _ _ _ _ _).mp hs).2 (by simp at hroom ⊢; omega)
        fun d hd => by rw [List.mem_singleton.mp hd, hgt]; rfl
    obtain ⟨r, hr, hwalk⟩ := hstay
    obtain rfl : c.1 = r := Option.some.inj hr
    obtain ⟨h', hpush, hs', hlen, -⟩ := pushNext_behind hs ha hnode hfresh
    refine ⟨h', ?_, by simpa using hs', hlen⟩
    simp only [pushNode, hs.read_cell, hnode, hsearch, hgt, if_true, hwalk, hpush]
  | append_singleton post d =>
    have hsplit : pre ++ (post ++ [d]) = (pre ++ post) ++ [d] := by simp
    have hread : read h p = some ⟨last none (pre ++ post), none, d.2⟩ := by
      rw [hsplit] at hs hp
      rw [last_append] at hp
      obtain rfl : d.1 = p := Option.some.inj hp
      exact hs.read_cell
    have hgt := hpost d (by simp)
    have hover : ∀ e ∈ post ++ [d], (!o.gt e.2 item) = false := by
      intro e he
      rw [hpost e he]
      rfl
    rcases List.eq_nil_or_concat pre with rfl | ⟨init, c, rfl⟩
    · have hend : ∃ q, first (post ++ [d]) none = some q ∧
          walk Node.prev (fun a => !o.gt a item) h h.length p = some (q, false) :=
        walk_prev_first hs hp (by simpa using hroom) hover
      obtain ⟨r, hr, hwalk⟩ := hend
      obtain ⟨e, post', hcons⟩ := List.exists_cons_of_ne_nil (l := post ++ [d]) (by simp)
      rw [List.nil_append] at *
      rw [hcons] at hs ha hfresh hr ⊢
      obtain rfl : e.1 = r := Option.some.inj hr
      have hfront : Segment h none ([] ++ e :: post') none := hs
      obtain ⟨h', hpush, hs', hlen, -⟩ := pushPrev_before hfront ha hnode hfresh
      refine ⟨h', ?_, hs', hlen⟩
      simp only [pushNode, hread, hnode, hsearch, o.gt_asymm _ _ hgt, Bool.false_eq_true, if_false,
        hwalk, hpush]
    · rw [List.concat_eq_append] at *
      have hcut : (init ++ [c]) ++ (post ++ [d]) = init ++ c :: (post ++ [d]) := by simp
      rw [hcut] at hs ha hp hroom hfresh
      have hwalk : walk Node.prev (fun a => !o.gt a item) h h.length p = some (c.1, true) := by
        apply walk_prev_found hs hp (by simp at hroom ⊢; omega) _ hover
        rw [o.gt_asymm _ _ (hpre c (by simp))]
        rfl
      obtain ⟨h', hpush, hs', hlen, -⟩ := pushNext_behind hs ha hnode hfresh
      refine ⟨h', ?_, by simpa using hs', hlen⟩
      simp only [pushNode, hread, hnode, hsearch, o.gt_asymm _ _ hgt, Bool.false_eq_true, if_false,
        hwalk, hpush]

end Push

/-! ## The invariant -/

/-- The manager holds the items of `cells`, strictly increasing. -/
structure SortedSet {α : Type} (o : Pointees α) (m : CTDChainMgr α) (cells : List (Nat × α)) :
    Prop where
  segment : Segment m.heap none cells none
  head : m.nodeHead = first cells none
  tail : m.nodeTail = last none cells
  num : m.nodeNum = cells.length
  sorted : o.Sorted (cells.map Prod.snd)
  apart : Apart cells
  room : cells.length ≤ m.heap.length

section Mgr

variable {α : Type} {o : Pointees α} {m : CTDChainMgr α} {cells : List (Nat × α)} {item : α}

theorem sortedSet_initial (o : Pointees α) : SortedSet o (.initial α) [] :=
  ⟨trivial, rfl, rfl, rfl, .nil, .nil, le_refl _⟩

/-- The heap in which the node of the new item lies, not linked yet. -/
theorem SortedSet.alloc (S : SortedSet o m cells) (item : α) :
    Segment (alloc ⟨none, none, item⟩ m.heap) none cells none ∧
      ∀ c ∈ cells, c.1 ≠ m.heap.length :=
  ⟨S.segment.frame fun c hc => read_alloc_other (S.segment.addr_lt c hc) _,
    fun c hc => (S.segment.addr_lt c hc).ne⟩

theorem head_segment {h : Heap α} {c : Nat × α} (hs : Segment h none cells none) (hc : c ∈ cells)
    (hroom : cells.length ≤ h.length) : NetmtChainMgr.head h c.1 = first cells none := by
  obtain ⟨pre, post, rfl⟩ := List.mem_iff_append.mp hc
  have hsplit : pre ++ c :: post = (pre ++ [c]) ++ post := by simp
  rw [hsplit] at hs hroom ⊢
  have hend : ∃ q, first (pre ++ [c]) none = some q ∧
      walk Node.prev (fun _ => false) h h.length c.1 = some (q, false) :=
    walk_prev_first ((segment_append _ _ _ _ _).mp hs).1 (by rw [last_append]; rfl)
      (by simp at hroom ⊢; omega) fun _ _ => rfl
  obtain ⟨q, hq, hwalk⟩ := hend
  rw [NetmtChainMgr.head, hwalk, first_append]
  cases pre <;> exact hq.symm

theorem tail_segment {h : Heap α} {c : Nat × α} (hs : Segment h none cells none) (hc : c ∈ cells)
    (hroom : cells.length ≤ h.length) : NetmtChainMgr.tail h c.1 = last none cells := by
  obtain ⟨pre, post, rfl⟩ := List.mem_iff_append.mp hc
  have hend : ∃ q, last (last none pre) (c :: post) = some q ∧
      walk Node.next (fun _ => false) h h.length c.1 = some (q, false) :=
    walk_next_last ((segment_append _ _ _ _ _).mp hs).2 (by simp at hroom ⊢; omega) fun _ _ => rfl
  obtain ⟨q, hq, hwalk⟩ := hend
  rw [NetmtChainMgr.tail, hwalk, last_append]
  exact hq.symm

/-- An item whose equal is there is deleted, and nothing else happens. -/
theorem push_old (S : SortedSet o m cells) (hold : ∃ c ∈ cells, o.eq c.2 item = true) :
    ∃ m', m.push o item = some (.CtRC_FAIL, m') ∧ SortedSet o m' cells ∧
      m'.deleted = m.deleted ++ [item] := by
  obtain ⟨c, hc, heq⟩ := hold
  have hne : cells ≠ [] := List.ne_nil_of_mem hc
  obtain ⟨q, hq⟩ := last_isSome none cells hne
  obtain ⟨d, cells', rfl⟩ := List.exists_cons_of_ne_nil hne
  obtain ⟨halloc, hfresh⟩ := S.alloc item
  obtain ⟨r, hsearch⟩ := search_found halloc hq
    (by rw [length_alloc]; exact Nat.le_succ_of_le S.room) S.sorted ⟨c, hc, heq⟩
  have hthis : ∃ n, read (Links.alloc ⟨none, none, item⟩ m.heap) q = some n := by
    obtain ⟨e, he, rfl⟩ := last_mem hq
    obtain ⟨init, rest, hsplit⟩ := List.append_of_mem he
    rw [hsplit] at halloc
    exact ⟨_, halloc.read_cell⟩
  obtain ⟨n, hthis⟩ := hthis
  have hpush : pushItem o item m q = some (.CtRC_REJECT, { m with
      heap := free m.heap.length (Links.alloc ⟨none, none, item⟩ m.heap)
      deleted := m.deleted ++ [item] }) := by
    simp only [pushItem, pushNode, hthis, read_alloc, hsearch]
  let m' : CTDChainMgr α :=
    { m with
      heap := free m.heap.length (Links.alloc ⟨none, none, item⟩ m.heap)
      deleted := m.deleted ++ [item] }
  refine ⟨m', ?_, ⟨?_, S.head, S.tail, S.num, S.sorted, S.apart, ?_⟩, rfl⟩
  · rw [CTDChainMgr.push, S.head, S.tail, hq, first]
    simp only [hpush]
    rfl
  · exact halloc.frame fun e he => read_free_other (hfresh e he).symm _
  · change (d :: cells').length ≤ (free _ (Links.alloc _ _)).length
    rw [length_free, length_alloc]
    exact Nat.le_succ_of_le S.room

/-- A new item gets a node at its place. -/
theorem push_new (S : SortedSet o m cells) (hnew : ∀ c ∈ cells, o.eq c.2 item = false) :
    ∃ m' pre post, m.push o item = some (.CtRC_SUCCESS, m') ∧ cells = pre ++ post ∧
      (∀ c ∈ pre, o.gt item c.2 = true) ∧ (∀ c ∈ post, o.gt c.2 item = true) ∧
      SortedSet o m' (pre ++ (m.heap.length, item) :: post) ∧ m'.deleted = m.deleted := by
  obtain ⟨pre, post, rfl, hpre, hpost⟩ := o.place S.sorted hnew
  obtain ⟨halloc, hfresh⟩ := S.alloc item
  have hsorted : o.Sorted ((pre ++ (m.heap.length, item) :: post).map Prod.snd) := by
    rw [List.map_append, List.map_cons]
    apply o.sorted_insert (by rw [← List.map_append]; exact S.sorted)
    · intro b hb
      obtain ⟨c, hc, rfl⟩ := List.mem_map.mp hb
      exact hpre c hc
    · intro b hb
      obtain ⟨c, hc, rfl⟩ := List.mem_map.mp hb
      exact hpost c hc
  have hapart : Apart (pre ++ (m.heap.length, item) :: post) := apart_middle.mpr ⟨hfresh, S.apart⟩
  by_cases hnil : pre ++ post = []
  · obtain ⟨rfl, rfl⟩ := List.append_eq_nil_iff.mp hnil
    let m' : CTDChainMgr α :=
      { m with
        heap := Links.alloc ⟨none, none, item⟩ m.heap
        nodeHead := some m.heap.length
        nodeTail := some m.heap.length
        nodeCurr := some m.heap.length
        nodeNum := m.nodeNum + 1 }
    refine ⟨m', [], [], ?_, rfl, hpre, hpost, ⟨?_, rfl, rfl, ?_, hsorted, hapart, ?_⟩, rfl⟩
    · rw [CTDChainMgr.push, S.head]
      rfl
    · exact ⟨read_alloc _ _, trivial⟩
    · exact congrArg (· + 1) S.num
    · change 1 ≤ (Links.alloc _ m.heap).length
      rw [length_alloc]
      exact Nat.le_add_left 1 _
  · obtain ⟨q, hq⟩ := last_isSome none (pre ++ post) hnil
    have hroom : (pre ++ post).length ≤ (Links.alloc ⟨none, none, item⟩ m.heap).length := by
      rw [length_alloc]
      exact Nat.le_succ_of_le S.room
    obtain ⟨h', hpush, hs', hlen⟩ := pushNode_place halloc S.apart hq hroom (read_alloc _ _) hfresh
      hpre hpost
    have hlen' : h'.length = m.heap.length + 1 := by rw [hlen, length_alloc]
    have hroom' : (pre ++ (m.heap.length, item) :: post).length ≤ h'.length := by
      have hle := S.room
      rw [hlen']
      simp only [List.length_append, List.length_cons] at hle ⊢
      omega
    have hmem : ∀ c ∈ pre ++ post, c ∈ pre ++ (m.heap.length, item) :: post := by
      intro c hc
      cases List.mem_append.mp hc with
      | inl hc =>
        exact List.mem_append_left _ hc
      | inr hc =>
        exact List.mem_append_right _ (List.mem_cons_of_mem _ hc)
    have hfirst : ∃ c ∈ pre ++ post, first (pre ++ post) none = some c.1 := by
      obtain ⟨d, rest, hcons⟩ := List.exists_cons_of_ne_nil hnil
      exact ⟨d, by rw [hcons]; simp, by rw [hcons]; rfl⟩
    obtain ⟨c, hc, hfirst⟩ := hfirst
    obtain ⟨d, hd, rfl⟩ := last_mem hq
    obtain ⟨p, hhead⟩ : ∃ p, first (pre ++ (m.heap.length, item) :: post) none = some p := by
      cases pre <;> exact ⟨_, rfl⟩
    obtain ⟨r, htail⟩ := last_isSome none (pre ++ (m.heap.length, item) :: post) (by simp)
    have hpushItem : pushItem o item m d.1 = some (.CtRC_SUCCESS, { m with heap := h' }) := by
      simp only [pushItem, hpush]
    let m' : CTDChainMgr α :=
      { m with
        heap := h'
        nodeHead := some p
        nodeTail := some r
        nodeNum := m.nodeNum + 1 }
    refine ⟨m', pre, post, ?_, rfl, hpre, hpost, ⟨hs', hhead.symm, htail.symm, ?_, hsorted, hapart,
      hroom'⟩, rfl⟩
    · rw [CTDChainMgr.push, S.head, S.tail, hfirst, hq]
      simp only [hpushItem, head_segment hs' (hmem c hc) hroom',
        tail_segment hs' (hmem d hd) hroom',
        hhead, htail]
      rfl
    · have hnum := S.num
      change m.nodeNum + 1 = _
      rw [hnum]
      simp only [List.length_append, List.length_cons]
      omega

/-! ## Runs of pushes -/

/-- The items that have no equal in front of them; `earlier` were pushed before. -/
def firsts (o : Pointees α) : List α → List α → List α
  | _, [] => []
  | earlier, a :: items =>
    if earlier.any fun b => o.eq b a then firsts o (earlier ++ [a]) items
    else a :: firsts o (earlier ++ [a]) items

theorem firsts_concat (earlier items : List α) (a : α) : firsts o earlier (items ++ [a]) =
    firsts o earlier items ++ if (earlier ++ items).any fun b => o.eq b a then [] else [a] := by
  induction items generalizing earlier with
  | nil =>
    rw [List.nil_append, List.append_nil]
    change (if _ then _ else _) = [] ++ _
    split <;> rfl
  | cons b items ih =>
    have hsame : earlier ++ [b] ++ items = earlier ++ b :: items := by simp
    rw [List.cons_append, firsts, firsts, ih (earlier ++ [b]), hsame]
    split
    · rfl
    · rw [List.cons_append]

/-- Every item has its representative. -/
theorem firsts_any (items : List α) (a : α) :
    ((firsts o [] items).any fun b => o.eq b a) = items.any fun b => o.eq b a := by
  induction items using List.reverseRecOn with
  | nil => rfl
  | append_singleton items b ih =>
    rw [firsts_concat, List.nil_append, List.any_append, ih, List.any_append]
    split
    · next hold =>
      cases hb : o.eq b a with
      | false => simp [hb]
      | true =>
        obtain ⟨c, hc, heq⟩ := List.any_eq_true.mp hold
        have hany : (items.any fun b => o.eq b a) = true :=
          List.any_eq_true.mpr ⟨c, hc, o.eq_trans heq hb⟩
        simp [hany]
    · rfl

/-! ## Objects -/

/-- A linked node holds an object that was deleted. -/
theorem SortedSet.dangles_iff (S : SortedSet o m cells) :
    Dangles m.deleted m.heap m.nodeHead ↔ ∃ c ∈ cells, c.2 ∈ m.deleted := by
  rw [Dangles, S.head, follow_segment S.segment S.room, Option.getD_some]

theorem Pointees.Sorted.nodup {l : List α} (hs : o.Sorted l) : l.Nodup := by
  refine hs.imp fun {a b} hgt heq => ?_
  rw [heq, o.gt_irrefl] at hgt
  cases hgt

/-- What a run of pushes keeps: every object is held or was deleted, and none was
deleted twice. -/
structure Kept (o : Pointees α) (items : List α) (m : CTDChainMgr α) (cells : List (Nat × α)) :
    Prop where
  sorted : SortedSet o m cells
  firsts : (cells.map Prod.snd).Perm (firsts o [] items)
  owned : (cells.map Prod.snd ++ m.deleted).Perm items
  once : m.deleted.Nodup

/-- No object is held and deleted where none was pushed twice. -/
theorem Kept.live {items : List α} (K : Kept o items m cells) (hdistinct : items.Nodup) :
    ∀ c ∈ cells, c.2 ∉ m.deleted := by
  intro c hc hdeleted
  have hnodup := K.owned.nodup_iff.mpr hdistinct
  rw [List.nodup_append] at hnodup
  exact hnodup.2.2 c.2 (List.mem_map_of_mem hc) c.2 hdeleted rfl

section Objects

variable [DecidableEq α]

theorem pushAll_concat {items : List α} {a : α} {m₀ m' : CTDChainMgr α} :
    pushAll o (items ++ [a]) m₀ = some m' ↔
      ∃ m code, pushAll o items m₀ = some m ∧ m.pushObject o a = some (code, m') := by
  rw [pushAll, List.foldlM_append]
  change (pushAll o items m₀).bind _ = _ ↔ _
  rw [Option.bind_eq_some_iff]
  refine exists_congr fun m => ?_
  simp only [List.foldlM_cons, List.foldlM_nil, Option.bind_eq_bind]
  cases m.pushObject o a with
  | none => simp
  | some r => simp [Prod.ext_iff]

/-- A push of an object that was not pushed before. -/
theorem Kept.push {items : List α} (K : Kept o items m cells) {a : α} {code : CtRetCode}
    {m' : CTDChainMgr α} (hpush : m.pushObject o a = some (code, m')) :
    ∃ cells', Kept o (items ++ [a]) m' cells' := by
  rw [CTDChainMgr.pushObject] at hpush
  split at hpush
  · cases hpush
  · next hlive =>
    rw [not_or] at hlive
    have hany : (items.any fun b => o.eq b a) = cells.any fun c => o.eq c.2 a := by
      have hmap : (cells.any fun c => o.eq c.2 a) = (cells.map Prod.snd).any fun b => o.eq b a := by
        rw [List.any_map]
        rfl
      rw [← firsts_any, hmap, Bool.eq_iff_iff]
      simp only [List.any_eq_true, K.firsts.mem_iff]
    cases hold : cells.any fun c => o.eq c.2 a with
    | true =>
      obtain ⟨m₁, hpush', S', hdeleted⟩ := push_old K.sorted (List.any_eq_true.mp hold)
      rw [hpush'] at hpush
      cases hpush
      refine ⟨cells, S', ?_, ?_, ?_⟩
      · rw [firsts_concat, List.nil_append, hany, hold]
        simpa using K.firsts
      · rw [hdeleted, ← List.append_assoc]
        exact K.owned.append_right [a]
      · rw [hdeleted]
        exact (List.perm_append_singleton a m.deleted).nodup_iff.mpr
          (List.nodup_cons.mpr ⟨hlive.1, K.once⟩)
    | false =>
      obtain ⟨m₁, pre, post, hpush', rfl, -, -, S', hdeleted⟩ :=
        push_new K.sorted fun c hc => by simpa using List.any_eq_false.mp hold c hc
      rw [hpush'] at hpush
      cases hpush
      have hperm : ((pre ++ (m.heap.length, a) :: post).map Prod.snd).Perm
          ((pre ++ post).map Prod.snd ++ [a]) := by
        have hmid : (pre ++ (m.heap.length, a) :: post).Perm
            ((m.heap.length, a) :: (pre ++ post)) :=
          List.perm_middle
        exact (hmid.map Prod.snd).trans (List.perm_append_singleton a _).symm
      refine ⟨_, S', ?_, ?_, ?_⟩
      · rw [firsts_concat, List.nil_append, hany, hold]
        exact hperm.trans (K.firsts.append_right [a])
      · rw [hdeleted]
        refine (hperm.append_right m.deleted).trans ?_
        rw [List.append_assoc]
        refine (List.perm_append_comm.append_left _).trans ?_
        rw [← List.append_assoc]
        exact K.owned.append_right [a]
      · rw [hdeleted]
        exact K.once

/-- What every run that goes on keeps. -/
theorem pushAll_kept {items : List α} {m : CTDChainMgr α}
    (hrun : pushAll o items (.initial α) = some m) :
    ∃ cells, Kept o items m cells := by
  induction items using List.reverseRecOn generalizing m with
  | nil =>
    cases hrun
    exact ⟨[], sortedSet_initial o, .refl _, .refl _, .nil⟩
  | append_singleton items a ih =>
    obtain ⟨m₁, code, hrun₁, hpush⟩ := pushAll_concat.mp hrun
    obtain ⟨cells, K⟩ := ih hrun₁
    exact K.push hpush

/-- Another object goes to the chain, or is deleted where its equal is held. -/
theorem Kept.next {items : List α} (K : Kept o items m cells) (hlive : ∀ c ∈ cells, c.2 ∉ m.deleted)
    {item : α} (hnew : item ∉ items) : ∃ m', m.pushObject o item =
      some (if cells.any fun c => o.eq c.2 item then .CtRC_FAIL else .CtRC_SUCCESS, m') := by
  have hitem : ¬ (item ∈ m.deleted ∨ Dangles m.deleted m.heap m.nodeHead) := by
    rw [K.sorted.dangles_iff]
    rintro (hmem | ⟨c, hc, hmem⟩)
    · exact hnew (K.owned.mem_iff.mp (List.mem_append_right _ hmem))
    · exact hlive c hc hmem
  rw [CTDChainMgr.pushObject, if_neg hitem]
  cases hold : cells.any fun c => o.eq c.2 item with
  | true =>
    obtain ⟨m', hpush, -⟩ := push_old K.sorted (List.any_eq_true.mp hold)
    exact ⟨m', hpush⟩
  | false =>
    obtain ⟨m', pre, post, hpush, -⟩ :=
      push_new K.sorted fun c hc => by simpa using List.any_eq_false.mp hold c hc
    exact ⟨m', hpush⟩

theorem pushAll_isSome {items : List α} (hdistinct : items.Nodup) :
    ∃ m, pushAll o items (.initial α) = some m := by
  induction items using List.reverseRecOn with
  | nil => exact ⟨_, rfl⟩
  | append_singleton items a ih =>
    have hcons := (List.perm_append_singleton a items).nodup_iff.mp hdistinct
    rw [List.nodup_cons] at hcons
    obtain ⟨m, hrun⟩ := ih hcons.2
    obtain ⟨cells, K⟩ := pushAll_kept hrun
    obtain ⟨m', hpush⟩ := K.next (K.live hcons.2) hcons.1
    exact ⟨m', pushAll_concat.mpr ⟨m, _, hrun, hpush⟩⟩

/-- What the pushes are to leave: nodes strictly increasing along `m_pNext` and linked
back by `m_pPrev`, with head, tail and number theirs; the first pushed object of each
value, none of them deleted, and all others deleted; and a manager that takes just the
objects whose value is not there. -/
def LeavesSet (o : Pointees α) (items : List α) : Prop :=
  ∃ m cells, pushAll o items (.initial α) = some m ∧
    follow m.heap m.heap.length m.nodeHead = some cells ∧ Segment m.heap none cells none ∧
    m.nodeTail = last none cells ∧ m.nodeNum = cells.length ∧ o.Sorted (cells.map Prod.snd) ∧
    (cells.map Prod.snd).Perm (firsts o [] items) ∧ (cells.map Prod.snd ++ m.deleted).Perm items ∧
    (∀ c ∈ cells, c.2 ∉ m.deleted) ∧
    ∀ item, item ∉ items → ∃ m', m.pushObject o item =
      some (if cells.any fun c => o.eq c.2 item then .CtRC_FAIL else .CtRC_SUCCESS, m')

/-- An object that is pushed again is deleted: it was held, or deleted before. -/
theorem LeavesSet.nodup {items : List α} (h : LeavesSet o items) : items.Nodup := by
  obtain ⟨m, cells, hrun, -, -, -, -, hsorted, -, howned, hlive, -⟩ := h
  obtain ⟨cells', K⟩ := pushAll_kept hrun
  refine howned.nodup_iff.mp (List.nodup_append.mpr ⟨Pointees.Sorted.nodup hsorted, K.once, ?_⟩)
  rintro a ha b hb rfl
  obtain ⟨c, hc, rfl⟩ := List.mem_map.mp ha
  exact hlive c hc hb

/-- They leave it just when no object was pushed twice. -/
theorem pushes_sorted_set (o : Pointees α) (items : List α) : LeavesSet o items ↔ items.Nodup := by
  constructor
  · exact LeavesSet.nodup
  · intro hdistinct
    obtain ⟨m, hrun⟩ := pushAll_isSome (o := o) hdistinct
    obtain ⟨cells, K⟩ := pushAll_kept hrun
    have hlive := K.live hdistinct
    have hfollow : follow m.heap m.heap.length m.nodeHead = some cells := by
      rw [K.sorted.head]
      exact follow_segment K.sorted.segment K.sorted.room
    exact ⟨m, cells, hrun, hfollow, K.sorted.segment, K.sorted.tail, K.sorted.num, K.sorted.sorted,
      K.firsts, K.owned, hlive, fun item hnew => K.next hlive hnew⟩

/-- Of five objects with three values, two are deleted. -/
example : ((pushAll (.ofKey Prod.snd) [(0, 5), (1, 3), (2, 5), (3, 9), (4, 3)]
    (.initial (Nat × Nat))).map fun m =>
    (follow m.heap m.heap.length m.nodeHead, m.deleted)) =
      some (some [(1, (1, 3)), (0, (0, 5)), (3, (3, 9))], [(2, 5), (4, 3)]) := by
  decide

/-- The object of value 1 that is pushed once more is deleted under the node that
holds it. -/
theorem pushed_twice : ¬ LeavesSet (.ofKey (Prod.snd : Nat × Nat → Nat)) [(0, 1), (0, 1)] ∧
    ((pushAll (.ofKey Prod.snd) [(0, 1), (0, 1)] (.initial (Nat × Nat))).map fun m =>
      (follow m.heap m.heap.length m.nodeHead, m.deleted)) =
        some (some [(0, (0, 1))], [(0, 1)]) := by
  refine ⟨fun h => absurd h.nodup (by decide), by decide⟩

end Objects

/-- For items compared by a key, a push is an insertion into the sorted list. -/
theorem push_keyed {κ : Type} [LinearOrder κ] (key : α → κ) (S : SortedSet (.ofKey key) m cells)
    (item : α) : ∃ code m' cells', m.push (.ofKey key) item = some (code, m') ∧
      SortedSet (.ofKey key) m' cells' ∧
      cells'.map Prod.snd = Keyed.insert key item (cells.map Prod.snd) := by
  by_cases hold : ∃ c ∈ cells, key c.2 = key item
  · obtain ⟨c, hc, heq⟩ := hold
    obtain ⟨m', hpush, S', -⟩ := push_old S ⟨c, hc, decide_eq_true heq⟩
    refine ⟨_, m', cells, hpush, S', ?_⟩
    rw [Keyed.insert_rejected key ⟨c.2, List.mem_map_of_mem hc, heq⟩]
  · have hnew : ∀ c ∈ cells, key c.2 ≠ key item := fun c hc heq => hold ⟨c, hc, heq⟩
    obtain ⟨m', pre, post, hpush, rfl, -, -, S', -⟩ :=
      push_new S fun c hc => decide_eq_false (hnew c hc)
    refine ⟨_, m', _, hpush, S', ?_⟩
    have hkeys : ∀ b ∈ (pre ++ post).map Prod.snd, key b ≠ key item := by
      intro b hb
      obtain ⟨c, hc, rfl⟩ := List.mem_map.mp hb
      exact hnew c hc
    have hsorted : Keyed.Sorted key ((pre ++ post).map Prod.snd) :=
      S.sorted.imp fun h => of_decide_eq_true h
    have hsorted' : Keyed.Sorted key ((pre ++ (m.heap.length, item) :: post).map Prod.snd) :=
      S'.sorted.imp fun h => of_decide_eq_true h
    refine Keyed.eq_insert key hsorted hkeys hsorted' ?_
    rw [List.map_append, List.map_cons, List.map_append]
    exact List.perm_middle

end Mgr

end NetmtChainMgr
