import Netmt.Lib.HeapOrder

/-!
# The heap of nodes

`base/heap.h`: nodes that point at each other, with the place of the last one found from
the bits of their number. A pointer is an address or null; a step that follows a null
pointer, or one to no node, or that fails the assertion, gives nothing.
-/
namespace NetmtHeap

open HeapOrder

structure HeapNode where
  parent : Option Nat
  left : Option Nat
  right : Option Nat
  deriving DecidableEq

def HeapNode.null : HeapNode := ⟨none, none, none⟩

/-- `struct heap`, with the nodes by their addresses. -/
structure Heap where
  root : Option Nat
  nelts : Nat
  nodes : Nat → Option HeapNode

/-- A change of the node pointed at, if the pointer is not null. -/
def Heap.write (o : Option Nat) (f : HeapNode → HeapNode) (h : Heap) : Option Heap :=
  match o with
  | none => some h
  | some a => (h.nodes a).map fun node =>
    { h with nodes := Function.update h.nodes a (some (f node)) }

def setParent (p : Option Nat) (node : HeapNode) : HeapNode := { node with parent := p }

/-- `if (parent->left == s) parent->left = r; else if (parent->right == s) parent->right = r;` -/
def replaceChild (s r : Nat) (node : HeapNode) : HeapNode :=
  if node.left = some s then { node with left := some r }
  else if node.right = some s then { node with right := some r }
  else node

def relink (parent : Option Nat) (s r : Nat) (h : Heap) : Option Heap :=
  match parent with
  | none => some { h with root := some r }
  | some _ => h.write parent (replaceChild s r)

/-- `heap_replace`, with an `r` that is not null. -/
def heapReplace (s r : Nat) (h : Heap) : Option Heap :=
  (h.nodes s).bind fun node =>
  (relink node.parent s r h).bind fun h =>
  (h.write node.left (setParent (some r))).bind fun h =>
  (h.write node.right (setParent (some r))).bind fun h =>
  (h.nodes s).bind fun node =>
  h.write (some r) fun _ => node

def heapSwap (parent child : Nat) (h : Heap) : Option Heap :=
  (h.nodes parent).bind fun p =>
  (h.nodes child).bind fun c =>
  if c.parent = some parent ∧ (p.left = some child ∨ p.right = some child) then
    (relink p.parent parent child h).bind fun h =>
    (h.write c.left (setParent (some parent))).bind fun h =>
    (h.write c.right (setParent (some parent))).bind fun h =>
    (h.write (some child) (setParent p.parent)).bind fun h =>
    (h.nodes parent).bind fun p' =>
    let sibling := if p'.left = some child then p'.right else p'.left
    (h.write (some child) fun c' =>
      if p'.left = some child then { c' with left := some parent, right := sibling }
      else { c' with left := sibling, right := some parent }).bind fun h =>
    (h.write sibling (setParent (some child))).bind fun h =>
    h.write (some parent) fun _ => ⟨some child, c.left, c.right⟩
  else none

/-- The bits of the number of the last node, the lowest last: `path` and `d`. -/
def pathLoop (n d path : Nat) : Nat × Nat :=
  if 2 ≤ n then pathLoop (n / 2) (d + 1) (2 * path + n % 2) else (path, d)
termination_by n
decreasing_by omega

/-- `while(d > 1)`: the parent of the last node, and what is left of the path. -/
def walk (h : Heap) : Nat → Nat → Option Nat → Option (Option Nat × Nat)
  | d + 2, path, parent =>
    parent.bind fun a => (h.nodes a).bind fun node =>
      walk h (d + 1) (path / 2) (if path % 2 = 1 then node.right else node.left)
  | _, path, parent => some (parent, path)

section Compare

variable {β : Type} [LinearOrder β] (key : Nat → β)

/-- `while (node->parent && heap->compare(node, node->parent))` -/
def siftUp : Nat → Nat → Heap → Option Heap
  | 0, _, _ => none
  | fuel + 1, v, h =>
    (h.nodes v).bind fun node =>
      match node.parent with
      | none => some h
      | some p => if key v < key p then (heapSwap p v h).bind (siftUp fuel v) else some h

/-- `heap->compare(est, child) ? est : child` -/
def least (est : Nat) : Option Nat → Nat
  | none => est
  | some child => if key est < key child then est else child

/-- `while (1)` of the sift down. -/
def siftDown : Nat → Nat → Heap → Option Heap
  | 0, _, _ => none
  | fuel + 1, v, h =>
    (h.nodes v).bind fun node =>
      let est := least key (least key v node.left) node.right
      if est = v then some h else (heapSwap v est h).bind (siftDown fuel v)

def addChild (node path : Nat) (p : HeapNode) : HeapNode :=
  if path % 2 = 1 then { p with right := some node } else { p with left := some node }

/-- The node goes to its place behind the last one. -/
def attach (node : Nat) (parent : Option Nat) (path : Nat) (h : Heap) : Option Heap :=
  (h.write (some node) (setParent parent)).bind fun h =>
  match parent with
  | none => some { h with root := some node }
  | some _ => h.write parent (addChild node path)

def heapInsert (node : Nat) (h : Heap) : Option Heap :=
  let h := { h with nelts := h.nelts + 1 }
  let (path, d) := pathLoop h.nelts 0 0
  (walk h d path h.root).bind fun (parent, path) =>
  (attach node parent path h).bind (siftUp key (h.nelts + 1) node)

def childAt (path : Nat) (p : HeapNode) : Option Nat := if path % 2 = 1 then p.right else p.left

def clearChild (path : Nat) (p : HeapNode) : HeapNode :=
  if path % 2 = 1 then { p with right := none } else { p with left := none }

/-- `last` takes the place of the node, and moves to where it belongs. -/
def putLast (node last : Nat) (h : Heap) : Option Heap :=
  (heapReplace node last h).bind fun h =>
  (h.write (some node) fun _ => .null).bind fun h =>
  (siftDown key (h.nelts + 1) last h).bind (siftUp key (h.nelts + 1) last)

def heapRemove (node : Nat) (h : Heap) : Option Heap :=
  if h.nelts = 0 then some h
  else
    let (path, d) := pathLoop h.nelts 0 0
    let h := { h with nelts := h.nelts - 1 }
    (walk h d path h.root).bind fun (parent, path) =>
    match parent with
    | none => some h
    | some p =>
      (h.nodes p).bind fun pnode =>
      (h.write parent (clearChild path)).bind fun h =>
      match childAt path pnode with
      | none => some (if h.root = some node then { h with root := none } else h)
      | some last => putLast key node last h

/-- `heap_remove(heap, heap->root)`; of an empty heap nothing is removed. -/
def heapDequeue (h : Heap) : Option Heap :=
  if h.nelts = 0 then some h else h.root.bind fun root => heapRemove key root h

end Compare

/-! ## The tree -/

/-- The address at a place of the tree. -/
def place (slots : Nat → Nat) (n k : Nat) : Option Nat :=
  if 1 ≤ k ∧ k ≤ n then some (slots k) else none

def nodeAt (slots : Nat → Nat) (n k : Nat) : HeapNode :=
  ⟨place slots n (k / 2), place slots n (2 * k), place slots n (2 * k + 1)⟩

/-- The nodes form the complete tree of `n` places. -/
structure Rep (h : Heap) (slots : Nat → Nat) (n : Nat) : Prop where
  nelts : h.nelts = n
  root : h.root = place slots n 1
  nodes : ∀ k, 1 ≤ k → k ≤ n → h.nodes (slots k) = some (nodeAt slots n k)
  apart : Apart slots n

theorem place_some {slots : Nat → Nat} {n k : Nat} (hk : 1 ≤ k) (hn : k ≤ n) :
    place slots n k = some (slots k) :=
  if_pos ⟨hk, hn⟩

theorem place_zero (slots : Nat → Nat) (n : Nat) : place slots n 0 = none := if_neg (by omega)

theorem place_beyond {slots : Nat → Nat} {n k : Nat} (hn : n < k) : place slots n k = none :=
  if_neg (by omega)

theorem place_eq_iff {slots : Nat → Nat} {n i k : Nat} (h : Apart slots n)
    (hk : 1 ≤ k) (hn : k ≤ n) :
    place slots n i = some (slots k) ↔ i = k := by
  rw [place]
  constructor
  · intro hi
    split at hi
    · next hrange => exact h i k hrange.1 hrange.2 hk hn (Option.some.inj hi)
    · cases hi
  · rintro rfl
    rw [if_pos ⟨hk, hn⟩]

theorem place_stands {slots : Nat → Nat} {n i a : Nat} (h : place slots n i = some a) :
    Stands slots n a := by
  rw [place] at h
  split at h
  · next hrange => exact ⟨i, hrange.1, hrange.2, Option.some.inj h⟩
  · cases h

/-! ## Writing through pointers -/

/-- What `write` makes of the nodes. -/
def Heap.edit (o : Option Nat) (f : HeapNode → HeapNode) (h : Heap) : Heap :=
  { h with nodes := fun a => if o = some a then (h.nodes a).map f else h.nodes a }

theorem write_eq {o : Option Nat} {h : Heap} (hthere : ∀ a, o = some a → (h.nodes a).isSome)
    (f : HeapNode → HeapNode) :
    h.write o f = some (h.edit o f) := by
  cases o with
  | none => simp [Heap.write, Heap.edit]
  | some a =>
    obtain ⟨node, hnode⟩ := Option.isSome_iff_exists.mp (hthere a rfl)
    rw [Heap.write, hnode, Option.map_some, Heap.edit]
    congr
    funext b
    by_cases hb : a = b
    · rw [if_pos (by rw [hb]), ← hb, Function.update_self, hnode, Option.map_some]
    · rw [if_neg (fun h => hb (Option.some.inj h)), Function.update_of_ne (Ne.symm hb)]

@[simp] theorem edit_root (o : Option Nat) (f : HeapNode → HeapNode) (h : Heap) :
    (h.edit o f).root = h.root := rfl
@[simp] theorem edit_nelts (o : Option Nat) (f : HeapNode → HeapNode) (h : Heap) :
    (h.edit o f).nelts = h.nelts := rfl

theorem edit_nodes (o : Option Nat) (f : HeapNode → HeapNode) (h : Heap) (a : Nat) :
    (h.edit o f).nodes a = if o = some a then (h.nodes a).map f else h.nodes a := rfl

@[simp] theorem edit_isSome (o : Option Nat) (f : HeapNode → HeapNode) (h : Heap) (a : Nat) :
    ((h.edit o f).nodes a).isSome = (h.nodes a).isSome := by
  rw [edit_nodes]
  split
  · rw [Option.isSome_map]
  · rfl

/-- What `relink` makes of the heap. -/
def Heap.relinked (parent : Option Nat) (s r : Nat) (h : Heap) : Heap :=
  { h.edit parent (replaceChild s r) with root := if parent = none then some r else h.root }

theorem relink_eq {parent : Option Nat} {h : Heap}
    (hthere : ∀ a, parent = some a → (h.nodes a).isSome) (s r : Nat) :
    relink parent s r h = some (h.relinked parent s r) := by
  cases parent with
  | none =>
    rw [relink, Heap.relinked, if_pos rfl]
    simp [Heap.edit]
  | some a =>
    rw [relink, write_eq hthere, Heap.relinked, if_neg (by simp)]
    rfl

theorem relinked_nodes (parent : Option Nat) (s r : Nat) (h : Heap) (a : Nat) :
    (h.relinked parent s r).nodes a = if parent = some a then (h.nodes a).map (replaceChild s r)
      else h.nodes a := rfl

@[simp] theorem relinked_isSome (parent : Option Nat) (s r : Nat) (h : Heap) (a : Nat) :
    ((h.relinked parent s r).nodes a).isSome = (h.nodes a).isSome := edit_isSome _ _ _ _

@[simp] theorem relinked_nelts (parent : Option Nat) (s r : Nat) (h : Heap) :
    (h.relinked parent s r).nelts = h.nelts := rfl

section Tree

variable {h : Heap} {slots : Nat → Nat} {n : Nat}

/-- There is a node wherever a place is filled. -/
theorem Rep.there (hrep : Rep h slots n) {i a : Nat} (hi : place slots n i = some a) :
    (h.nodes a).isSome := by
  obtain ⟨k, hk, hn, rfl⟩ := place_stands hi
  rw [hrep.nodes k hk hn]
  rfl

/-- The nodes that a change leaves as they are outside the tree. -/
def Frame (slots : Nat → Nat) (n : Nat) (h h' : Heap) : Prop :=
  ∀ a, ¬ Stands slots n a → h'.nodes a = h.nodes a

/-! ## Exchanging parent and child -/

/-- The other child of the same parent. -/
def sibling (k : Nat) : Nat := if k = 2 * (k / 2) then 2 * (k / 2) + 1 else 2 * (k / 2)

/-- The heap behind `heap_swap` of the nodes at `k / 2` and `k`. -/
def swapped (slots : Nat → Nat) (n k : Nat) (h : Heap) : Heap :=
  (((((((h.relinked (place slots n (k / 2 / 2)) (slots (k / 2)) (slots k)).edit
    (place slots n (2 * k)) (setParent (some (slots (k / 2))))).edit
    (place slots n (2 * k + 1)) (setParent (some (slots (k / 2))))).edit
    (some (slots k)) (setParent (place slots n (k / 2 / 2)))).edit
    (some (slots k)) fun c =>
      if k = 2 * (k / 2) then
        { c with left := some (slots (k / 2)), right := place slots n (sibling k) }
      else { c with left := place slots n (sibling k), right := some (slots (k / 2)) }).edit
    (place slots n (sibling k)) (setParent (some (slots k)))).edit
    (some (slots (k / 2))) fun _ =>
      ⟨some (slots k), place slots n (2 * k), place slots n (2 * k + 1)⟩)

theorem heapSwap_eq (hrep : Rep h slots n) {k : Nat} (hk : 2 ≤ k) (hn : k ≤ n) :
    heapSwap (slots (k / 2)) (slots k) h = some (swapped slots n k h) := by
  have hparent := hrep.nodes (k / 2) (by omega) (by omega)
  have hchild := hrep.nodes k (by omega) hn
  have happ := hrep.apart
  have hplace : place slots n (k / 2) = some (slots (k / 2)) := place_some (by omega) (by omega)
  have hleft : place slots n (2 * (k / 2)) = some (slots k) ↔ k = 2 * (k / 2) := by
    rw [place_eq_iff happ (by omega) hn]
    exact eq_comm
  have hassert : (nodeAt slots n k).parent = some (slots (k / 2)) ∧
      ((nodeAt slots n (k / 2)).left = some (slots k) ∨ (nodeAt slots n (k / 2)).right =
        some (slots k)) := by
    refine ⟨hplace, ?_⟩
    simp only [nodeAt]
    rw [hleft, place_eq_iff happ (by omega) hn]
    omega
  have hthere : ∀ {i a : Nat}, place slots n i = some a → (h.nodes a).isSome :=
    fun hi => hrep.there hi
  have hchild' : (h.nodes (slots k)).isSome := by
    rw [hchild]
    rfl
  have hparent' : (h.nodes (slots (k / 2))).isSome := by
    rw [hparent]
    rfl
  -- the parent's node is read once more, as it was
  have hread : (((h.relinked (place slots n (k / 2 / 2)) (slots (k / 2)) (slots k)).edit
      (place slots n (2 * k)) (setParent (some (slots (k / 2))))).edit
      (place slots n (2 * k + 1)) (setParent (some (slots (k / 2)))) |>.edit
      (some (slots k)) (setParent (place slots n (k / 2 / 2)))).nodes (slots (k / 2)) =
        some (nodeAt slots n (k / 2)) := by
    have hne : slots k ≠ slots (k / 2) := fun heq => by
      have := happ _ _ (by omega) hn (by omega) (by omega) heq
      omega
    rw [edit_nodes, if_neg (fun heq => hne (Option.some.inj heq)), edit_nodes,
      if_neg (fun heq => by have := (place_eq_iff happ (by omega) (by omega)).mp heq; omega),
      edit_nodes,
      if_neg (fun heq => by have := (place_eq_iff happ (by omega) (by omega)).mp heq; omega),
      relinked_nodes,
      if_neg (fun heq => by have := (place_eq_iff happ (by omega) (by omega)).mp heq; omega),
      hparent]
  have hsibling : (if (nodeAt slots n (k / 2)).left = some (slots k) then
    (nodeAt slots n (k / 2)).right
      else (nodeAt slots n (k / 2)).left) = place slots n (sibling k) := by
    simp only [nodeAt, hleft, sibling]
    split <;> rfl
  rw [heapSwap, hparent, hchild, Option.bind_some, Option.bind_some, if_pos hassert]
  simp only [nodeAt] at hleft hsibling ⊢
  rw [relink_eq fun a ha => hthere ha, Option.bind_some]
  rw [write_eq fun a ha => by rw [relinked_isSome]; exact hthere ha, Option.bind_some]
  rw [write_eq fun a ha => by rw [edit_isSome, relinked_isSome]; exact hthere ha, Option.bind_some]
  rw [write_eq fun a ha => by
    rw [edit_isSome, edit_isSome, relinked_isSome, ← Option.some.inj ha]
    exact hchild', Option.bind_some, hread, Option.bind_some]
  simp only [nodeAt, hsibling]
  rw [write_eq fun a ha => by
    rw [edit_isSome, edit_isSome, edit_isSome, relinked_isSome, ← Option.some.inj ha]
    exact hchild', Option.bind_some]
  rw [write_eq fun a ha => by
    rw [edit_isSome, edit_isSome, edit_isSome, edit_isSome, relinked_isSome]
    exact hthere ha, Option.bind_some]
  rw [write_eq fun a ha => by
    rw [edit_isSome, edit_isSome, edit_isSome, edit_isSome, edit_isSome, relinked_isSome,
      ← Option.some.inj ha]
    exact hparent']
  simp only [swapped, hleft]

theorem place_swap {i j : Nat} (hi : 1 ≤ i ∧ i ≤ n) (hj : 1 ≤ j ∧ j ≤ n) (k : Nat) :
    place (swap i j slots) n k = place slots n (if k = i then j else if k = j then i else k) := by
  rw [place, place, swap]
  by_cases hki : k = i
  · rw [if_pos hki, if_pos (by omega), if_pos hj]
  · rw [if_neg hki]
    by_cases hkj : k = j
    · rw [if_pos hkj, if_pos (by omega), if_pos hi]
    · rw [if_neg hkj]

theorem sibling_spec {k : Nat} (hk : 2 ≤ k) :
    sibling k / 2 = k / 2 ∧ sibling k ≠ k ∧ 2 ≤ sibling k ∧ sibling k ≠ k / 2 ∧ sibling k ≤ k + 1 ∧
      k < 2 * sibling k := by
  rw [sibling]
  split <;> omega

/-- What each node of the tree is behind the exchange. -/
theorem swapped_nodes (hrep : Rep h slots n) {k : Nat} (hk : 2 ≤ k) (hn : k ≤ n) {m : Nat}
    (hm : 1 ≤ m) (hmn : m ≤ n) :
    (swapped slots n k h).nodes (slots m) =
      some (if k / 2 = m then ⟨some (slots k), place slots n (2 * k), place slots n (2 * k + 1)⟩
        else if sibling k = m then setParent (some (slots k)) (nodeAt slots n m)
        else if k = m then
          if k = 2 * (k / 2) then
            ⟨place slots n (k / 2 / 2), some (slots (k / 2)), place slots n (sibling k)⟩
          else ⟨place slots n (k / 2 / 2), place slots n (sibling k), some (slots (k / 2))⟩
        else if 2 * k + 1 = m ∨ 2 * k = m then setParent (some (slots (k / 2))) (nodeAt slots n m)
        else if k / 2 / 2 = m then replaceChild (slots (k / 2)) (slots k) (nodeAt slots n m)
        else nodeAt slots n m) := by
  have hat : ∀ i, place slots n i = some (slots m) ↔ i = m :=
    fun i => place_eq_iff hrep.apart hm hmn
  have hself : ∀ {i}, 1 ≤ i → i ≤ n → (some (slots i) = some (slots m) ↔ i = m) := fun hi hin => by
    rw [← place_some hi hin]
    exact hat _
  obtain ⟨hsup, hsne, hs, hsk, hsle, -⟩ := sibling_spec hk
  have hnode := hrep.nodes m hm hmn
  simp only [swapped, edit_nodes, relinked_nodes, hat, hself (show 1 ≤ k by omega) hn,
    hself (show 1 ≤ k / 2 by omega) (show k / 2 ≤ n by omega)]
  generalize sibling k = s at *
  by_cases hup : k / 2 = m
  · rw [if_pos hup, if_pos hup, if_neg (by omega), if_neg (by omega), if_neg (by omega),
      if_neg (by omega),
      if_neg (by omega), if_neg (by omega), hnode]
    rfl
  rw [if_neg hup, if_neg hup]
  by_cases hsib : s = m
  · rw [if_pos hsib, if_pos hsib, if_neg (by omega), if_neg (by omega), if_neg (by omega),
      if_neg (by omega),
      if_neg (by omega), hnode]
    rfl
  rw [if_neg hsib, if_neg hsib]
  by_cases hself' : k = m
  · rw [if_pos hself', if_pos hself', if_pos hself', if_neg (by omega), if_neg (by omega),
      if_neg (by omega), hnode]
    split <;> rfl
  rw [if_neg hself', if_neg hself', if_neg hself']
  by_cases hright : 2 * k + 1 = m
  · rw [if_pos hright, if_pos (show 2 * k + 1 = m ∨ 2 * k = m from .inl hright), if_neg (by omega),
      if_neg (by omega), hnode]
    rfl
  rw [if_neg hright]
  by_cases hleft : 2 * k = m
  · rw [if_pos hleft, if_pos (show 2 * k + 1 = m ∨ 2 * k = m from .inr hleft),
      if_neg (by omega), hnode]
    rfl
  rw [if_neg hleft, if_neg (show ¬ (2 * k + 1 = m ∨ 2 * k = m) from fun h => h.elim hright hleft)]
  by_cases hupper : k / 2 / 2 = m
  · rw [if_pos hupper, if_pos hupper, hnode]
    rfl
  · rw [if_neg hupper, if_neg hupper, hnode]

/-- A place beside the two that are exchanged has other nodes above and below it. -/
theorem nodeAt_swap {k : Nat} (hk : 2 ≤ k) (hn : k ≤ n) (m : Nat) :
    nodeAt (swap (k / 2) k slots) n m =
      ⟨place slots n (if m / 2 = k / 2 then k else if m / 2 = k then k / 2 else m / 2),
        place slots n (if 2 * m = k / 2 then k else if 2 * m = k then k / 2 else 2 * m),
        place slots n (if 2 * m + 1 = k / 2 then k else if 2 * m + 1 = k then k / 2
          else 2 * m + 1)⟩ := by
  have hp : 1 ≤ k / 2 ∧ k / 2 ≤ n := ⟨by omega, by omega⟩
  have hc : 1 ≤ k ∧ k ≤ n := ⟨by omega, hn⟩
  rw [nodeAt, place_swap hp hc, place_swap hp hc, place_swap hp hc]

/-- `heap_swap` exchanges the two nodes, and nothing else. -/
theorem heapSwap_spec (hrep : Rep h slots n) {k : Nat} (hk : 2 ≤ k) (hn : k ≤ n) :
    ∃ h', heapSwap (slots (k / 2)) (slots k) h = some h' ∧ Rep h' (swap (k / 2) k slots) n ∧
    Frame slots n h h' := by
  have hp : 1 ≤ k / 2 ∧ k / 2 ≤ n := ⟨by omega, by omega⟩
  have hc : 1 ≤ k ∧ k ≤ n := ⟨by omega, hn⟩
  obtain ⟨hsup, hsne, hs, hsk, hsle, hsbelow⟩ := sibling_spec hk
  refine ⟨swapped slots n k h, heapSwap_eq hrep hk hn,
    ⟨hrep.nelts, ?_, ?_, hrep.apart.swap hp hc⟩, ?_⟩
  · rw [place_swap hp hc]
    show (if place slots n (k / 2 / 2) = none then some (slots k) else h.root) = _
    by_cases htop : 1 = k / 2
    · rw [if_pos htop,
        show k / 2 / 2 = 0 by omega, place_zero, if_pos rfl, place_some (by omega) hn]
    · rw [if_neg htop, if_neg (show ¬ 1 = k by omega), place_some (by omega) (by omega),
        if_neg (by simp), hrep.root]
  · intro j hj hjn
    have hback : swap (k / 2) k slots j =
        slots (if j = k / 2 then k else if j = k then k / 2 else j) := rfl
    rw [hback, swapped_nodes hrep hk hn (by split_ifs <;> omega) (by split_ifs <;> omega),
      nodeAt_swap hk hn]
    congr 1
    by_cases hjp : j = k / 2
    · -- the child, now above
      subst hjp
      rw [if_pos rfl, if_neg (show ¬ k / 2 = k by omega), if_neg hsne, if_pos rfl,
        if_neg (show ¬ k / 2 / 2 = k / 2 by omega), if_neg (show ¬ k / 2 / 2 = k by omega),
        if_neg (show ¬ 2 * (k / 2) = k / 2 by omega),
        if_neg (show ¬ 2 * (k / 2) + 1 = k / 2 by omega)]
      by_cases heven : k = 2 * (k / 2)
      · rw [if_pos heven, if_pos heven.symm, if_neg (show ¬ 2 * (k / 2) + 1 = k by omega),
          place_some hp.1 hp.2,
          sibling, if_pos heven]
      · rw [if_neg heven, if_neg (Ne.symm heven), if_pos (show 2 * (k / 2) + 1 = k by omega),
          place_some hp.1 hp.2,
          sibling, if_neg heven]
    rw [if_neg hjp]
    by_cases hjk : j = k
    · -- the parent, now below
      subst hjk
      rw [if_pos rfl, if_pos rfl, if_pos rfl, if_neg (show ¬ 2 * j = j / 2 by omega),
        if_neg (show ¬ 2 * j = j by omega),
        if_neg (show ¬ 2 * j + 1 = j / 2 by omega), if_neg (show ¬ 2 * j + 1 = j by omega),
        place_some hc.1 hc.2]
    rw [if_neg hjk, if_neg (Ne.symm hjp), if_neg (Ne.symm hjk)]
    by_cases hjs : sibling k = j
    · rw [if_pos hjs, if_pos (show j / 2 = k / 2 by omega), if_neg (show ¬ 2 * j = k / 2 by omega),
        if_neg (show ¬ 2 * j = k by omega), if_neg (show ¬ 2 * j + 1 = k / 2 by omega),
        if_neg (show ¬ 2 * j + 1 = k by omega), place_some hc.1 hc.2]
      rfl
    have hjup : ¬ j / 2 = k / 2 := by
      intro hup
      rw [sibling] at hjs
      split at hjs <;> omega
    rw [if_neg hjs, if_neg hjup]
    by_cases hjc : 2 * k + 1 = j ∨ 2 * k = j
    · rw [if_pos hjc, if_pos (show j / 2 = k by omega), if_neg (show ¬ 2 * j = k / 2 by omega),
        if_neg (show ¬ 2 * j = k by omega), if_neg (show ¬ 2 * j + 1 = k / 2 by omega),
        if_neg (show ¬ 2 * j + 1 = k by omega), place_some hp.1 hp.2]
      rfl
    rw [if_neg hjc, if_neg (show ¬ j / 2 = k by omega), if_neg (show ¬ 2 * j = k by omega),
      if_neg (show ¬ 2 * j + 1 = k by omega)]
    by_cases hjg : k / 2 / 2 = j
    · -- what was above the parent is above the child
      have hleft : (nodeAt slots n j).left = some (slots (k / 2)) ↔ 2 * j = k / 2 :=
        place_eq_iff hrep.apart hp.1 hp.2
      have hright : (nodeAt slots n j).right = some (slots (k / 2)) ↔ 2 * j + 1 = k / 2 :=
        place_eq_iff hrep.apart hp.1 hp.2
      rw [if_pos hjg, replaceChild]
      by_cases heven : 2 * j = k / 2
      · rw [if_pos heven, if_pos (hleft.mpr heven), if_neg (show ¬ 2 * j + 1 = k / 2 by omega),
          place_some hc.1 hc.2]
        rfl
      · have hodd : 2 * j + 1 = k / 2 := by omega
        rw [if_neg heven, if_neg (fun h => heven (hleft.mp h)), if_pos hodd,
          if_pos (hright.mpr hodd),
          place_some hc.1 hc.2]
        rfl
    · rw [if_neg hjg, if_neg (show ¬ 2 * j = k / 2 by omega),
        if_neg (show ¬ 2 * j + 1 = k / 2 by omega)]
      rfl
  · intro a ha
    have hno : ∀ i, place slots n i ≠ some a := fun i hi => ha (place_stands hi)
    have hslot : ∀ i, 1 ≤ i → i ≤ n → some (slots i) ≠ some a :=
      fun i hi hin h => ha ⟨i, hi, hin, Option.some.inj h⟩
    rw [swapped, edit_nodes, if_neg (hslot _ hp.1 hp.2), edit_nodes, if_neg (hno _), edit_nodes,
      if_neg (hslot _ hc.1 hc.2), edit_nodes, if_neg (hslot _ hc.1 hc.2), edit_nodes,
      if_neg (hno _), edit_nodes,
      if_neg (hno _), relinked_nodes, if_neg (hno _)]

/-! ## Moving a node to where it belongs -/

section Sift

variable {β : Type} [LinearOrder β] (key : Nat → β)

/-- The same nodes in another order, which is a heap order. -/
structure Settled (slots : Nat → Nat) (n : Nat) (h h' : Heap) (slots' : Nat → Nat) : Prop where
  rep : Rep h' slots' n
  stands : ∀ a, Stands slots' n a ↔ Stands slots n a
  frame : Frame slots n h h'

theorem Settled.refl (hrep : Rep h slots n) : Settled slots n h h slots :=
  ⟨hrep, fun _ => Iff.rfl, fun _ _ => rfl⟩

theorem Settled.trans {h₁ h₂ : Heap} {slots₁ slots₂ : Nat → Nat} (s₁ : Settled slots n h h₁ slots₁)
    (s₂ : Settled slots₁ n h₁ h₂ slots₂) : Settled slots n h h₂ slots₂ where
  rep := s₂.rep
  stands a := (s₂.stands a).trans (s₁.stands a)
  frame a ha := (s₂.frame a fun h => ha ((s₁.stands a).mp h)).trans (s₁.frame a ha)

/-- One exchange. -/
theorem swap_settled (hrep : Rep h slots n) {k : Nat} (hk : 2 ≤ k) (hn : k ≤ n) :
    ∃ h', heapSwap (slots (k / 2)) (slots k) h = some h' ∧
    Settled slots n h h' (swap (k / 2) k slots) := by
  obtain ⟨h', hswap, hrep', hframe⟩ := heapSwap_spec hrep hk hn
  exact ⟨h', hswap, hrep', stands_swap ⟨by omega, by omega⟩ ⟨by omega, hn⟩, hframe⟩

theorem siftUp_spec (fuel : Nat) :
    ∀ {h : Heap} {slots : Nat → Nat} {v : Nat}, Rep h slots n → 1 ≤ v → v ≤ n →
    v < fuel → UpOrder key slots n v →
    ∃ h' slots', siftUp key fuel (slots v) h = some h' ∧ Settled slots n h h' slots' ∧
    Ordered key slots' n := by
  induction fuel with
  | zero =>
    intro h slots v _ _ _ hfuel _
    omega
  | succ fuel ih =>
    intro h slots v hrep hv hn hfuel hup
    rw [siftUp, hrep.nodes v hv hn, Option.bind_some, nodeAt]
    by_cases htop : v = 1
    · subst htop
      rw [show 1 / 2 = 0 from rfl, place_zero]
      exact ⟨h, slots, rfl, Settled.refl hrep, hup.done fun h2 => absurd h2 (by decide)⟩
    · rw [place_some (show 1 ≤ v / 2 by omega) (by omega)]
      by_cases hless : key (slots v) < key (slots (v / 2))
      · obtain ⟨h₁, hswap, hsettled⟩ := swap_settled hrep (show 2 ≤ v by omega) hn
        obtain ⟨h', slots', hsift, hsettled', hordered⟩ :=
          ih hsettled.rep (show 1 ≤ v / 2 by omega) (by omega) (by omega)
          (hup.step (by omega) hn hless)
        rw [swap_left] at hsift
        refine ⟨h', slots', ?_, hsettled.trans hsettled', hordered⟩
        simp only [if_pos hless, hswap, Option.bind_some, hsift]
      · refine ⟨h, slots, ?_, Settled.refl hrep, hup.done fun _ _ => not_lt.mp hless⟩
        simp only [if_neg hless]

theorem least_some (est child : Nat) :
    (least key est (some child) = est ∧ key est ≤ key child) ∨
      (least key est (some child) = child ∧ key child ≤ key est) := by
  rw [least]
  split
  · next hless => exact .inl ⟨rfl, hless.le⟩
  · next hless => exact .inr ⟨rfl, not_lt.mp hless⟩

/-- The choice among a node and the two below it. -/
theorem least_spec (happ : Apart slots n) {v : Nat} (hv : 1 ≤ v) (hn : v ≤ n) :
    (least key (least key (slots v) (place slots n (2 * v))) (place slots n (2 * v + 1)) = slots v ∧
      ∀ c, c / 2 = v → 2 ≤ c → c ≤ n → key (slots v) ≤ key (slots c)) ∨
    ∃ c, least key (least key (slots v) (place slots n (2 * v)))
      (place slots n (2 * v + 1)) = slots c ∧
      c / 2 = v ∧ c ≤ n ∧ slots c ≠ slots v ∧ key (slots c) ≤ key (slots v) ∧
      ∀ d, d / 2 = v → 2 ≤ d → d ≤ n → key (slots c) ≤ key (slots d) := by
  have hchild : ∀ c, c / 2 = v → c = 2 * v ∨ c = 2 * v + 1 := fun c hc => by omega
  have hapart : ∀ c, c / 2 = v → c ≤ n → slots c ≠ slots v := fun c hc hcn heq => by
    have hsame := happ c v (by omega) hcn hv hn heq
    omega
  rcases Nat.lt_or_ge n (2 * v) with hnone | hleft
  · left
    rw [place_beyond hnone, place_beyond (show n < 2 * v + 1 by omega)]
    exact ⟨rfl, fun c hc _ hcn => by omega⟩
  rw [place_some (show 1 ≤ 2 * v by omega) hleft]
  rcases Nat.lt_or_ge n (2 * v + 1) with hone | hright
  · have honly : ∀ c, c / 2 = v → c ≤ n → c = 2 * v := fun c hc hcn => by omega
    rw [place_beyond hone]
    rcases least_some key (slots v) (slots (2 * v)) with ⟨hchoice, hle⟩ | ⟨hchoice, hle⟩
    · left
      refine ⟨hchoice, fun c hc _ hcn => ?_⟩
      rw [honly c hc hcn]
      exact hle
    · right
      refine ⟨2 * v, hchoice, by omega, hleft, hapart _ (by omega) hleft, hle, fun d hd _ hdn => ?_⟩
      rw [honly d hd hdn]
  rw [place_some (show 1 ≤ 2 * v + 1 by omega) hright]
  rcases least_some key (slots v) (slots (2 * v)) with ⟨hfirst, hl⟩ | ⟨hfirst, hl⟩
  · rw [hfirst]
    rcases least_some key (slots v) (slots (2 * v + 1)) with ⟨hchoice, hr⟩ | ⟨hchoice, hr⟩
    · left
      refine ⟨hchoice, fun c hc _ _ => ?_⟩
      rcases hchild c hc with rfl | rfl
      · exact hl
      · exact hr
    · right
      refine ⟨2 * v + 1,
        hchoice, by omega, hright, hapart _ (by omega) hright, hr, fun d hd _ _ => ?_⟩
      rcases hchild d hd with rfl | rfl
      · exact hr.trans hl
      · exact le_refl _
  · right
    rw [hfirst]
    rcases least_some key (slots (2 * v)) (slots (2 * v + 1)) with ⟨hchoice, hr⟩ | ⟨hchoice, hr⟩
    · refine ⟨2 * v, hchoice, by omega, hleft, hapart _ (by omega) hleft, hl, fun d hd _ _ => ?_⟩
      rcases hchild d hd with rfl | rfl
      · exact le_refl _
      · exact hr
    · refine ⟨2 * v + 1,
        hchoice, by omega, hright, hapart _ (by omega) hright, hr.trans hl, fun d hd _ _ => ?_⟩
      rcases hchild d hd with rfl | rfl
      · exact hr
      · exact le_refl _

theorem siftDown_spec (fuel : Nat) :
    ∀ {h : Heap} {slots : Nat → Nat} {v : Nat}, Rep h slots n → 1 ≤ v → v ≤ n →
    n < fuel + v → Around key slots n v →
    ∃ h' slots' v', siftDown key fuel (slots v) h = some h' ∧
    Settled slots n h h' slots' ∧ 1 ≤ v' ∧ v' ≤ n ∧
      slots' v' = slots v ∧ UpOrder key slots' n v' := by
  induction fuel with
  | zero =>
    intro h slots v _ _ hn hfuel _
    omega
  | succ fuel ih =>
    intro h slots v hrep hv hn hfuel haround
    rw [siftDown, hrep.nodes v hv hn, Option.bind_some, nodeAt]
    rcases least_spec key hrep.apart hv hn with ⟨hstay, hleast⟩ | ⟨c, hgo,
      hc, hcn, hne, hle, hleast⟩
    · refine ⟨h, slots, v, ?_, Settled.refl hrep, hv, hn, rfl, haround.done hleast⟩
      simp only [hstay, if_true]
    · obtain ⟨h₁, hswap, hsettled⟩ := swap_settled hrep (show 2 ≤ c by omega) hcn
      rw [hc] at hswap hsettled
      obtain ⟨h', slots', v', hsift, hsettled', hv', hn', hsame, hup⟩ :=
        ih hsettled.rep (show 1 ≤ c by omega) hcn
        (by omega) (haround.step hv hc hcn hle hleast)
      rw [swap_right] at hsift hsame
      refine ⟨h', slots', v', ?_, hsettled.trans hsettled', hv', hn', hsame, hup⟩
      simp only [hgo, if_neg hne, hswap, Option.bind_some, hsift]

end Sift

end Tree

end NetmtHeap
