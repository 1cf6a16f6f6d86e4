import Netmt.OrderedPush

/-!
# Merging managers

`CTDChainMgr::Push(CTDChainMgr *)` for pointers in order and without equal items:
every node of the one manager is pushed on what was the tail of the other. The same
item twice is the same object.
-/
namespace NetmtChainMerge

open Links NetmtTDChain NetmtOrderedPush
open NetmtChainMgr (Pointees Dangles firsts firsts_concat firsts_any)

variable {α : Type}

/-- `CTDChainMgr<T, 1, CtEM_REJECT, 1>` -/
def setOf (o : Pointees α) (above : α → α → Bool) : Params α := ordered o .CtEM_REJECT true above

variable {o : Pointees α} {above : α → α → Bool}

/-! ## A node on an ordered chain -/

section Node

variable {s : Store α} {front back : List (Nat × α)} {c : Nat × α} {q : Nat} {item : α}

/-- A single node is refused where an equal one is linked. -/
theorem pushNode_old (L : Linked s.heap (front ++ c :: back))
    (hs : o.Sorted ((front ++ c :: back).map Prod.snd))
    (hnode : read s.heap q = some ⟨none, none, item⟩)
    (hold : ∃ d ∈ front ++ c :: back, o.eq d.2 item = true) :
    pushNode (setOf o above) s c.1 q = some (.CtRC_REJECT, s) := by
  rcases search_ascending .CtEM_REJECT true above item L (ascending_of_sorted hs)
    (c := c) (by simp) with
    ⟨-, hnone⟩ | ⟨d, -, hsearch, -⟩
  · obtain ⟨d, hd, heq⟩ := hold
    rw [hnone d hd] at heq
    cases heq
  · have hequal : equalNode (setOf o above) item s.heap c.1 = some (some d.1) := hsearch
    simp only [pushNode, hnode, hequal]
    rfl

/-- Otherwise it is linked where the order wants it, if nothing beyond `c` is greater. -/
theorem pushNode_fresh (above : α → α → Bool) (L : Linked s.heap (front ++ c :: back))
    (hs : o.Sorted ((front ++ c :: back).map Prod.snd))
    (hnode : read s.heap q = some ⟨none, none, item⟩) (hsingle : ∀ d ∈ front ++ c :: back, d.1 ≠ q)
    (hnew : ∀ d ∈ front ++ c :: back, o.eq d.2 item = false)
    (hright : RightFrom o item c (front ++ c :: back)) :
    ∃ h' pre post, pushNode (setOf o above) s c.1 q = some (.CtRC_SUCCESS, { s with heap := h' }) ∧
      front ++ c :: back = pre ++ post ∧ Linked h' (pre ++ (q, item) :: post) ∧
      o.Sorted ((pre ++ (q, item) :: post).map Prod.snd) ∧
      ∀ p, (∀ d ∈ front ++ c :: back, d.1 ≠ p) → q ≠ p → read h' p = read s.heap p := by
  obtain ⟨h', pre, post, hpush, hplace, L', -, hsame⟩ :=
    pushNode_new (t := setOf o above) L hnode hsingle
    (equalNode_none L (.inr hnew))
  obtain ⟨hpre, hpost⟩ := place_right (ascending_of_sorted hs) hright hplace
  have hcut := hplace.cut
  refine ⟨h', pre, post, hpush, hcut.symm, L', ?_, hsame⟩
  apply sorted_at_place
  · rw [hcut]
    exact hs
  · exact hpre
  · exact hpost
  · rw [hcut]
    exact hnew

end Node

/-! ## Building the managers -/

section Push

variable {s : Store α} {m : CTDChainMgr} {cells : List (Nat × α)}

/-- The items that a push leaves. -/
def pushed (o : Pointees α) (items : List α) (item : α) : List α :=
  if items.any fun b => o.eq b item then items else items ++ [item]

/-- The item that it deletes. -/
def refused (o : Pointees α) (items : List α) (item : α) : List α :=
  if items.any fun b => o.eq b item then [item] else []

theorem pushed_refused (o : Pointees α) (items : List α) (item : α) :
    (pushed o items item ++ refused o items item).Perm (items ++ [item]) := by
  rw [pushed, refused]
  split
  · exact .refl _
  · rw [List.append_nil]

theorem any_cells (o : Pointees α) (cells : List (Nat × α)) (item : α) :
    ((cells.map Prod.snd).any fun b => o.eq b item) = cells.any fun c => o.eq c.2 item := by
  rw [List.any_map]
  rfl

theorem push_set (above : α → α → Bool) (item : α) (H : Holds s m cells)
    (hs : o.Sorted (cells.map Prod.snd)) :
    ∃ code s' m' cells', m.push (setOf o above) item s = some (code, s', m') ∧ Holds s' m' cells' ∧
      o.Sorted (cells'.map Prod.snd) ∧ Untouched cells s.heap s'.heap ∧
      (∀ c ∈ cells', c ∈ cells ∨ c.1 = s.heap.length) ∧
      (cells'.map Prod.snd).Perm (pushed o (cells.map Prod.snd) item) ∧
      s'.deleted = s.deleted ++ refused o (cells.map Prod.snd) item := by
  rcases List.eq_nil_or_concat cells with rfl | ⟨init, c, rfl⟩
  · obtain ⟨m', hpush, H', -⟩ := push_empty (setOf o above) item H
    refine ⟨_, _, m', _, hpush, H', List.pairwise_singleton _ _, ?_, ?_, .refl _,
      (List.append_nil _).symm⟩
    · exact ⟨by rw [length_alloc]; exact Nat.le_succ _, fun p hp _ => read_alloc_other hp _⟩
    · exact fun d hd => .inr (congrArg Prod.fst (List.mem_singleton.mp hd))
  · rw [List.concat_eq_append] at *
    obtain ⟨L₁, -⟩ := H.linked.alloc ⟨none, none, item⟩
    rcases search_ascending .CtEM_REJECT true above item L₁
      (ascending_of_sorted hs) (c := c) (by simp)
      with ⟨hnone, hnew⟩ | ⟨d, hd, hfound, heq⟩
    · obtain ⟨h', pre, post, m', hpush, hplace, H', -, U⟩ := push_new (t := setOf o above) H hnone
      -- behind the tail there is nothing that the walk could pass over
      have hright : RightFrom o item c (init ++ c :: []) := by
        cases hg : o.gt item c.2 with
        | false => exact .inl hg
        | true =>
          refine .inr (.inr fun d hd => ?_)
          rcases List.mem_append.mp hd with hd | hd
          · exact not_gt_trans ((ascending_of_sorted hs).before d hd) (o.gt_asymm _ _ hg)
          · rw [List.mem_singleton.mp hd]
            exact o.gt_asymm _ _ hg
      obtain ⟨hpre, hpost⟩ := place_right (ascending_of_sorted hs) hright hplace
      have hcut := hplace.cut
      have hnot : ¬ ((init ++ [c]).map Prod.snd).any (fun b => o.eq b item) = true := by
        rw [any_cells, Bool.not_eq_true, List.any_eq_false]
        exact fun d hd => by rw [hnew d hd]; exact Bool.false_ne_true
      refine ⟨_, _, m', _, hpush, H', ?_, U, fun d hd => ?_, ?_, ?_⟩
      · apply sorted_at_place
        · rw [hcut]
          exact hs
        · exact hpre
        · exact hpost
        · rw [hcut]
          exact hnew
      · rcases List.mem_append.mp hd with hd | hd
        · exact .inl (hcut ▸ List.mem_append_left _ hd)
        · rcases List.mem_cons.mp hd with rfl | hd
          · exact .inr rfl
          · exact .inl (hcut ▸ List.mem_append_right _ hd)
      · rw [pushed, if_neg hnot]
        have hperm : (pre ++ (s.heap.length, item) :: post).Perm
            ((init ++ [c]) ++ [(s.heap.length, item)]) := by
          have hcut' : pre ++ post = init ++ [c] := hcut
          rw [← hcut']
          exact List.perm_middle.trans (List.perm_append_singleton _ _).symm
        simpa using hperm.map Prod.snd
      · rw [refused, if_neg hnot, List.append_nil]
    · have hpush := push_refused H (pushItem_rejected (t := setOf o above) rfl hfound) (by decide)
      have hany : ((init ++ [c]).map Prod.snd).any (fun b => o.eq b item) = true := by
        rw [any_cells, List.any_eq_true]
        exact ⟨d, hd, heq⟩
      have U := free_alloc_untouched ⟨none, none, item⟩ s.heap []
      have U' := free_alloc_untouched ⟨none, none, item⟩ s.heap (init ++ [c])
      refine ⟨_, _, m, _, hpush, ?_, hs, U', fun d hd => .inl hd, ?_, ?_⟩
      · exact H.frame U (by simp)
      · rw [pushed, if_pos hany]
      · rw [refused, if_pos hany]
        rfl

/-- Two managers whose nodes lie in one heap. -/
structure Managers (α : Type) where
  store : Store α
  a : CTDChainMgr
  b : CTDChainMgr
  deriving DecidableEq, Repr

def Managers.initial (α : Type) : Managers α := ⟨⟨[], []⟩, .null, .null⟩

section Runs

variable [DecidableEq α]

/-- A push with the objects that it compares: no more is said of a run in which the item
or one that is held was deleted, whether or not the walk comes to it. -/
def pushObject (o : Pointees α) (above : α → α → Bool) (item : α) (s : Store α) (m : CTDChainMgr) :
    Option (CtRetCode × Store α × CTDChainMgr) :=
  if item ∈ s.deleted ∨ Dangles s.deleted s.heap m.nodeHead then none
    else m.push (setOf o above) item s

/-- A push to `a`, or to `b`. -/
def pushOn (o : Pointees α) (above : α → α → Bool) (x : Managers α) (op : Bool × α) :
    Option (Managers α) :=
  if op.1 then (pushObject o above op.2 x.store x.a).map fun r => ⟨r.2.1, r.2.2, x.b⟩
  else (pushObject o above op.2 x.store x.b).map fun r => ⟨r.2.1, x.a, r.2.2⟩

def pushesOn (o : Pointees α) (above : α → α → Bool) (ops : List (Bool × α)) :
    Option (Managers α) :=
  ops.foldlM (pushOn o above) (.initial α)

end Runs

/-- The items pushed to the one manager. -/
def itemsTo (toA : Bool) (ops : List (Bool × α)) : List α :=
  (ops.filter fun op => op.1 == toA).map Prod.snd

/-- Both managers hold ordered sets, of different nodes. -/
structure TwoSets (o : Pointees α) (x : Managers α) (xs ys : List (Nat × α)) : Prop where
  a : Holds x.store x.a xs
  b : Holds x.store x.b ys
  sortedA : o.Sorted (xs.map Prod.snd)
  sortedB : o.Sorted (ys.map Prod.snd)
  apart : ∀ c ∈ xs, ∀ d ∈ ys, c.1 ≠ d.1

/-- Pushes that keep what is pushed first keep the first of each value. -/
theorem pushed_firsts {items : List α} {held : List α}
    (hperm : held.Perm (firsts o [] items)) (item : α) :
    (pushed o held item).Perm (firsts o [] (items ++ [item])) := by
  have hany : (held.any fun b => o.eq b item) = items.any fun b => o.eq b item := by
    rw [← firsts_any items item, Bool.eq_iff_iff]
    simp only [List.any_eq_true, hperm.mem_iff]
  rw [firsts_concat, List.nil_append, pushed, hany]
  split
  · simpa using hperm
  · exact hperm.append_right [item]

theorem itemsTo_concat (toA : Bool) (ops : List (Bool × α)) (op : Bool × α) :
    itemsTo toA (ops ++ [op]) = if op.1 = toA then itemsTo toA ops ++ [op.2]
      else itemsTo toA ops := by
  unfold itemsTo
  rw [List.filter_append]
  by_cases h : op.1 = toA
  · rw [if_pos h, List.filter_cons_of_pos (by simpa using h)]
    simp
  · rw [if_neg h, List.filter_cons_of_neg (by simpa using h)]
    simp

theorem TwoSets.addr {x : Managers α} {xs ys : List (Nat × α)} (T : TwoSets o x xs ys) :
    (∀ c ∈ xs, c.1 ≠ x.store.heap.length) ∧ ∀ c ∈ ys, c.1 ≠ x.store.heap.length :=
  ⟨fun c hc => (T.a.linked.addr_lt c hc).ne, fun c hc => (T.b.linked.addr_lt c hc).ne⟩

/-- What any pushes leave: every object is held by one of the managers or was deleted,
and none was deleted twice. -/
structure Built (o : Pointees α) (ops : List (Bool × α)) (x : Managers α) (xs ys : List (Nat × α)) :
    Prop where
  sets : TwoSets o x xs ys
  firstsA : (xs.map Prod.snd).Perm (firsts o [] (itemsTo true ops))
  firstsB : (ys.map Prod.snd).Perm (firsts o [] (itemsTo false ops))
  owned : ((xs ++ ys).map Prod.snd ++ x.store.deleted).Perm (ops.map Prod.snd)
  once : x.store.deleted.Nodup

theorem built_initial (o : Pointees α) : Built o [] (.initial α) [] [] :=
  ⟨⟨holds_null _, holds_null _, .nil, .nil, by simp⟩, .refl _, .refl _, .refl _, .nil⟩

theorem Built.live {ops : List (Bool × α)} {x : Managers α} {xs ys : List (Nat × α)}
    (B : Built o ops x xs ys) (hdistinct : (ops.map Prod.snd).Nodup) :
    ∀ c ∈ xs ++ ys, c.2 ∉ x.store.deleted := by
  intro c hc hdeleted
  have hnodup := B.owned.nodup_iff.mpr hdistinct
  rw [List.nodup_append] at hnodup
  exact hnodup.2.2 c.2 (List.mem_map_of_mem hc) c.2 hdeleted rfl

theorem dangles_iff {cells : List (Nat × α)} (H : Holds s m cells) :
    Dangles s.deleted s.heap m.nodeHead ↔ ∃ c ∈ cells, c.2 ∈ s.deleted := by
  rw [Dangles, H.head, follow_segment H.linked.segment H.linked.room, Option.getD_some]

/-- What one push does with the objects. -/
theorem owned_push {held rest deleted items held' deleted' : List α} {item : α}
    (howned : (held ++ rest ++ deleted).Perm items) (hheld : held'.Perm (pushed o held item))
    (hdeleted : deleted' = deleted ++ refused o held item) :
    (held' ++ rest ++ deleted').Perm (items ++ [item]) := by
  have hsplit : (held' ++ rest ++ deleted').Perm
      ((held' ++ refused o held item) ++ (rest ++ deleted)) := by
    rw [hdeleted, List.append_assoc, List.append_assoc]
    refine List.Perm.append_left _ ?_
    rw [← List.append_assoc]
    exact List.perm_append_comm
  have hitem : (held' ++ refused o held item).Perm (held ++ [item]) :=
    (hheld.append_right _).trans (pushed_refused o held item)
  refine hsplit.trans ((hitem.append_right _).trans ?_)
  refine List.Perm.trans ?_ (howned.append_right [item])
  rw [List.append_assoc, List.append_assoc, List.append_assoc]
  refine List.Perm.append_left _ ?_
  exact List.perm_append_comm.trans (.of_eq (by simp))

theorem once_push {deleted held : List α} {item : α} (honce : deleted.Nodup)
    (hnew : item ∉ deleted) :
    (deleted ++ refused o held item).Nodup := by
  rw [refused]
  split
  · exact (List.perm_append_singleton item deleted).nodup_iff.mpr
      (List.nodup_cons.mpr ⟨hnew, honce⟩)
  · rwa [List.append_nil]

section Runs

variable [DecidableEq α] {ops : List (Bool × α)} {x x' : Managers α} {xs ys : List (Nat × α)}

theorem pushesOn_concat {op : Bool × α} : pushesOn o above (ops ++ [op]) = some x' ↔
    ∃ x, pushesOn o above ops = some x ∧ pushOn o above x op = some x' := by
  rw [pushesOn, List.foldlM_append]
  change (pushesOn o above ops).bind _ = _ ↔ _
  rw [Option.bind_eq_some_iff]
  simp

/-- What a push that is gone on with compared, and what it did. -/
theorem pushObject_set {s s' : Store α} {m m' : CTDChainMgr} {cells : List (Nat × α)} {item : α}
    {code : CtRetCode} (H : Holds s m cells) (hs : o.Sorted (cells.map Prod.snd))
    (hpush : pushObject o above item s m = some (code, s', m')) :
    item ∉ s.deleted ∧ ∃ cells', Holds s' m' cells' ∧
      o.Sorted (cells'.map Prod.snd) ∧ Untouched cells s.heap s'.heap ∧
      (∀ c ∈ cells', c ∈ cells ∨ c.1 = s.heap.length) ∧
      (cells'.map Prod.snd).Perm (pushed o (cells.map Prod.snd) item) ∧
      s'.deleted = s.deleted ++ refused o (cells.map Prod.snd) item := by
  rw [pushObject] at hpush
  split at hpush
  · cases hpush
  · next hlive =>
    obtain ⟨code', s₁, m₁, cells', hpush', hset⟩ := push_set above item H hs
    rw [hpush'] at hpush
    cases hpush
    exact ⟨fun hdeleted => hlive (.inl hdeleted), cells', hset⟩

theorem pushObject_isSome (above : α → α → Bool) {s : Store α} {m : CTDChainMgr}
    {cells : List (Nat × α)} {item : α} (H : Holds s m cells) (hs : o.Sorted (cells.map Prod.snd))
    (hitem : item ∉ s.deleted) (hlive : ∀ c ∈ cells, c.2 ∉ s.deleted) :
    ∃ r, pushObject o above item s m = some r := by
  obtain ⟨code, s', m', cells', hpush, -⟩ := push_set above item H hs
  have hnot : ¬ (item ∈ s.deleted ∨ Dangles s.deleted s.heap m.nodeHead) := by
    rw [dangles_iff H]
    rintro (h | ⟨c, hc, h⟩)
    · exact hitem h
    · exact hlive c hc h
  exact ⟨(code, s', m'), by rw [pushObject, if_neg hnot, hpush]⟩

/-- One push that is gone on with. -/
theorem Built.push (B : Built o ops x xs ys) {op : Bool × α}
    (hpush : pushOn o above x op = some x') :
    ∃ xs' ys', Built o (ops ++ [op]) x' xs' ys' := by
  obtain ⟨toA, item⟩ := op
  obtain ⟨T, hxs, hys, howned, honce⟩ := B
  rw [List.map_append] at howned
  cases toA with
  | true =>
    rw [pushOn, if_pos rfl, Option.map_eq_some_iff] at hpush
    obtain ⟨⟨code, s', m'⟩, hpush, rfl⟩ := hpush
    obtain ⟨hitem, xs', H', hs', U, hmem, hperm, hdeleted⟩ := pushObject_set T.a T.sortedA hpush
    refine ⟨xs', ys, ⟨H', T.b.frame U T.apart, hs', T.sortedB, ?_⟩, ?_, ?_, ?_, ?_⟩
    · intro c hc d hd
      rcases hmem c hc with hc | hc
      · exact T.apart c hc d hd
      · exact hc ▸ (T.addr.2 d hd).symm
    · rw [itemsTo_concat, if_pos rfl]
      exact hperm.trans (pushed_firsts hxs item)
    · rw [itemsTo_concat, if_neg (by simp)]
      exact hys
    · rw [List.map_append, List.map_append]
      exact owned_push howned hperm hdeleted
    · change s'.deleted.Nodup
      rw [hdeleted]
      exact once_push honce hitem
  | false =>
    have hcross : ∀ c ∈ ys, ∀ d ∈ xs, c.1 ≠ d.1 := fun c hc d hd => (T.apart d hd c hc).symm
    rw [pushOn, if_neg Bool.false_ne_true, Option.map_eq_some_iff] at hpush
    obtain ⟨⟨code, s', m'⟩, hpush, rfl⟩ := hpush
    obtain ⟨hitem, ys', H', hs', U, hmem, hperm, hdeleted⟩ := pushObject_set T.b T.sortedB hpush
    refine ⟨xs, ys', ⟨T.a.frame U hcross, H', T.sortedA, hs', ?_⟩, ?_, ?_, ?_, ?_⟩
    · intro c hc d hd
      rcases hmem d hd with hd | hd
      · exact T.apart c hc d hd
      · exact hd ▸ T.addr.1 c hc
    · rw [itemsTo_concat, if_neg (by simp)]
      exact hxs
    · rw [itemsTo_concat, if_pos rfl]
      exact hperm.trans (pushed_firsts hys item)
    · have howned' : (ys.map Prod.snd ++ xs.map Prod.snd ++ x.store.deleted).Perm
          (ops.map Prod.snd) :=
        (List.perm_append_comm.append_right _).trans howned
      rw [List.map_append, List.map_append]
      exact (List.perm_append_comm.append_right _).trans (owned_push howned' hperm hdeleted)
    · change s'.deleted.Nodup
      rw [hdeleted]
      exact once_push honce hitem

/-- What every run of pushes that goes on leaves. -/
theorem pushesOn_built (hrun : pushesOn o above ops = some x) : ∃ xs ys, Built o ops x xs ys := by
  induction ops using List.reverseRecOn generalizing x with
  | nil =>
    cases hrun
    exact ⟨[], [], built_initial o⟩
  | append_singleton ops op ih =>
    obtain ⟨x₁, hrun₁, hpush⟩ := pushesOn_concat.mp hrun
    obtain ⟨xs, ys, B⟩ := ih hrun₁
    exact B.push hpush

/-- Another object can be pushed. -/
theorem Built.next (above : α → α → Bool) (B : Built o ops x xs ys)
    (hlive : ∀ c ∈ xs ++ ys, c.2 ∉ x.store.deleted) {op : Bool × α}
    (hnew : op.2 ∉ ops.map Prod.snd) : ∃ x', pushOn o above x op = some x' := by
  have hitem : op.2 ∉ x.store.deleted :=
    fun h => hnew (B.owned.mem_iff.mp (List.mem_append_right _ h))
  rw [pushOn]
  split
  · obtain ⟨r, hpush⟩ := pushObject_isSome above B.sets.a B.sets.sortedA hitem
      fun c hc => hlive c (List.mem_append_left _ hc)
    exact ⟨_, by rw [hpush]; rfl⟩
  · obtain ⟨r, hpush⟩ := pushObject_isSome above B.sets.b B.sets.sortedB hitem
      fun c hc => hlive c (List.mem_append_right _ hc)
    exact ⟨_, by rw [hpush]; rfl⟩

theorem pushesOn_isSome (above : α → α → Bool) (hdistinct : (ops.map Prod.snd).Nodup) :
    ∃ x, pushesOn o above ops = some x := by
  induction ops using List.reverseRecOn with
  | nil => exact ⟨_, rfl⟩
  | append_singleton ops op ih =>
    rw [List.map_append] at hdistinct
    have hcons := (List.perm_append_singleton op.2 (ops.map Prod.snd)).nodup_iff.mp hdistinct
    rw [List.nodup_cons] at hcons
    obtain ⟨x, hrun⟩ := ih hcons.2
    obtain ⟨xs, ys, B⟩ := pushesOn_built hrun
    obtain ⟨x', hpush⟩ := B.next above (B.live hcons.2) hcons.1
    exact ⟨x', pushesOn_concat.mpr ⟨x, hrun, hpush⟩⟩

end Runs

end Push

/-! ## The merge -/

section Merge

variable {s : Store α} {m : CTDChainMgr} {c : Nat × α}

/-- The nodes of `ys` whose items are not among those of `zs`, and the others. -/
def news (o : Pointees α) (zs ys : List (Nat × α)) : List (Nat × α) :=
  ys.filter fun d => !zs.any fun c => o.eq c.2 d.2

def olds (o : Pointees α) (zs ys : List (Nat × α)) : List (Nat × α) :=
  ys.filter fun d => zs.any fun c => o.eq c.2 d.2

/-- Between two steps of the loop: nothing beyond `c` in the receiver is as great as
what the donor still has. -/
structure Between (o : Pointees α) (c : Nat × α) (s : Store α) (zs ys : List (Nat × α)) : Prop where
  receiver : Linked s.heap zs
  donor : Linked s.heap ys
  apart : ∀ e ∈ zs, ∀ d ∈ ys, e.1 ≠ d.1
  sortedR : o.Sorted (zs.map Prod.snd)
  sortedD : o.Sorted (ys.map Prod.snd)
  tail : c ∈ zs
  beyond : ∀ e ∈ zs, o.gt e.2 c.2 = true → ∀ d ∈ ys, o.gt d.2 e.2 = true

theorem Between.right {zs ys : List (Nat × α)} {d : Nat × α} (B : Between o c s zs (d :: ys)) :
    RightFrom o d.2 c zs := by
  cases hg : o.gt d.2 c.2 with
  | false => exact .inl hg
  | true =>
    refine .inr (.inr fun e he => ?_)
    cases hge : o.gt e.2 c.2 with
    | true => exact o.gt_asymm _ _ (B.beyond e he hge d List.mem_cons_self)
    | false => exact not_gt_trans hge (o.gt_asymm _ _ hg)

/-- Later items of the donor are greater. -/
theorem Between.later {zs ys : List (Nat × α)} {d : Nat × α} (B : Between o c s zs (d :: ys)) :
    ∀ e ∈ ys, o.gt e.2 d.2 = true := by
  have hs := B.sortedD
  rw [List.map_cons, Pointees.Sorted, List.pairwise_cons] at hs
  exact fun e he => hs.1 e.2 (List.mem_map_of_mem he)

theorem Between.rest {zs ys : List (Nat × α)} {d : Nat × α} (B : Between o c s zs (d :: ys)) :
    o.Sorted (ys.map Prod.snd) := by
  have hs := B.sortedD
  rw [List.map_cons, Pointees.Sorted, List.pairwise_cons] at hs
  exact hs.2

/-- The donor's first node is taken out. -/
theorem Between.pop {zs ys : List (Nat × α)} {d : Nat × α} (B : Between o c s zs (d :: ys)) :
    read s.heap d.1 = some ⟨none, first ys none, d.2⟩ ∧ ∃ h, popNode s.heap d.1 = some h ∧
      Linked h zs ∧ Linked h ys ∧ read h d.1 = some ⟨none, none, d.2⟩ := by
  have L : Linked s.heap ([] ++ d :: ys) := B.donor
  obtain ⟨h, hpop, L', hread, -, hsame⟩ := popNode_spec L
  refine ⟨L.read_cell, h, hpop, B.receiver.frame fun e he => ?_, L', hread⟩
  exact hsame e.1 fun f hf => (B.apart e he f hf).symm

theorem Between.single {zs ys : List (Nat × α)} {d : Nat × α} (B : Between o c s zs (d :: ys)) :
    (∀ e ∈ zs, e.1 ≠ d.1) ∧ ∀ e ∈ ys, d.1 ≠ e.1 := by
  refine ⟨fun e he => B.apart e he d List.mem_cons_self, fun e he => ?_⟩
  have hcut : Apart ([d] ++ ys) := B.donor.apart
  exact hcut.cut.2.2 d (by simp) e he

/-- A node whose item is there already is deleted, and the item with it. -/
theorem mergeLoop_old (above : α → α → Bool) {zs ys : List (Nat × α)} {d : Nat × α}
    (B : Between o c s zs (d :: ys)) (hold : ∃ e ∈ zs, o.eq e.2 d.2 = true) :
    ∃ s', Between o c s' zs ys ∧
      s'.deleted = s.deleted ++ [d.2] ∧ ∀ fuel num,
      mergeLoop (setOf o above) c.1 (fuel + 1) (some d.1) num s =
        mergeLoop (setOf o above) c.1 fuel (first ys none) num s' := by
  obtain ⟨hread, h, hpop, Lz, Ly, hnode⟩ := B.pop
  obtain ⟨hsingle, hrest⟩ := B.single
  obtain ⟨front, back, hcut⟩ := List.mem_iff_append.mp B.tail
  have hpush : pushNode (setOf o above) { s with heap := h } c.1 d.1 =
      some (.CtRC_REJECT, { s with heap := h }) := by
    rw [hcut] at Lz hold
    exact pushNode_old (s := { s with heap := h }) Lz (hcut ▸ B.sortedR) hnode hold
  have hdelete := deleteChain_single (t := setOf o above) (s := { s with heap := h })
    (p := d.1) (Nat.pos_of_ne_zero fun hz => by
      have hlt := read_lt hnode
      omega : 0 < h.length) hnode
  refine ⟨⟨free d.1 h, s.deleted ++ [d.2]⟩, ⟨?_, ?_, ?_, B.sortedR, B.rest, B.tail, ?_⟩, rfl,
    fun fuel num => ?_⟩
  · exact Lz.frame fun e he => read_free_other (hsingle e he).symm _
  · exact Ly.frame fun e he => read_free_other (hrest e he) _
  · exact fun e he f hf => B.apart e he f (List.mem_cons_of_mem d hf)
  · exact fun e he hg f hf => B.beyond e he hg f (List.mem_cons_of_mem d hf)
  · rw [mergeLoop, hread]
    simp only [hpop, Option.bind_some, hpush, dropNode]
    rw [hdelete]
    rfl

/-- A node with a new item is linked. -/
theorem mergeLoop_new (above : α → α → Bool) {zs ys : List (Nat × α)} {d : Nat × α}
    (B : Between o c s zs (d :: ys)) (hnew : ∀ e ∈ zs, o.eq e.2 d.2 = false) :
    ∃ h' zs', Between o c { s with heap := h' } zs' ys ∧
      zs'.Perm (d :: zs) ∧ ∀ fuel num,
      mergeLoop (setOf o above) c.1 (fuel + 1) (some d.1) num s =
        mergeLoop (setOf o above) c.1 fuel (first ys none) (num + 1) { s with heap := h' } := by
  obtain ⟨hread, h, hpop, Lz, Ly, hnode⟩ := B.pop
  obtain ⟨hsingle, hrest⟩ := B.single
  obtain ⟨front, back, hcut⟩ := List.mem_iff_append.mp B.tail
  have hright := B.right
  have hsorted := B.sortedR
  rw [hcut] at Lz hnew hright hsorted
  obtain ⟨h', pre, post, hpush, hsplit, L', hs', hsame⟩ := pushNode_fresh above
    (s := { s with heap := h }) Lz hsorted hnode (hcut ▸ hsingle) hnew hright
  have hperm : (pre ++ d :: post).Perm (d :: zs) := by
    rw [hcut, hsplit]
    exact List.perm_middle
  refine ⟨h', pre ++ d :: post, ⟨L', ?_, ?_, hs', B.rest, ?_, ?_⟩, hperm, fun fuel num => ?_⟩
  · refine Ly.frame fun e he => hsame e.1 (fun f hf => ?_) (hrest e he)
    exact B.apart f (hcut ▸ hf) e (List.mem_cons_of_mem d he)
  · intro e he f hf
    rcases List.mem_cons.mp (hperm.mem_iff.mp he) with rfl | he
    · exact hrest f hf
    · exact B.apart e he f (List.mem_cons_of_mem d hf)
  · exact hperm.mem_iff.mpr (List.mem_cons_of_mem d B.tail)
  · intro e he hg f hf
    rcases List.mem_cons.mp (hperm.mem_iff.mp he) with rfl | he
    · exact B.later f hf
    · exact B.beyond e he hg f (List.mem_cons_of_mem d hf)
  · rw [mergeLoop, hread]
    simp only [hpop, Option.bind_some, hpush, dropNode, if_true]

/-- A donor's later item is as new as it was after an earlier one is linked. -/
theorem any_after {zs zs' ys : List (Nat × α)} {d e : Nat × α} (B : Between o c s zs (d :: ys))
    (hperm : zs'.Perm (d :: zs)) (he : e ∈ ys) :
    (zs'.any fun f => o.eq f.2 e.2) = zs.any fun f => o.eq f.2 e.2 := by
  have hcons : (zs'.any fun f => o.eq f.2 e.2) = (d :: zs).any fun f => o.eq f.2 e.2 := by
    rw [Bool.eq_iff_iff]
    simp only [List.any_eq_true, hperm.mem_iff]
  rw [hcons, List.any_cons, (o.not_eq_of_gt (B.later e he)).2, Bool.false_or]

/-- The whole loop, by induction on what the donor still has. -/
theorem mergeLoop_spec (above : α → α → Bool) {zs ys : List (Nat × α)} (B : Between o c s zs ys)
    (fuel num : Nat) (hfuel : ys.length ≤ fuel) :
    ∃ s' zs', mergeLoop (setOf o above) c.1 fuel (first ys none) num s =
        some (num + (news o zs ys).length, s') ∧ Linked s'.heap zs' ∧ o.Sorted (zs'.map Prod.snd) ∧
      zs'.Perm (zs ++ news o zs ys) ∧ s'.deleted = s.deleted ++ (olds o zs ys).map Prod.snd := by
  induction ys generalizing s zs fuel num with
  | nil =>
    refine ⟨s, zs, by cases fuel <;> rfl, B.receiver, B.sortedR, ?_, ?_⟩
    · rw [news, List.filter_nil, List.append_nil]
    · rw [olds, List.filter_nil, List.map_nil, List.append_nil]
  | cons d ys ih =>
    obtain ⟨fuel, rfl⟩ := Nat.exists_eq_add_one_of_ne_zero (Nat.ne_of_gt (Nat.lt_of_lt_of_le
      (Nat.succ_pos ys.length) hfuel))
    have hfuel' : ys.length ≤ fuel := Nat.le_of_succ_le_succ hfuel
    cases hany : zs.any fun e => o.eq e.2 d.2 with
    | true =>
      obtain ⟨s₁, B₁, hdeleted, hstep⟩ := mergeLoop_old above B (by simpa using hany)
      obtain ⟨s', zs', hrun, L', hs', hperm, hdeleted'⟩ := ih B₁ fuel num hfuel'
      have hnews : news o zs (d :: ys) = news o zs ys := by
        rw [news, List.filter_cons_of_neg (by simp [hany])]
        rfl
      have holds : olds o zs (d :: ys) = d :: olds o zs ys := by
        rw [olds, List.filter_cons_of_pos (by simpa using hany)]
        rfl
      refine ⟨s', zs', ?_, L', hs', hnews ▸ hperm, ?_⟩
      · rw [first, hstep, hrun, hnews]
      · rw [hdeleted', hdeleted, holds]
        simp
    | false =>
      have hnew : ∀ e ∈ zs, o.eq e.2 d.2 = false := by simpa using hany
      obtain ⟨h₁, zs₁, B₁, hperm₁, hstep⟩ := mergeLoop_new above B hnew
      obtain ⟨s', zs', hrun, L', hs', hperm, hdeleted'⟩ := ih B₁ fuel (num + 1) hfuel'
      have hnews : news o zs (d :: ys) = d :: news o zs₁ ys := by
        rw [news, List.filter_cons_of_pos (by simp [hany])]
        refine congrArg (d :: ·) (List.filter_congr fun e he => ?_)
        rw [any_after B hperm₁ he]
      have holds : olds o zs (d :: ys) = olds o zs₁ ys := by
        rw [olds, List.filter_cons_of_neg (by simp [hany])]
        refine List.filter_congr fun e he => ?_
        rw [any_after B hperm₁ he]
      refine ⟨s', zs', ?_, L', hs', ?_, ?_⟩
      · rw [first, hstep, hrun, hnews, List.length_cons, Nat.add_assoc, Nat.add_comm 1]
      · rw [hnews]
        exact hperm.trans ((hperm₁.append_right _).trans List.perm_middle.symm)
      · rw [hdeleted', holds]

/-! ## Push of a manager -/

/-- The union: what `a` held and what was new of `b`, none of it deleted, the rest of
`b` deleted once each, the ends and the number of `a` right and returned, and `b`
empty. -/
structure Merged (o : Pointees α) (x : Managers α) (xs ys zs : List (Nat × α))
    (r : Int × Store α × CTDChainMgr × CTDChainMgr) : Prop where
  a : Holds r.2.1 r.2.2.1 zs
  sorted : o.Sorted (zs.map Prod.snd)
  union : zs.Perm (xs ++ news o xs ys)
  live : ∀ c ∈ zs, c.2 ∉ r.2.1.deleted
  deleted : r.2.1.deleted = x.store.deleted ++ (olds o xs ys).map Prod.snd
  total : r.1 = r.2.2.1.nodeNum
  b : Holds r.2.1 r.2.2.2 []

/-- `a.Push(&b)`, with the objects that it compares. -/
def pushB [DecidableEq α] (o : Pointees α) (above : α → α → Bool) (x : Managers α) :
    Option (Int × Store α × CTDChainMgr × CTDChainMgr) :=
  if Dangles x.store.deleted x.store.heap x.a.nodeHead ∨
    Dangles x.store.deleted x.store.heap x.b.nodeHead then none
  else CTDChainMgr.pushMgr (setOf o above) x.store x.a x.b

variable {x : Managers α} {xs ys : List (Nat × α)}

/-- Cutting a chain at its first node changes nothing. -/
theorem cut_first {d : Nat × α} (L : Linked s.heap (d :: ys)) :
    (read s.heap d.1).bind (fun n =>
      (pointNext n.prev none s.heap).map (write d.1 { n with prev := none })) =
        some (write d.1 ⟨none, first ys none, d.2⟩ s.heap) ∧
      ∀ p, read (write d.1 ⟨none, first ys none, d.2⟩ s.heap) p = read s.heap p := by
  have hread := L.segment.1
  refine ⟨by rw [hread]; rfl, fun p => ?_⟩
  by_cases hp : d.1 = p
  · rw [← hp, read_write (read_lt hread), hread]
  · exact read_write_other hp _ _

theorem merge_spec (above : α → α → Bool) {init : List (Nat × α)} {d : Nat × α}
    (T : TwoSets o x (init ++ [c]) (d :: ys)) :
    ∃ s' zs, merge (setOf o above) c.1 (some d.1) x.store =
        some ((news o (init ++ [c]) (d :: ys)).length, s') ∧ Linked s'.heap zs ∧
      o.Sorted (zs.map Prod.snd) ∧ zs.Perm ((init ++ [c]) ++ news o (init ++ [c]) (d :: ys)) ∧
      s'.deleted = x.store.deleted ++ (olds o (init ++ [c]) (d :: ys)).map Prod.snd := by
  obtain ⟨hcut, hsame⟩ := cut_first T.b.linked
  have B : Between o c { x.store with heap := write d.1 ⟨none, first ys none, d.2⟩ x.store.heap }
      (init ++ [c]) (d :: ys) := by
    refine ⟨T.a.linked.frame fun e _ => hsame e.1, T.b.linked.frame fun e _ => hsame e.1, T.apart,
      T.sortedA, T.sortedB, by simp, fun e he hg => ?_⟩
    -- `c` is the last and the greatest
    rcases List.mem_append.mp he with he | he
    · rw [(ascending_of_sorted T.sortedA).before e he] at hg
      cases hg
    · rw [List.mem_singleton.mp he, o.gt_irrefl] at hg
      cases hg
  obtain ⟨s', zs, hloop, L', hs', hperm, hdeleted⟩ := mergeLoop_spec above B
    (write d.1 ⟨none, first ys none, d.2⟩ x.store.heap).length 0 (by
      rw [length_write]
      exact T.b.linked.room)
  refine ⟨s', zs, ?_, L', hs', hperm, hdeleted⟩
  rw [Nat.zero_add] at hloop
  have hread := T.b.linked.segment.1
  rw [hread, Option.bind_some] at hcut
  rw [merge, hread, Option.bind_some, hcut, Option.bind_some, if_neg (by rintro ⟨h, -⟩; cases h)]
  exact hloop

/-- Where every object is held once or was deleted, none that the union holds was. -/
theorem union_live {zs : List (Nat × α)} {deleted : List α} (hperm : zs.Perm (xs ++ news o xs ys))
    (hnodup : ((xs ++ ys).map Prod.snd ++ deleted).Nodup) :
    ∀ e ∈ zs, e.2 ∉ deleted ++ (olds o xs ys).map Prod.snd := by
  rw [List.nodup_append, List.map_append, List.nodup_append] at hnodup
  obtain ⟨⟨-, -, hapart⟩, -, hlive⟩ := hnodup
  intro e he hmem
  have hboth : e ∈ xs ∨ e ∈ news o xs ys := List.mem_append.mp (hperm.mem_iff.mp he)
  rcases List.mem_append.mp hmem with hdeleted | holds
  · refine hlive e.2 ?_ e.2 hdeleted rfl
    rcases hboth with hx | hy
    · exact List.mem_append_left _ (List.mem_map_of_mem hx)
    · exact List.mem_append_right _ (List.mem_map_of_mem (List.mem_of_mem_filter hy))
  · obtain ⟨d, hd, heq⟩ := List.mem_map.mp holds
    rw [olds, List.mem_filter] at hd
    rcases hboth with hx | hy
    · exact hapart e.2 (List.mem_map_of_mem hx) d.2 (List.mem_map_of_mem hd.1) heq.symm
    · rw [news, List.mem_filter, ← heq, hd.2] at hy
      cases hy.2

/-- Two managers that hold something. -/
theorem push_both (above : α → α → Bool) {init : List (Nat × α)} {d : Nat × α}
    (T : TwoSets o x (init ++ [c]) (d :: ys))
    (hnodup : (((init ++ [c]) ++ d :: ys).map Prod.snd ++ x.store.deleted).Nodup) :
    ∃ r zs, CTDChainMgr.pushMgr (setOf o above) x.store x.a x.b = some r ∧
      Merged o x (init ++ [c]) (d :: ys) zs r := by
  obtain ⟨s', zs, hmerge, L', hs', hperm, hdeleted⟩ := merge_spec above T
  have hmem : ∀ e ∈ init ++ [c], e ∈ zs := fun e he => hperm.mem_iff.mpr (List.mem_append_left _ he)
  have htail : x.a.nodeTail = some c.1 := by
    rw [T.a.tail, last_append]
    rfl
  have hhead : ∃ e ∈ zs, x.a.nodeHead = some e.1 := by
    obtain ⟨e, rest, hcons⟩ := List.exists_cons_of_ne_nil (l := init ++ [c]) (by simp)
    refine ⟨e, hmem e (by rw [hcons]; simp), ?_⟩
    rw [T.a.head, hcons]
    rfl
  have hends := findEnds_spec (s := s') L' hhead ⟨c, hmem c (by simp), htail⟩
  let a' : CTDChainMgr :=
    { x.a with
      nodeHead := first zs none
      nodeTail := last none zs
      nodeNum := x.a.nodeNum + (news o (init ++ [c]) (d :: ys)).length }
  have hnum : a'.nodeNum = zs.length := by
    change x.a.nodeNum + _ = _
    have hlen := hperm.length_eq
    rw [List.length_append] at hlen
    rw [T.a.num, hlen, Int.natCast_add]
  have hb : x.b.nodeNum ≠ 0 := by
    rw [T.b.num]
    simp only [List.length_cons]
    omega
  refine ⟨(a'.nodeNum, s', a', .null), zs, ?_,
    ⟨⟨L', rfl, rfl, hnum⟩, hs', hperm, ?_, hdeleted, rfl, holds_null _⟩⟩
  · rw [CTDChainMgr.pushMgr, if_neg hb, CTDChainMgr.pushChain, htail, Option.bind_some, T.b.head]
    rw [first, hmerge, Option.bind_some, hends]
    rfl
  · change ∀ e ∈ zs, e.2 ∉ s'.deleted
    rw [hdeleted]
    exact union_live hperm hnodup

/-- A manager that holds nothing is not pushed: what is returned is not `a`'s total
unless that is 0. -/
theorem push_none (above : α → α → Bool) (T : TwoSets o x xs []) :
    CTDChainMgr.pushMgr (setOf o above) x.store x.a x.b = some (0, x.store, x.a, x.b) := by
  rw [CTDChainMgr.pushMgr, if_pos (by rw [T.b.num]; rfl)]

/-- A manager that holds nothing has no tail to push on. -/
theorem push_onto_none (above : α → α → Bool) {d : Nat × α} (T : TwoSets o x [] (d :: ys)) :
    CTDChainMgr.pushMgr (setOf o above) x.store x.a x.b = none := by
  have hb : x.b.nodeNum ≠ 0 := by
    rw [T.b.num]
    simp only [List.length_cons]
    omega
  rw [CTDChainMgr.pushMgr, if_neg hb, CTDChainMgr.pushChain, T.a.tail]
  rfl

theorem firsts_ne_nil {items : List α} (h : items ≠ []) : firsts o [] items ≠ [] := by
  obtain ⟨a, rest, rfl⟩ := List.exists_cons_of_ne_nil h
  exact List.cons_ne_nil _ _

theorem cells_nil_iff {cells : List (Nat × α)} {items : List α}
    (hperm : (cells.map Prod.snd).Perm (firsts o [] items)) : cells = [] ↔ items = [] := by
  constructor
  · rintro rfl
    by_contra hne
    exact firsts_ne_nil hne hperm.symm.eq_nil
  · rintro rfl
    exact List.map_eq_nil_iff.mp hperm.eq_nil

section Objects

variable [DecidableEq α] {ops : List (Bool × α)}

/-- A push that is gone on with compared no deleted object. -/
theorem pushB_some {r : Int × Store α × CTDChainMgr × CTDChainMgr} (T : TwoSets o x xs ys) :
    pushB o above x = some r ↔ (∀ e ∈ xs ++ ys, e.2 ∉ x.store.deleted) ∧
      CTDChainMgr.pushMgr (setOf o above) x.store x.a x.b = some r := by
  rw [pushB]
  split
  · next h =>
    rw [dangles_iff T.a, dangles_iff T.b] at h
    refine iff_of_false (fun hsome => by cases hsome) fun hlive => ?_
    rcases h with ⟨e, he, hdeleted⟩ | ⟨e, he, hdeleted⟩
    · exact hlive.1 e (List.mem_append_left _ he) hdeleted
    · exact hlive.1 e (List.mem_append_right _ he) hdeleted
  · next h =>
    rw [dangles_iff T.a, dangles_iff T.b] at h
    refine (and_iff_right fun e he hdeleted => h ?_).symm
    rcases List.mem_append.mp he with he | he
    · exact .inl ⟨e, he, hdeleted⟩
    · exact .inr ⟨e, he, hdeleted⟩

omit [DecidableEq α] in
/-- An object that was pushed twice is deleted under a node that holds it. -/
theorem Merged.distinct {zs : List (Nat × α)} {r : Int × Store α × CTDChainMgr × CTDChainMgr}
    (B : Built o ops x xs ys) (hlive : ∀ e ∈ xs ++ ys, e.2 ∉ x.store.deleted)
    (M : Merged o x xs ys zs r) : (ops.map Prod.snd).Nodup := by
  refine B.owned.nodup_iff.mp (List.nodup_append.mpr ⟨?_, B.once, ?_⟩)
  · rw [List.map_append, List.nodup_append]
    refine ⟨Pointees.Sorted.nodup B.sets.sortedA, Pointees.Sorted.nodup B.sets.sortedB, ?_⟩
    rintro a ha b hb rfl
    obtain ⟨e, he, rfl⟩ := List.mem_map.mp ha
    obtain ⟨d, hd, heq⟩ := List.mem_map.mp hb
    -- `b`'s node of the object is one of those that are deleted with it
    have hold : d ∈ olds o xs ys := by
      rw [olds, List.mem_filter]
      refine ⟨hd, List.any_eq_true.mpr ⟨e, he, ?_⟩⟩
      rw [heq]
      exact o.eq_of_not_gt (o.gt_irrefl e.2) (o.gt_irrefl e.2)
    refine M.live e (M.union.mem_iff.mpr (List.mem_append_left _ he)) ?_
    rw [M.deleted, ← heq]
    exact List.mem_append_right _ (List.mem_map_of_mem hold)
  · rintro a ha b hb rfl
    obtain ⟨e, he, rfl⟩ := List.mem_map.mp ha
    exact hlive e he hb

/-- The pushes and the push of `b` to `a` are gone on with and leave the union. -/
def MergesTo (o : Pointees α) (above : α → α → Bool) (ops : List (Bool × α)) : Prop :=
  ∃ x xs ys r zs, pushesOn o above ops = some x ∧ Built o ops x xs ys ∧
    pushB o above x = some r ∧ Merged o x xs ys zs r

/-- Whatever was pushed to the two managers before, the push of the one to the other
is a union just when nothing was pushed to either of them, or something to both, and no
object twice. -/
theorem merge_union_iff (o : Pointees α) (above : α → α → Bool) (ops : List (Bool × α)) :
    MergesTo o above ops ↔
      (itemsTo true ops = [] ↔ itemsTo false ops = []) ∧ (ops.map Prod.snd).Nodup := by
  constructor
  · rintro ⟨x, xs, ys, r, zs, hrun, B, hpush, M⟩
    obtain ⟨hlive, hmgr⟩ := (pushB_some B.sets).mp hpush
    refine ⟨?_, M.distinct B hlive⟩
    rw [← cells_nil_iff B.firstsA, ← cells_nil_iff B.firstsB]
    have T := B.sets
    cases ys with
    | nil =>
      rw [push_none above T] at hmgr
      obtain rfl := Option.some.inj hmgr
      have htotal : (0 : Int) = x.a.nodeNum := M.total
      rw [T.a.num] at htotal
      exact iff_of_true (List.length_eq_zero_iff.mp (by omega)) rfl
    | cons d ys =>
      cases xs with
      | nil =>
        rw [push_onto_none above T] at hmgr
        cases hmgr
      | cons c xs => exact iff_of_false (by simp) (by simp)
  · rintro ⟨hboth, hdistinct⟩
    obtain ⟨x, hrun⟩ := pushesOn_isSome (o := o) above hdistinct
    obtain ⟨xs, ys, B⟩ := pushesOn_built hrun
    have T := B.sets
    have hlive := B.live hdistinct
    rw [← cells_nil_iff B.firstsA, ← cells_nil_iff B.firstsB] at hboth
    cases ys with
    | nil =>
      obtain rfl := hboth.mpr rfl
      have hmgr := push_none above T
      refine ⟨x, [], [], _, [], hrun, B, (pushB_some T).mpr ⟨hlive, hmgr⟩,
        ⟨T.a, .nil, ?_, ?_, ?_, ?_, T.b⟩⟩
      · exact .refl _
      · simp
      · exact (List.append_nil _).symm
      · exact T.a.num.symm
    | cons d ys =>
      rcases List.eq_nil_or_concat xs with rfl | ⟨init, c, rfl⟩
      · cases hboth.mp rfl
      · rw [List.concat_eq_append] at *
        obtain ⟨r, zs, hmgr, M⟩ := push_both above T (B.owned.nodup_iff.mpr hdistinct)
        exact ⟨x, _, _, r, zs, hrun, B, (pushB_some T).mpr ⟨hlive, hmgr⟩, M⟩

/-- Of five objects with three values, the manager that is pushed on holds three. -/
example : ((pushesOn (.ofKey Prod.snd) (fun _ _ => false)
    [(true, (0, 5)), (false, (1, 3)), (false, (2, 5)),
      (true, (3, 9)), (false, (4, 9))]).bind (pushB (.ofKey (Prod.snd : Nat × Nat → Nat)) fun _ _ =>
        false)).map
    (fun r => (r.1, r.2.1.deleted)) = some (3, [(2, 5), (4, 9)]) := by
  decide

/-- Two objects pushed to `b` alone: the push of `b` goes through a null pointer.
Pushed to `a` alone, 0 is returned for a total of 2. An object that both hold is deleted
under the node of `a`. -/
theorem merge_with_empty :
    ¬ MergesTo (.ofKey (id : Nat → Nat)) (fun _ _ => false) [(false, 1), (false, 2)] ∧
    (pushesOn (.ofKey id) (fun _ _ => false) [(false, 1), (false, 2)]).bind
        (pushB (.ofKey (id : Nat → Nat)) fun _ _ => false) = none ∧
      ((pushesOn (.ofKey id) (fun _ _ => false) [(true, 1), (true, 2)]).bind
        (pushB (.ofKey (id : Nat → Nat)) fun _ _ => false)).map (fun r => (r.1, r.2.2.1.nodeNum)) =
          some (0, 2) ∧
      ((pushesOn (.ofKey id) (fun _ _ => false) [(true, 1), (false, 1)]).bind
        (pushB (.ofKey (id : Nat → Nat)) fun _ _ => false)).map (fun r =>
          (follow r.2.1.heap r.2.1.heap.length r.2.2.1.nodeHead, r.2.1.deleted)) =
          some (some [(0, 1)], [1]) := by
  have hnull : (pushesOn (.ofKey id) (fun _ _ => false) [(false, 1), (false, 2)]).bind
      (pushB (.ofKey (id : Nat → Nat)) fun _ _ => false) = none := by decide
  refine ⟨?_, hnull, by decide, by decide⟩
  rintro ⟨x, xs, ys, r, zs, hrun, -, hpush, -⟩
  rw [hrun, Option.bind_some, hpush] at hnull
  cases hnull

end Objects

end Merge

end NetmtChainMerge
