import Netmt.ChainSort

/-!
# Runs of calls on a manager

`CTDChainMgr` with any parameters of the template. `Pop` moves head and tail away
from the node that it deletes, but not the cursor.
-/
namespace NetmtMgrCalls

open Links NetmtTDChain NetmtChainSort

variable {α : Type} (t : Params α)

inductive Call (α : Type) where
  | push : α → Call α
  | pop : α → Call α
  | toBegin | toEnd | toNext | toPrev | empty | sort
  deriving DecidableEq, Repr

/-- The manager and its nodes; `placed` when `Begin` or `End` has returned an item. -/
structure State (α : Type) where
  store : Store α
  mgr : CTDChainMgr
  placed : Bool
  deriving DecidableEq, Repr

def State.initial (α : Type) : State α := ⟨⟨[], []⟩, .null, false⟩

/-- One call. `none` where it goes through a null or dangling pointer. -/
def step (call : Call α) (x : State α) : Option (State α) :=
  match call with
  | .push item => (x.mgr.push t item x.store).map fun r => ⟨r.2.1, r.2.2, x.placed⟩
  | .pop item => (x.mgr.pop t item x.store).map fun r => ⟨r.1, r.2, x.placed⟩
  | .toBegin => (x.mgr.toBegin x.store).map fun r => ⟨x.store, r.2, x.placed || r.1.isSome⟩
  | .toEnd => (x.mgr.toEnd x.store).map fun r => ⟨x.store, r.2, x.placed || r.1.isSome⟩
  | .toNext => (x.mgr.toNext x.store).map fun r => ⟨x.store, r.2, x.placed⟩
  | .toPrev => (x.mgr.toPrev x.store).map fun r => ⟨x.store, r.2, x.placed⟩
  | .empty => (x.mgr.empty t x.store).map fun r => ⟨r.1, r.2, x.placed⟩
  | .sort => (x.mgr.sort t x.store).map fun r => ⟨r.1, r.2, x.placed⟩

/-- `Next` and `Prev` only after `Begin` or `End` returned an item, `Pop` and `Sort`
only on a manager that has nodes. -/
def Allowed (x : State α) : Call α → Prop
  | .toNext | .toPrev => x.placed = true
  | .pop _ | .sort => x.mgr.nodeHead ≠ none
  | _ => True

instance (x : State α) (call : Call α) : Decidable (Allowed x call) :=
  match call with
  | .toNext | .toPrev => inferInstanceAs (Decidable (x.placed = true))
  | .pop _ | .sort => inferInstanceAs (Decidable (x.mgr.nodeHead ≠ none))
  | .push _ | .toBegin | .toEnd | .empty => inferInstanceAs (Decidable True)

/-- Head, tail, number and cursor are those of the chain. -/
def Sound (x : State α) : Prop :=
  x.mgr = .null ∨ ∃ cells, cells ≠ [] ∧ Holds x.store x.mgr cells ∧
    ∃ c ∈ cells, x.mgr.nodeCurr = some c.1

/-- `Pop` finds the node that the cursor is on. -/
def PopsCursor (x : State α) (item : α) : Prop :=
  x.mgr.nodeCurr ≠ none ∧ x.mgr.nodeHead.bind (search t item x.store.heap) = some x.mgr.nodeCurr

/-- What a call must leave alone: the node of the cursor, and `Next` and `Prev` a
manager that has none any more. -/
def Careful (x : State α) : Call α → Prop
  | .pop item => ¬ PopsCursor t x item
  | .toNext | .toPrev => x.mgr.nodeHead ≠ none
  | _ => True

instance (x : State α) (call : Call α) : Decidable (Careful t x call) :=
  match call with
  | .pop item => inferInstanceAs (Decidable ¬ (x.mgr.nodeCurr ≠ none ∧
      x.mgr.nodeHead.bind (search t item x.store.heap) = some x.mgr.nodeCurr))
  | .toNext | .toPrev => inferInstanceAs (Decidable (x.mgr.nodeHead ≠ none))
  | .push _ | .toBegin | .toEnd | .empty | .sort => inferInstanceAs (Decidable True)

/-! ## Chains -/

section Chains

variable {t} {s : Store α} {m : CTDChainMgr} {cells : List (Nat × α)} {h : Heap α}

/-- Deleting the first node deletes them all. -/
theorem deleteChain_all (t : Params α) (fuel : Nat) {c : Nat × α} (L : Linked s.heap (c :: cells))
    (hfuel : cells.length < fuel) : ∃ s', deleteChain t fuel c.1 s = some s' := by
  induction cells generalizing s c fuel with
  | nil =>
    exact ⟨_, deleteChain_single hfuel L.segment.1⟩
  | cons d cells ih =>
    obtain ⟨fuel, rfl⟩ := Nat.exists_eq_add_one_of_ne_zero (Nat.ne_of_gt (Nat.lt_of_le_of_lt
      (Nat.zero_le _) hfuel))
    have hcut : Apart ([c] ++ d :: cells) := L.apart
    obtain ⟨h', hset, hs', -, -⟩ := pointPrev_segment none L.segment.2 hcut.cut.2.1
    obtain ⟨s', hrest⟩ := ih (s := { deleteItem t c.2 s with heap := h' }) fuel ⟨hs', hcut.cut.2.1⟩
      (Nat.lt_of_succ_lt_succ hfuel)
    refine ⟨{ s' with heap := free c.1 s'.heap }, ?_⟩
    have hset' : pointPrev (some d.1) none s.heap = some h' := hset
    rw [deleteChain, L.segment.1]
    simp only [first, pointNext, Option.bind_some, deleteItem_heap, hset', hrest, Option.map_some]

end Chains

/-! ## What each call does -/

section Calls

variable {t} {s : Store α} {m : CTDChainMgr} {cells : List (Nat × α)}

/-- The cursor is on a node of the chain. -/
def OnChain (m : CTDChainMgr) (cells : List (Nat × α)) : Prop := ∃ c ∈ cells, m.nodeCurr = some c.1

/-- The nodes of a chain that holds those of another. -/
theorem OnChain.mono {m' : CTDChainMgr} {cells' : List (Nat × α)} (C : OnChain m cells)
    (hcurr : m'.nodeCurr = m.nodeCurr) (hsub : ∀ p ∈ cells.map Prod.fst, p ∈ cells'.map Prod.fst) :
    OnChain m' cells' := by
  obtain ⟨c, hc, hon⟩ := C
  obtain ⟨d, hd, heq⟩ := List.mem_map.mp (hsub c.1 (List.mem_map_of_mem hc))
  exact ⟨d, hd, by rw [hcurr, hon, heq]⟩

theorem push_empty_sound (t : Params α) (item : α) (H : Holds s m []) :
    ∃ code s' m' cells', m.push t item s = some (code, s', m') ∧ cells' ≠ [] ∧ Holds s' m' cells' ∧
      OnChain m' cells' := by
  obtain ⟨m', hpush, H', hcurr⟩ := push_empty t item H
  exact ⟨_, _, m', _, hpush, List.cons_ne_nil _ _, H', _, List.mem_cons_self, hcurr⟩

/-- What `Push` makes of the chain, looked at from the last node: a node is linked at
its place, or all stays, or the item of an equal node is replaced. -/
inductive Pushed (t : Params α) (item : α) (q : Nat) (init : List (Nat × α)) (c : Nat × α) :
    List (Nat × α) → Prop where
  | linked {pre post : List (Nat × α)} : Place t item init c [] pre post →
      Pushed t item q init c (pre ++ (q, item) :: post)
  | kept : Pushed t item q init c (init ++ [c])
  | replaced {pre post : List (Nat × α)} {d : Nat × α} : init ++ [c] = pre ++ d :: post →
      t.eq d.2 item = true → Pushed t item q init c (pre ++ (d.1, item) :: post)

/-- No node leaves the chain. -/
theorem Pushed.mem_of_mem {item : α} {q : Nat} {init cells' : List (Nat × α)} {c : Nat × α}
    (P : Pushed t item q init c cells') :
    ∀ p ∈ (init ++ [c]).map Prod.fst, p ∈ cells'.map Prod.fst := by
  intro p hp
  cases P with
  | linked hplace =>
    rw [← hplace.cut] at hp
    simp only [List.map_append, List.map_cons, List.mem_append, List.mem_cons] at hp ⊢
    exact hp.imp_right .inr
  | kept => exact hp
  | replaced hcut _ =>
    rw [hcut] at hp
    simpa using hp

theorem push_outcome (t : Params α) (item : α) {init : List (Nat × α)} {c : Nat × α}
    (H : Holds s m (init ++ [c])) : ∃ code s' m' cells', m.push t item s = some (code, s', m') ∧
      Holds s' m' cells' ∧ m'.nodeCurr = m.nodeCurr ∧
      Pushed t item s.heap.length init c cells' := by
  obtain ⟨L₁, -⟩ := H.linked.alloc ⟨none, none, item⟩
  have hlinked : equalNode t item (alloc ⟨none, none, item⟩ s.heap) c.1 = some none →
      ∃ code s' m' cells', m.push t item s = some (code, s', m') ∧ Holds s' m' cells' ∧
        m'.nodeCurr = m.nodeCurr ∧ Pushed t item s.heap.length init c cells' := by
    intro hnew
    obtain ⟨h', pre, post, m', hpush, hplace, H', hcurr, -⟩ := push_new H hnew
    exact ⟨_, _, m', _, hpush, H', hcurr, .linked hplace⟩
  cases hequal : t.equal with
  | CtEM_ALLOW => exact hlinked (equalNode_allow hequal _)
  | CtEM_REJECT =>
    rcases search_spec t item L₁ with ⟨hnone, -⟩ | ⟨d, -, hfound, -⟩
    · exact hlinked (by rw [equalNode_search (by rw [hequal]; decide), hnone])
    · have hpush := push_refused H (pushItem_rejected hequal hfound) (by decide)
      have U := free_alloc_untouched ⟨none, none, item⟩ s.heap []
      exact ⟨_, _, m, _, hpush, H.frame U (by simp), rfl, .kept⟩
  | CtEM_REPLACE =>
    rcases search_spec t item L₁ with ⟨hnone, -⟩ | ⟨d, hd, hfound, heq⟩
    · exact hlinked (by rw [equalNode_search (by rw [hequal]; decide), hnone])
    · obtain ⟨pre, post, hcut⟩ := List.mem_iff_append.mp hd
      have L := H.linked
      rw [hcut] at L
      obtain ⟨h', hpush, L', -⟩ := pushItem_replaced L hequal hfound
      have hlen : (pre ++ (d.1, item) :: post).length = (init ++ [c]).length := by
        rw [hcut]
        simp
      have hfirst : first (init ++ [c]) none = first (pre ++ (d.1, item) :: post) none := by
        rw [hcut]
        cases pre <;> rfl
      have hlast : last none (init ++ [c]) = last none (pre ++ (d.1, item) :: post) := by
        rw [hcut, last_append, last_append]
        rfl
      refine ⟨_, _, m, _, push_refused H hpush (by decide),
        ⟨(deleteItem_heap t d.2 _).symm ▸ L', H.head.trans hfirst, H.tail.trans hlast, ?_⟩, rfl,
        .replaced hcut heq⟩
      rw [H.num, hlen]

/-- A push leaves the old nodes in the chain, whatever the template does with an item
that is there. -/
theorem push_sound (t : Params α) (item : α) (H : Holds s m cells) (C : OnChain m cells) :
    ∃ code s' m' cells', m.push t item s = some (code, s', m') ∧ cells' ≠ [] ∧ Holds s' m' cells' ∧
      OnChain m' cells' := by
  have hne : cells ≠ [] := by
    obtain ⟨c, hc, -⟩ := C
    exact List.ne_nil_of_mem hc
  obtain ⟨init, c, rfl⟩ := (List.eq_nil_or_concat cells).resolve_left hne
  rw [List.concat_eq_append] at *
  obtain ⟨code, s', m', cells', hpush, H', hcurr, P⟩ := push_outcome t item H
  have C' := C.mono hcurr P.mem_of_mem
  have hne' : cells' ≠ [] := by
    obtain ⟨d, hd, -⟩ := C'
    exact List.ne_nil_of_mem hd
  exact ⟨code, s', m', cells', hpush, hne', H', C'⟩

/-- `Begin` and `End` on a chain. -/
theorem toBegin_sound (H : Holds s m cells) (hne : cells ≠ []) :
    ∃ a m', m.toBegin s = some (some a, m') ∧
    Holds s m' cells ∧ OnChain m' cells := by
  obtain ⟨c, cells, rfl⟩ := List.exists_cons_of_ne_nil hne
  refine ⟨c.2, { m with nodeCurr := some c.1 }, ?_,
    ⟨H.linked, H.head, H.tail, H.num⟩, c, by simp, rfl⟩
  rw [CTDChainMgr.toBegin, H.head]
  simp only [first, H.linked.segment.1, Option.map_some]

theorem toEnd_sound (H : Holds s m cells) (hne : cells ≠ []) :
    ∃ a m', m.toEnd s = some (some a, m') ∧
    Holds s m' cells ∧ OnChain m' cells := by
  obtain ⟨init, c, rfl⟩ := (List.eq_nil_or_concat cells).resolve_left hne
  rw [List.concat_eq_append] at *
  refine ⟨c.2, { m with nodeCurr := some c.1 }, ?_,
    ⟨H.linked, H.head, H.tail, H.num⟩, c, by simp, rfl⟩
  have htail : m.nodeTail = some c.1 := by
    rw [H.tail, last_append]
    rfl
  obtain ⟨p, hhead⟩ : ∃ p, m.nodeHead = some p := by
    rw [H.head]
    cases init <;> exact ⟨_, rfl⟩
  simp only [CTDChainMgr.toEnd, hhead, htail, Option.bind_some, H.linked.read_cell, Option.map_some]

/-- The cursor goes to a node of the chain, or round to one. -/
theorem moveTo_sound {p wrap : Option Nat} (H : Holds s m cells)
    (hp : ∀ q, p = some q → ∃ c ∈ cells, c.1 = q) (hwrap : ∃ c ∈ cells, wrap = some c.1) :
    ∃ r, m.moveTo p wrap s = some r ∧ Holds s r.2 cells ∧ OnChain r.2 cells := by
  cases p with
  | none => exact ⟨_, rfl, ⟨H.linked, H.head, H.tail, H.num⟩, hwrap⟩
  | some q =>
    obtain ⟨c, hc, rfl⟩ := hp q rfl
    obtain ⟨pre, post, rfl⟩ := List.mem_iff_append.mp hc
    refine ⟨(some c.2, { m with nodeCurr := some c.1 }), ?_,
      ⟨H.linked, H.head, H.tail, H.num⟩, c, hc, rfl⟩
    simp only [CTDChainMgr.moveTo, H.linked.read_cell, Option.map_some]

theorem toNext_sound (H : Holds s m cells) (C : OnChain m cells) :
    ∃ r, m.toNext s = some r ∧ Holds s r.2 cells ∧ OnChain r.2 cells := by
  obtain ⟨c, hc, hcurr⟩ := C
  obtain ⟨hhead, -⟩ := ends_on_chain H (List.ne_nil_of_mem hc)
  obtain ⟨pre, post, rfl⟩ := List.mem_iff_append.mp hc
  have hnext : ∀ q, first post none = some q → ∃ d ∈ pre ++ c :: post, d.1 = q := by
    intro q hq
    obtain ⟨d, hd, heq⟩ := first_mem hq
    exact ⟨d, by simp [hd], heq⟩
  obtain ⟨r, hmove, H', C'⟩ := moveTo_sound H hnext hhead
  refine ⟨r, ?_, H', C'⟩
  rw [CTDChainMgr.toNext, hcurr, Option.bind_some, H.linked.read_cell]
  exact hmove

theorem toPrev_sound (H : Holds s m cells) (C : OnChain m cells) :
    ∃ r, m.toPrev s = some r ∧ Holds s r.2 cells ∧ OnChain r.2 cells := by
  obtain ⟨c, hc, hcurr⟩ := C
  obtain ⟨-, htail⟩ := ends_on_chain H (List.ne_nil_of_mem hc)
  obtain ⟨pre, post, rfl⟩ := List.mem_iff_append.mp hc
  have hprev : ∀ q, last none pre = some q → ∃ d ∈ pre ++ c :: post, d.1 = q := by
    intro q hq
    obtain ⟨d, hd, heq⟩ := last_mem hq
    exact ⟨d, by simp [hd], heq⟩
  obtain ⟨r, hmove, H', C'⟩ := moveTo_sound H hprev htail
  refine ⟨r, ?_, H', C'⟩
  rw [CTDChainMgr.toPrev, hcurr, Option.bind_some, H.linked.read_cell]
  exact hmove

theorem empty_sound (t : Params α) (H : Holds s m cells) :
    ∃ s', m.empty t s = some (s', .null) := by
  cases cells with
  | nil => exact ⟨s, by rw [CTDChainMgr.empty, H.head]; rfl⟩
  | cons c cells =>
    obtain ⟨s', hrun⟩ := deleteChain_all t s.heap.length H.linked (by
      have hroom := H.linked.room
      simp only [List.length_cons] at hroom
      omega)
    refine ⟨s', ?_⟩
    rw [CTDChainMgr.empty, H.head]
    simp only [first, hrun, Option.map_some]

theorem sort_sound (t : Params α) (H : Holds s m cells) (C : OnChain m cells) :
    ∃ s' m' cells', m.sort t s = some (s', m') ∧ cells' ≠ [] ∧ Holds s' m' cells' ∧
    OnChain m' cells' := by
  obtain ⟨c, hc, hcurr⟩ := C
  obtain ⟨h', cells', hrun, R, hperm⟩ := sortChain_perm t H.linked hc
  obtain ⟨m', hsort, H', hsame⟩ := sort_holds H (List.ne_nil_of_mem hc)
    (fun d hd => (sortChain_same t H.linked hd hc).trans hrun) R.linked hperm
  have hc' : c ∈ cells' := hperm.mem_iff.mpr hc
  exact ⟨_, m', cells', hsort, List.ne_nil_of_mem hc', H', c, hc', hsame.trans hcurr⟩

/-- The links of the manager when `Pop` has found the node of `d`. -/
def relinked (m : CTDChainMgr) (head : Nat) (d : Nat × α) (pre post : List (Nat × α)) :
    CTDChainMgr :=
  if d.1 = head then { m with nodeHead := first post none }
  else if m.nodeTail = some d.1 then { m with nodeTail := last none pre }
  else m

/-- A node with another in front of it is not the head. -/
theorem behind_head {pre post : List (Nat × α)} {c d e : Nat × α}
    (H : Holds s m ((e :: pre) ++ d :: post)) (hhead : m.nodeHead = some c.1) : d.1 ≠ c.1 := by
  obtain ⟨-, -, hcross⟩ := H.linked.apart.cut
  have he : c.1 = e.1 := Option.some.inj (hhead.symm.trans H.head)
  rw [he]
  exact (hcross e List.mem_cons_self d List.mem_cons_self).symm

theorem relinked_head {pre post : List (Nat × α)} {c d : Nat × α} (H : Holds s m (pre ++ d :: post))
    (hhead : m.nodeHead = some c.1) :
    (relinked m c.1 d pre post).nodeHead = first (pre ++ post) none := by
  have hfirst : some c.1 = first (pre ++ d :: post) none := hhead.symm.trans H.head
  cases pre with
  | nil =>
    have hd : d.1 = c.1 := (Option.some.inj hfirst).symm
    rw [relinked, if_pos hd]
    rfl
  | cons e pre =>
    rw [relinked, if_neg (behind_head H hhead)]
    split <;> exact H.head

/-- The tail is right again when another node is left. -/
theorem relinked_tail {pre post : List (Nat × α)} {c d : Nat × α} (H : Holds s m (pre ++ d :: post))
    (hhead : m.nodeHead = some c.1) (hmore : pre ++ post ≠ []) :
    (relinked m c.1 d pre post).nodeTail = last none (pre ++ post) := by
  obtain ⟨-, hacons, -⟩ := H.linked.apart.cut
  have hapart : Apart ([d] ++ post) := hacons
  have hfirst : some c.1 = first (pre ++ d :: post) none := hhead.symm.trans H.head
  have hlast := H.tail
  rw [last_append] at hlast ⊢
  cases pre with
  | nil =>
    have hd : d.1 = c.1 := (Option.some.inj hfirst).symm
    rw [relinked, if_pos hd]
    exact hlast.trans (last_eq_of_ne_nil hmore _ _)
  | cons e pre =>
    rw [relinked, if_neg (behind_head H hhead)]
    cases post with
    | nil =>
      have hlast' : m.nodeTail = some d.1 := hlast
      rw [if_pos hlast']
      rfl
    | cons f post =>
      have hother : m.nodeTail ≠ some d.1 := by
        intro heq
        obtain ⟨p, hp⟩ := last_isSome none (f :: post) (List.cons_ne_nil _ _)
        obtain ⟨g, hg, rfl⟩ := last_mem hp
        have htail : m.nodeTail = some g.1 := hlast.trans hp
        rw [htail] at heq
        exact hapart.cut.2.2 d (by simp) g hg (Option.some.inj heq).symm
      rw [if_neg hother]
      exact hlast

/-- The links of the manager and its chain when `Pop` has taken out the node of `d`; a
manager that has no node left still has the old tail. -/
structure Popped (t : Params α) (d : Nat × α) (rest : List (Nat × α)) (s s' : Store α)
    (m m' : CTDChainMgr) : Prop where
  linked : Linked s'.heap rest
  head : m'.nodeHead = first rest none
  tail : rest ≠ [] → m'.nodeTail = last none rest
  curr : m'.nodeCurr = m.nodeCurr
  num : m'.nodeNum = rest.length
  freed : read s'.heap d.1 = none
  deleted : s'.deleted = (deleteItem t d.2 s).deleted

theorem Popped.holds {t : Params α} {d : Nat × α} {rest : List (Nat × α)} {s s' : Store α}
    {m m' : CTDChainMgr} (P : Popped t d rest s s' m m') (hmore : rest ≠ []) : Holds s' m' rest :=
  ⟨P.linked, P.head, P.tail hmore, P.num⟩

/-- `Pop` finds no node, or one that is gone afterwards; the cursor stays. -/
theorem pop_cases (t : Params α) (item : α) (H : Holds s m cells) (hne : cells ≠ []) :
    (m.nodeHead.bind (search t item s.heap) = some none ∧ m.pop t item s = some (s, m)) ∨
    ∃ pre d post s' m', cells = pre ++ d :: post ∧
      m.nodeHead.bind (search t item s.heap) = some (some d.1) ∧ m.pop t item s = some (s', m') ∧
      Popped t d (pre ++ post) s s' m m' := by
  obtain ⟨c, rest, rfl⟩ := List.exists_cons_of_ne_nil hne
  have hhead : m.nodeHead = some c.1 := H.head
  have L₀ : Linked s.heap ([] ++ c :: rest) := H.linked
  rw [hhead, Option.bind_some]
  rcases search_spec t item L₀ with ⟨hnone, -⟩ | ⟨d, hd, hfound, -⟩
  · exact .inl ⟨hnone, by simp only [CTDChainMgr.pop, hhead, hnone]⟩
  · obtain ⟨pre, post, hcut⟩ := List.mem_iff_append.mp hd
    rw [List.nil_append] at hcut
    rw [hcut] at H
    obtain ⟨h₁, hpop, L₁, hnode, -, -⟩ := popNode_spec H.linked
    have hdelete : deleteChain t h₁.length d.1 { s with heap := h₁ } =
        some { deleteItem t d.2 { s with heap := h₁ } with heap := free d.1 h₁ } :=
      deleteChain_single (Nat.lt_of_le_of_lt (Nat.zero_le _) (read_lt hnode)) hnode
    let m₁ := relinked m c.1 d pre post
    have hlinks : m₁.nodeCurr = m.nodeCurr ∧ m₁.nodeNum = m.nodeNum := by
      change (relinked m c.1 d pre post).nodeCurr = _ ∧ (relinked m c.1 d pre post).nodeNum = _
      unfold relinked
      split
      · exact ⟨rfl, rfl⟩
      · split <;> exact ⟨rfl, rfl⟩
    have hother : ∀ e ∈ pre ++ post, d.1 ≠ e.1 :=
      fun e he => ((apart_middle.mp H.linked.apart).1 e he).symm
    have hnum : m₁.nodeNum - 1 = ((pre ++ post).length : Int) := by
      have hnum := H.num
      simp only [List.length_append, List.length_cons] at hnum ⊢
      rw [hlinks.2, hnum]
      omega
    refine .inr ⟨pre, d, post, { deleteItem t d.2 { s with heap := h₁ } with heap := free d.1 h₁ },
      { m₁ with nodeNum := m₁.nodeNum - 1 }, hcut, hfound, ?_, {
        linked := L₁.frame fun e he => read_free_other (hother e he) _
        head := relinked_head H hhead
        tail := fun hmore => relinked_tail H hhead hmore
        curr := hlinks.1
        num := hnum
        freed := read_free d.1
        deleted := deleteItem_deleted t d.2 h₁ s }⟩
    simp only [CTDChainMgr.pop, hhead, hfound, H.linked.read_cell, Option.bind_some, hpop, hdelete,
      Option.map_some]
    rw [← hhead]
    rfl

end Calls

/-! ## Loops over the items -/

section Loops

variable {s : Store α} {m : CTDChainMgr}

/-- A loop with `Next`, up to an item that is wanted; the cursor is on its node then. -/
def searchLoop (wanted : α → Bool) (s : Store α) :
    Nat → Option α → CTDChainMgr → Option (Option α × CTDChainMgr)
  | _, none, m => some (none, m)
  | 0, some _, _ => none
  | fuel + 1, some a, m =>
    if wanted a then some (some a, m) else (m.toNext s).bind fun r =>
      searchLoop wanted s fuel r.1 r.2

/-- The loop from `Begin` on. -/
def searchItems (wanted : α → Bool) (s : Store α) (m : CTDChainMgr) :
    Option (Option α × CTDChainMgr) :=
  (m.toBegin s).bind fun r => searchLoop wanted s s.heap.length r.1 r.2

/-- `Next`, from a node of the chain. -/
theorem toNext_at {pre post : List (Nat × α)} {c : Nat × α} (L : Linked s.heap (pre ++ c :: post))
    (hcurr : m.nodeCurr = some c.1) : m.toNext s =
      some (post.head?.map Prod.snd, { m with nodeCurr := (first post none).or m.nodeHead }) := by
  have hnext : m.toNext s = m.moveTo (first post none) m.nodeHead s := by
    rw [CTDChainMgr.toNext, hcurr, Option.bind_some, L.read_cell]
    rfl
  rw [hnext]
  cases post with
  | nil => rfl
  | cons d post =>
    have L' : Linked s.heap ((pre ++ [c]) ++ d :: post) := by simpa using L
    simp only [CTDChainMgr.moveTo, first, L'.read_cell, Option.map_some, List.head?_cons]
    rfl

/-- The loop gives the first item that is wanted, and moves nothing but the cursor. -/
theorem searchLoop_spec (wanted : α → Bool) (fuel : Nat) {pre post : List (Nat × α)} {c : Nat × α}
    (L : Linked s.heap (pre ++ c :: post)) (hcurr : m.nodeCurr = some c.1)
    (hfuel : post.length < fuel) :
    ∃ curr, searchLoop wanted s fuel (some c.2) m =
      some (((c :: post).map Prod.snd).find? wanted, { m with nodeCurr := curr }) := by
  induction post generalizing pre c m fuel with
  | nil =>
    obtain ⟨fuel, rfl⟩ := Nat.exists_eq_add_one_of_ne_zero (Nat.ne_of_gt hfuel)
    by_cases hwanted : wanted c.2 = true
    · refine ⟨m.nodeCurr, ?_⟩
      rw [searchLoop, if_pos hwanted, List.map_cons, List.find?_cons_of_pos hwanted]
    · refine ⟨m.nodeHead, ?_⟩
      rw [searchLoop, if_neg hwanted, toNext_at L hcurr, List.map_cons,
        List.find?_cons_of_neg hwanted]
      cases fuel <;> rfl
  | cons d post ih =>
    obtain ⟨fuel, rfl⟩ := Nat.exists_eq_add_one_of_ne_zero (Nat.ne_of_gt (Nat.lt_of_le_of_lt
      (Nat.zero_le _) hfuel))
    by_cases hwanted : wanted c.2 = true
    · refine ⟨m.nodeCurr, ?_⟩
      rw [searchLoop, if_pos hwanted, List.map_cons, List.find?_cons_of_pos hwanted]
    · have L' : Linked s.heap ((pre ++ [c]) ++ d :: post) := by simpa using L
      obtain ⟨curr, hloop⟩ := ih (m := { m with nodeCurr := some d.1 }) fuel L' rfl
        (Nat.lt_of_succ_lt_succ hfuel)
      refine ⟨curr, ?_⟩
      rw [searchLoop, if_neg hwanted, toNext_at L hcurr, List.map_cons,
        List.find?_cons_of_neg hwanted]
      exact hloop

theorem searchItems_spec {cells : List (Nat × α)} (wanted : α → Bool) (L : Linked s.heap cells)
    (hhead : m.nodeHead = first cells none) : ∃ curr, searchItems wanted s m =
      some ((cells.map Prod.snd).find? wanted, { m with nodeCurr := curr }) := by
  cases cells with
  | nil =>
    have hbegin : m.toBegin s = some (none, m) := by
      rw [CTDChainMgr.toBegin, hhead]
      rfl
    refine ⟨m.nodeCurr, ?_⟩
    rw [searchItems, hbegin, Option.bind_some]
    cases s.heap.length <;> rfl
  | cons c post =>
    have hbegin : m.toBegin s = some (some c.2, { m with nodeCurr := some c.1 }) := by
      rw [CTDChainMgr.toBegin, hhead]
      simp only [first, L.segment.1, Option.map_some]
    have L' : Linked s.heap ([] ++ c :: post) := L
    obtain ⟨curr, hloop⟩ :=
      searchLoop_spec (m := { m with nodeCurr := some c.1 }) wanted s.heap.length L'
      rfl L.room
    refine ⟨curr, ?_⟩
    rw [searchItems, hbegin]
    exact hloop

end Loops

/-! ## Steps and runs -/

section Runs

variable {t} {x : State α}

/-- A step from a sound state, along the chain it holds. -/
theorem Sound.cases (S : Sound x) :
    x.mgr = .null ∨ ∃ cells, cells ≠ [] ∧ Holds x.store x.mgr cells ∧
    OnChain x.mgr cells := S

theorem sound_of {x' : State α} {cells : List (Nat × α)} (hne : cells ≠ [])
    (H : Holds x'.store x'.mgr cells) (C : OnChain x'.mgr cells) :
    Sound x' := .inr ⟨cells, hne, H, C⟩

/-- A popped cursor is on no node. -/
theorem not_sound_of_freed {x' : State α} {p : Nat} (hcurr : x'.mgr.nodeCurr = some p)
    (hfreed : read x'.store.heap p = none) : ¬ Sound x' := by
  rintro (hnull | ⟨cells, -, H, c, hc, hon⟩)
  · rw [hnull] at hcurr
    cases hcurr
  · obtain ⟨pre, post, rfl⟩ := List.mem_iff_append.mp hc
    obtain rfl : p = c.1 := by
      rw [hcurr] at hon
      exact Option.some.inj hon
    rw [H.linked.read_cell] at hfreed
    cases hfreed

theorem step_pop_iff {item : α} (S : Sound x) (ha : Allowed x (.pop item)) :
    (∃ x', step t (.pop item) x = some x' ∧ Sound x') ↔ ¬ PopsCursor t x item := by
  rcases S with hnull | ⟨cells, hne, H, C⟩
  · exact absurd (by rw [hnull]; rfl) ha
  · rcases pop_cases t item H hne with ⟨hnone, hpop⟩ | ⟨pre, d, post, s', m',
      hcut, hfound, hpop, hpopped⟩
    · refine iff_of_true ⟨x, ?_, sound_of hne H C⟩ ?_
      · rw [step, hpop]
        rfl
      · rintro ⟨hcurr, hp⟩
        rw [hnone] at hp
        exact hcurr (Option.some.inj hp).symm
    · have hstep : step t (.pop item) x = some ⟨s', m', x.placed⟩ := by
        rw [step, hpop]
        rfl
      constructor
      · rintro ⟨x', hx', S'⟩ ⟨-, hp⟩
        rw [hstep] at hx'
        obtain rfl := Option.some.inj hx'
        rw [hfound] at hp
        exact not_sound_of_freed (hpopped.curr.trans (Option.some.inj hp).symm) hpopped.freed S'
      · intro hnot
        obtain ⟨c, hc, hon⟩ := C
        have hcd : c.1 ≠ d.1 := by
          intro heq
          refine hnot ⟨by rw [hon]; exact Option.some_ne_none _, ?_⟩
          rw [hfound, hon, heq]
        have hmem : c ∈ pre ++ post := by
          rw [hcut] at hc
          rcases List.mem_append.mp hc with hc | hc
          · exact List.mem_append_left _ hc
          · rcases List.mem_cons.mp hc with rfl | hc
            · exact absurd rfl hcd
            · exact List.mem_append_right _ hc
        exact ⟨_, hstep,
          sound_of (List.ne_nil_of_mem hmem) (hpopped.holds (List.ne_nil_of_mem hmem))
          ⟨c, hmem, hpopped.curr.trans hon⟩⟩

/-- A call ends and keeps the pointers right just when it meets its condition. -/
theorem step_sound_iff (call : Call α) (S : Sound x) (ha : Allowed x call) :
    (∃ x', step t call x = some x' ∧ Sound x') ↔ Careful t x call := by
  cases call with
  | pop item => exact step_pop_iff S ha
  | push item =>
    refine iff_of_true ?_ trivial
    rcases S with hnull | ⟨cells, -, H, C⟩
    · have H : Holds x.store x.mgr [] := hnull ▸ holds_null _
      obtain ⟨code, s', m', cells', hpush, hne, H', C'⟩ := push_empty_sound t item H
      exact ⟨⟨s', m', x.placed⟩, by rw [step, hpush]; rfl, sound_of hne H' C'⟩
    · obtain ⟨code, s', m', cells', hpush, hne, H', C'⟩ := push_sound t item H C
      exact ⟨⟨s', m', x.placed⟩, by rw [step, hpush]; rfl, sound_of hne H' C'⟩
  | toBegin =>
    refine iff_of_true ?_ trivial
    rcases S with hnull | ⟨cells, hne, H, C⟩
    · exact ⟨⟨x.store, x.mgr, x.placed || false⟩, by rw [step, hnull]; rfl, .inl hnull⟩
    · obtain ⟨a, m', hrun, H', C'⟩ := toBegin_sound H hne
      exact ⟨⟨x.store, m', x.placed || true⟩, by rw [step, hrun]; rfl, sound_of hne H' C'⟩
  | toEnd =>
    refine iff_of_true ?_ trivial
    rcases S with hnull | ⟨cells, hne, H, C⟩
    · exact ⟨⟨x.store, x.mgr, x.placed || false⟩, by rw [step, hnull]; rfl, .inl hnull⟩
    · obtain ⟨a, m', hrun, H', C'⟩ := toEnd_sound H hne
      exact ⟨⟨x.store, m', x.placed || true⟩, by rw [step, hrun]; rfl, sound_of hne H' C'⟩
  | toNext =>
    rcases S with hnull | ⟨cells, hne, H, C⟩
    · refine iff_of_false ?_ fun h => h (by rw [hnull]; rfl)
      rintro ⟨x', hx', -⟩
      rw [step, hnull] at hx'
      cases hx'
    · obtain ⟨r, hrun, H', C'⟩ := toNext_sound H C
      obtain ⟨c, -, hhead⟩ := (ends_on_chain H hne).1
      refine iff_of_true ⟨⟨x.store, r.2, x.placed⟩, ?_, sound_of hne H' C'⟩ ?_
      · rw [step, hrun]
        rfl
      · rw [Careful, hhead]
        exact Option.some_ne_none _
  | toPrev =>
    rcases S with hnull | ⟨cells, hne, H, C⟩
    · refine iff_of_false ?_ fun h => h (by rw [hnull]; rfl)
      rintro ⟨x', hx', -⟩
      rw [step, hnull] at hx'
      cases hx'
    · obtain ⟨r, hrun, H', C'⟩ := toPrev_sound H C
      obtain ⟨c, -, hhead⟩ := (ends_on_chain H hne).1
      refine iff_of_true ⟨⟨x.store, r.2, x.placed⟩, ?_, sound_of hne H' C'⟩ ?_
      · rw [step, hrun]
        rfl
      · rw [Careful, hhead]
        exact Option.some_ne_none _
  | empty =>
    refine iff_of_true ?_ trivial
    have hempty : ∃ s', x.mgr.empty t x.store = some (s', .null) := by
      rcases S with hnull | ⟨cells, -, H, -⟩
      · exact ⟨x.store, by rw [hnull]; rfl⟩
      · exact empty_sound t H
    obtain ⟨s', hrun⟩ := hempty
    exact ⟨⟨s', .null, x.placed⟩, by rw [step, hrun]; rfl, .inl rfl⟩
  | sort =>
    refine iff_of_true ?_ trivial
    rcases S with hnull | ⟨cells, -, H, C⟩
    · exact absurd (by rw [hnull]; rfl) ha
    · obtain ⟨s', m', cells', hrun, hne, H', C'⟩ := sort_sound t H C
      exact ⟨⟨s', m', x.placed⟩, by rw [step, hrun]; rfl, sound_of hne H' C'⟩

/-- The calls respect what the manager asks of its callers, each in the state that it
meets. -/
def AllowedRun (t : Params α) : State α → List (Call α) → Prop
  | _, [] => True
  | x, call :: calls => Allowed x call ∧ ∀ x' ∈ step t call x, AllowedRun t x' calls

instance decidableAllowedRun (t : Params α) : (x : State α) → (calls : List (Call α)) →
    Decidable (AllowedRun t x calls)
  | _, [] => inferInstanceAs (Decidable True)
  | x, call :: calls =>
    have := fun x' => decidableAllowedRun t x' calls
    inferInstanceAs (Decidable (Allowed x call ∧ ∀ x' ∈ step t call x, AllowedRun t x' calls))

/-- Every call ends, in a state whose pointers are right. -/
def SoundRun (t : Params α) : State α → List (Call α) → Prop
  | _, [] => True
  | x, call :: calls => ∃ x', step t call x = some x' ∧ Sound x' ∧ SoundRun t x' calls

/-- No call pops the node that the cursor is on, and none moves the cursor of a
manager that has no nodes. -/
def CarefulRun (t : Params α) : State α → List (Call α) → Prop
  | _, [] => True
  | x, call :: calls => Careful t x call ∧ ∀ x' ∈ step t call x, CarefulRun t x' calls

instance decidableCarefulRun (t : Params α) : (x : State α) → (calls : List (Call α)) →
    Decidable (CarefulRun t x calls)
  | _, [] => inferInstanceAs (Decidable True)
  | x, call :: calls =>
    have := fun x' => decidableCarefulRun t x' calls
    inferInstanceAs (Decidable (Careful t x call ∧ ∀ x' ∈ step t call x, CarefulRun t x' calls))

theorem soundRun_iff (calls : List (Call α)) (S : Sound x) (ha : AllowedRun t x calls) :
    SoundRun t x calls ↔ CarefulRun t x calls := by
  induction calls generalizing x with
  | nil => exact Iff.rfl
  | cons call calls ih =>
    obtain ⟨hallowed, hafter⟩ := ha
    have hstep := step_sound_iff (t := t) call S hallowed
    constructor
    · rintro ⟨x', hx', S', hrun⟩
      refine ⟨hstep.mp ⟨x', hx', S'⟩, fun x'' hx'' => ?_⟩
      obtain rfl : x' = x'' := Option.some.inj (hx'.symm.trans hx'')
      exact (ih S' (hafter x' hx')).mp hrun
    · rintro ⟨hcareful, hrest⟩
      obtain ⟨x', hx', S'⟩ := hstep.mpr hcareful
      exact ⟨x', hx', S', (ih S' (hafter x' hx')).mpr (hrest x' hx')⟩

/-- From an empty manager the pointers are right after every call just when no call
pops the node of the cursor or moves the cursor of a manager without nodes. -/
theorem pointers_sound_iff (t : Params α) (calls : List (Call α))
    (ha : AllowedRun t (.initial α) calls) :
    SoundRun t (.initial α) calls ↔ CarefulRun t (.initial α) calls :=
  soundRun_iff calls (.inl rfl) ha

/-- Numbers, in no order, equal ones allowed. -/
def numbers : Params Nat :=
  ⟨false, .CtEM_ALLOW, false, fun a b => decide (b < a), fun a b => a == b, fun a b =>
    decide (b < a)⟩

/-- The cursor goes on before the node that it was on is popped. -/
theorem pointers_sound_moved :
    SoundRun numbers (.initial Nat) [.push 3, .push 1, .sort, .toBegin, .toNext,
      .pop 1, .push 2, .toPrev] :=
  (pointers_sound_iff numbers [.push 3, .push 1, .sort, .toBegin, .toNext, .pop 1, .push 2, .toPrev]
    (by decide)).mpr (by decide)

/-- Pushed and popped again, the only node leaves tail and cursor behind. -/
theorem pop_only_node : AllowedRun numbers (.initial Nat) [.push 1, .pop 1] ∧
    ((step numbers (.push 1) (.initial Nat)).bind (step numbers (.pop 1))).map State.mgr =
      some ⟨none, some 0, some 0, 0⟩ ∧
    ¬ SoundRun numbers (.initial Nat) [.push 1, .pop 1] := by
  refine ⟨by decide, by decide, fun hrun => ?_⟩
  have hcareful := (soundRun_iff [.push 1, .pop 1] (.inl rfl) (by decide)).mp hrun
  revert hcareful
  decide

end Runs

end NetmtMgrCalls
