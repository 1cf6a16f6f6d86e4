import Netmt.MgrCalls
import Netmt.OrderedPush

/-!
# One order for searching and sorting

`Search` looks in one direction only, which is as good as a scan from the head where
the chain is in order. `Search` and `Push` look through the pointers that a chain
holds; `SmallestNext` compares the pointers themselves.
-/
namespace NetmtSearchOrder

open Links NetmtTDChain NetmtOrderedPush NetmtMgrCalls NetmtChainSort Selection
open NetmtChainMgr (Pointees head)

/-! ## Searching from any node -/

section Search

variable {α : Type} {h : Heap α} {cells : List (Nat × α)} {c : Nat × α}

/-- The answer to a search: a node that is equal, or none where there is none. -/
structure Answer (o : Pointees α) (item : α) (cells : List (Nat × α)) (r : Option Nat) : Prop where
  found : ∀ q, r = some q → ∃ d ∈ cells, d.1 = q ∧ o.eq d.2 item = true
  missing : r = none ↔ ∀ d ∈ cells, o.eq d.2 item = false

theorem answer_none {o : Pointees α} {item : α} (hnone : ∀ d ∈ cells, o.eq d.2 item = false) :
    Answer o item cells none :=
  ⟨fun _ h => (nomatch h), fun _ => hnone, fun _ => rfl⟩

theorem answer_some {o : Pointees α} {item : α} {d : Nat × α} (hd : d ∈ cells)
    (heq : o.eq d.2 item = true) : Answer o item cells (some d.1) := by
  refine ⟨fun q hq => ⟨d, hd, Option.some.inj hq, heq⟩, fun h => (nomatch h), fun hall => ?_⟩
  rw [hall d hd] at heq
  cases heq

/-- In an ordered chain, searching from any node and scanning from the head give the
same verdict, which is the right one. -/
theorem search_as_scan (o : Pointees α) (equal : CtEqualMethod) (pointer : Bool)
    (above : α → α → Bool) (h : Heap α) (cells : List (Nat × α)) (c : Nat × α) (item : α)
    (L : Linked h cells) (hs : Ascending o (cells.map Prod.snd)) (hc : c ∈ cells) :
    ∃ p r r', head h c.1 = some p ∧ search (ordered o equal pointer above) item h c.1 = some r ∧
      searchNext (ordered o equal pointer above) item h p = some r' ∧
      Answer o item cells r ∧ Answer o item cells r' ∧ (r = none ↔ r' = none) := by
  obtain ⟨d, rest, rfl⟩ := List.exists_cons_of_ne_nil (List.ne_nil_of_mem hc)
  have hsearch : ∃ r, search (ordered o equal pointer above) item h c.1 = some r ∧
      Answer o item (d :: rest) r := by
    rcases search_ascending equal pointer above item L hs hc with ⟨hrun, hnone⟩ | ⟨e, he, hrun, heq⟩
    · exact ⟨none, hrun, answer_none hnone⟩
    · exact ⟨some e.1, hrun, answer_some he heq⟩
  have hscan : ∃ r, searchNext (ordered o equal pointer above) item h d.1 = some r ∧
      Answer o item (d :: rest) r := by
    have L₀ : Linked h ([] ++ d :: rest) := L
    rcases searchNext_spec (ordered o equal pointer above) item
      L₀ with ⟨hrun, hnone⟩ | ⟨e, he, hrun, heq⟩
    · exact ⟨none, hrun, answer_none hnone⟩
    · exact ⟨some e.1, hrun, answer_some he heq⟩
  obtain ⟨r, hrun, A⟩ := hsearch
  obtain ⟨r', hrun', A'⟩ := hscan
  exact ⟨d.1, r, r', L.head hc, hrun, hrun', A, A', A.missing.trans A'.missing.symm⟩

/-- 1 is looked for from the node of 3. -/
theorem search_as_scan_oneThree : ∃ p r r', head oneThreeTwo.heap 1 = some p ∧
    search (ordered (.ofKey id) .CtEM_REJECT true fun _ _ => false) 1 oneThreeTwo.heap 1 = some r ∧
    searchNext (ordered (.ofKey id) .CtEM_REJECT true fun _ _ => false) 1
      oneThreeTwo.heap p = some r' ∧
    Answer (.ofKey id) 1 [(0, 1), (1, 3)] r ∧ Answer (.ofKey id) 1 [(0, 1), (1, 3)] r' ∧
    (r = none ↔ r' = none) :=
  search_as_scan (.ofKey id) .CtEM_REJECT true (fun _ _ => false) oneThreeTwo.heap
    [(0, 1), (1, 3)] (1, 3) 1
    oneThreeTwo_ready.linked oneThreeTwo_ready.ascending (by decide)

end Search

/-! ## Pushing on a manager -/

section Push

variable {α : Type} {o : Pointees α} {s : Store α} {m : CTDChainMgr} {cells : List (Nat × α)}

/-- From the last node of an ordered chain the place is right. -/
theorem right_from_tail {init : List (Nat × α)} {c : Nat × α} (item : α)
    (hs : Ascending o ((init ++ [c]).map Prod.snd)) : RightFrom o item c (init ++ [c]) := by
  cases hc : o.gt item c.2 with
  | false => exact .inl hc
  | true =>
    refine .inr (.inr fun d hd => ?_)
    have hci : o.gt c.2 item = false := o.gt_asymm _ _ hc
    rcases List.mem_append.mp hd with hd | hd
    · exact not_gt_trans (hs.before d hd) hci
    · rw [List.mem_singleton.mp hd]
      exact hci

theorem pushed_ascending {equal : CtEqualMethod} {pointer : Bool} {above : α → α → Bool} {item : α}
    {q : Nat} {init cells' : List (Nat × α)} {c : Nat × α}
    (hs : Ascending o ((init ++ [c]).map Prod.snd))
    (P : Pushed (ordered o equal pointer above) item q init c cells') :
    Ascending o (cells'.map Prod.snd) := by
  cases P with
  | @linked pre post hplace =>
    obtain ⟨hpre, hpost⟩ := place_right hs (right_from_tail item hs) hplace
    rw [← hplace.cut] at hs
    exact ascending_at_place hs hpre hpost
  | kept => exact hs
  | @replaced pre post d hcut heq =>
    rw [hcut] at hs
    have hsub : (pre ++ post).Sublist (pre ++ d :: post) :=
      (List.Sublist.refl pre).append (List.sublist_cons_self d post)
    have hrest : Ascending o ((pre ++ post).map Prod.snd) := hs.sublist (hsub.map _)
    -- what is equal compares in the same way
    apply ascending_at_place hrest
    · intro e he
      rw [← (o.eq_gt d.2 item e.2 heq).2]
      exact hs.before e he
    · intro e he
      rw [← (o.eq_gt d.2 item e.2 heq).1]
      exact hs.behind e he

/-- `CTDChainMgr::Push` keeps an ordered chain in order. -/
theorem push_ascending (equal : CtEqualMethod) (pointer : Bool) (above : α → α → Bool) (item : α)
    (H : Holds s m cells) (hs : Ascending o (cells.map Prod.snd)) :
    ∃ code s' m' cells', m.push (ordered o equal pointer above) item s = some (code, s', m') ∧
      Holds s' m' cells' ∧ Ascending o (cells'.map Prod.snd) := by
  rcases List.eq_nil_or_concat cells with rfl | ⟨init, c, rfl⟩
  · obtain ⟨m', hpush, H', -⟩ := push_empty (ordered o equal pointer above) item H
    exact ⟨_, _, m', _, hpush, H', List.pairwise_singleton _ _⟩
  · rw [List.concat_eq_append] at H hs
    obtain ⟨code, s', m', cells', hpush, H', -, P⟩ :=
      push_outcome (ordered o equal pointer above) item H
    exact ⟨code, s', m', cells', hpush, H', pushed_ascending hs P⟩

end Push

/-! ## Items held by pointer -/

section Pointer

variable {β : Type} {o : Pointees β} {obj : Nat → β} {equal : CtEqualMethod} {s : Store Nat}
  {cells : List (Nat × Nat)}

/-- `TypeComp` of two pointers, where `obj` is what lies at an address. -/
def pointed (o : Pointees β) (obj : Nat → β) : Pointees Nat where
  gt p q := o.gt (obj p) (obj q)
  eq p q := o.eq (obj p) (obj q)
  gt_asymm p q := o.gt_asymm (obj p) (obj q)
  gt_trans p q r := o.gt_trans (obj p) (obj q) (obj r)
  total p q := o.total (obj p) (obj q)
  eq_gt p q r := o.eq_gt (obj p) (obj q) (obj r)

/-- `CTDChain<T, 1, equal, 1>`: `m_tItem > m_tItem` is between addresses. -/
def pointers (o : Pointees β) (obj : Nat → β) (equal : CtEqualMethod) : Params Nat :=
  ordered (pointed o obj) equal true fun p q => decide (q < p)

theorem pointers_preordered : Preordered (pointers o obj equal).above where
  total p q := by
    simp only [pointers, ordered, decide_eq_false_iff_not, not_lt]
    exact Nat.le_total p q
  trans p q r := by
    simp only [pointers, ordered, decide_eq_false_iff_not, not_lt]
    exact Nat.le_trans

/-- The chain is in the order that `Search` and `Push` go by: each of its items is
found from each of its nodes, and a push on its manager keeps it so. -/
structure InOrder (o : Pointees β) (obj : Nat → β) (equal : CtEqualMethod) (s : Store Nat)
    (cells : List (Nat × Nat)) : Prop where
  linked : Linked s.heap cells
  sorted : Ascending (pointed o obj) (cells.map Prod.snd)
  found : ∀ d ∈ cells, ∀ c ∈ cells, ∃ e ∈ cells,
    search (pointers o obj equal) d.2 s.heap c.1 = some (some e.1) ∧ o.eq (obj e.2) (obj d.2) = true
  kept : ∀ m item, Holds s m cells → ∃ code s' m' cells',
    m.push (pointers o obj equal) item s = some (code, s', m') ∧ Holds s' m' cells' ∧
      Ascending (pointed o obj) (cells'.map Prod.snd)

theorem inOrder_of_ascending (L : Linked s.heap cells)
    (hs : Ascending (pointed o obj) (cells.map Prod.snd)) : InOrder o obj equal s cells where
  linked := L
  sorted := hs
  found := by
    intro d hd c hc
    rcases search_ascending equal true (fun p q => decide (q < p)) d.2 L hs hc with
      ⟨-, hnone⟩ | ⟨e, he, hrun, heq⟩
    · have hself : (pointed o obj).eq d.2 d.2 = true :=
        (pointed o obj).total _ _ ((pointed o obj).gt_irrefl _) ((pointed o obj).gt_irrefl _)
      rw [hnone d hd] at hself
      cases hself
    · exact ⟨e, he, hrun, heq⟩
  kept := fun _ item H => push_ascending equal true (fun p q => decide (q < p)) item H hs

/-- A higher address holds no smaller item. -/
def LaidOut (o : Pointees β) (obj : Nat → β) (cells : List (Nat × Nat)) : Prop :=
  ∀ c ∈ cells, ∀ d ∈ cells, c.2 < d.2 → o.gt (obj c.2) (obj d.2) = false

theorem ascending_of_laidOut {cells' : List (Nat × Nat)} (hlaid : LaidOut o obj cells)
    (S : StableSort (cellAbove (pointers o obj equal)) cells cells') :
    Ascending (pointed o obj) (cells'.map Prod.snd) := by
  rw [Ascending, List.pairwise_map]
  refine S.sorted.imp_of_mem fun {c d} hc hd hcd => ?_
  have hle : c.2 ≤ d.2 := by simpa [cellAbove, pointers, ordered] using hcd
  rcases Nat.lt_or_eq_of_le hle with hlt | heq
  · exact hlaid c (S.perm.mem_iff.mp hc) d (S.perm.mem_iff.mp hd) hlt
  · rw [heq]
    exact (pointed o obj).gt_irrefl d.2

theorem laidOut_of_ascending {cells' : List (Nat × Nat)}
    (S : StableSort (cellAbove (pointers o obj equal)) cells cells')
    (hs : Ascending (pointed o obj) (cells'.map Prod.snd)) : LaidOut o obj cells := by
  rw [Ascending, List.pairwise_map] at hs
  have hahead : cells'.Pairwise fun c d : Nat × Nat =>
      c.2 < d.2 → o.gt (obj c.2) (obj d.2) = false := by
    refine hs.imp fun {c d} hcd _ => ?_
    exact hcd
  have hback : cells'.Pairwise (flip fun c d : Nat × Nat =>
      c.2 < d.2 → o.gt (obj c.2) (obj d.2) = false) := by
    refine S.sorted.imp fun {c d} hcd hlt => ?_
    have hle : c.2 ≤ d.2 := by simpa [cellAbove, pointers, ordered] using hcd
    exact absurd hlt (Nat.not_lt.mpr hle)
  intro c hc d hd
  exact hahead.forall_of_forall_of_flip (fun e _ hlt => absurd hlt (Nat.lt_irrefl _)) hback
    (S.perm.mem_iff.mpr hc) (S.perm.mem_iff.mpr hd)

/-- After `Sort` the chain is in order just where the items lie in it. -/
theorem sort_in_order_iff (o : Pointees β) (obj : Nat → β) (equal : CtEqualMethod) (s : Store Nat)
    (cells : List (Nat × Nat)) (c : Nat × Nat) (L : Linked s.heap cells) (hc : c ∈ cells) :
    (∃ h' cells', sortChain (pointers o obj equal) s.heap c.1 = some h' ∧ cells'.Perm cells ∧
      InOrder o obj equal { s with heap := h' } cells') ↔ LaidOut o obj cells := by
  obtain ⟨h', cells', hrun, R, S⟩ :=
    sortChain_stable (pointers o obj equal) pointers_preordered L hc
  constructor
  · rintro ⟨h₁, cells₁, hrun₁, hperm, I⟩
    obtain rfl : h' = h₁ := Option.some.inj (hrun.symm.trans hrun₁)
    obtain rfl : cells₁ = cells' := R.linked.unique I.linked (hperm.trans S.perm.symm)
    exact laidOut_of_ascending S I.sorted
  · intro hlaid
    exact ⟨h', cells', hrun, S.perm, inOrder_of_ascending R.linked (ascending_of_laidOut hlaid S)⟩

/-- 3 at the address 1, 5 at the address 2. -/
def laidUp : Nat → Nat := fun p => if p = 1 then 3 else 5

/-- 5 at the address 1, 3 at the address 2. -/
def laidDown : Nat → Nat := fun p => if p = 1 then 5 else 3

/-- A chain of the addresses 2 and 1. -/
def twoPointers : Store Nat := ⟨[some ⟨none, some 1, 2⟩, some ⟨some 0, none, 1⟩], []⟩

theorem twoPointers_linked : Linked twoPointers.heap [(0, 2), (1, 1)] :=
  ⟨⟨rfl, rfl, trivial⟩, by unfold Apart; decide⟩

theorem sort_in_order_up :
    (∃ h' cells', sortChain (pointers (.ofKey id) laidUp .CtEM_REJECT)
      twoPointers.heap 0 = some h' ∧
      cells'.Perm [(0, 2), (1, 1)] ∧
      InOrder (.ofKey id) laidUp .CtEM_REJECT { twoPointers with heap := h' } cells') ↔
      LaidOut (.ofKey id) laidUp [(0, 2), (1, 1)] :=
  sort_in_order_iff (.ofKey id) laidUp .CtEM_REJECT twoPointers [(0, 2), (1, 1)]
    (0, 2) twoPointers_linked
    (by decide)

/-- The chain was in order; `Sort` puts 5 in front of 3, and from the head 3 is no
longer found. -/
theorem sort_by_address_loses :
    Ascending (pointed (.ofKey id) laidDown) [2, 1] ∧
    ((sortChain (pointers (.ofKey id) laidDown .CtEM_REJECT) twoPointers.heap 0).bind fun h =>
      search (pointers (.ofKey id) laidDown .CtEM_REJECT) 2 h 1) = some none ∧
    ¬ ∃ h' cells', sortChain (pointers (.ofKey id) laidDown .CtEM_REJECT)
      twoPointers.heap 0 = some h' ∧
      cells'.Perm [(0, 2), (1, 1)] ∧
      InOrder (.ofKey id) laidDown .CtEM_REJECT { twoPointers with heap := h' } cells' := by
  have hlost : ((sortChain (pointers (.ofKey id) laidDown .CtEM_REJECT) twoPointers.heap 0).bind
    fun h =>
      search (pointers (.ofKey id) laidDown .CtEM_REJECT) 2 h 1) = some none := by decide
  refine ⟨by unfold Ascending; decide, hlost, ?_⟩
  rintro ⟨h', cells', hrun, hperm, I⟩
  obtain ⟨e, -, hfound, -⟩ := I.found (0, 2) (hperm.mem_iff.mpr (by decide)) (1, 1)
    (hperm.mem_iff.mpr (by decide))
  rw [hrun, Option.bind_some, hfound] at hlost
  cases hlost

end Pointer

end NetmtSearchOrder
