import Netmt.TDChain

/-!
# Ordered insertion

`CTDChain::Push` with `sort = 1` looks for the place from the node that it is
called on. The walk towards the head and the one towards the tail end at the first
item that is not beyond the new one, and the new node goes behind it.
-/
namespace NetmtOrderedPush

open Links NetmtTDChain
open NetmtChainMgr (Pointees)

variable {α : Type} {o : Pointees α}

/-- Equal items may follow each other. -/
def Ascending (o : Pointees α) (l : List α) : Prop := l.Pairwise fun a b => o.gt a b = false

theorem not_gt_trans {a b c : α} (hab : o.gt a b = false) (hbc : o.gt b c = false) :
    o.gt a c = false := by
  cases hac : o.gt a c with
  | false => rfl
  | true =>
    cases hba : o.gt b a with
    | true => rw [o.gt_trans b a c hba hac] at hbc; cases hbc
    | false =>
      rw [(o.eq_gt a b c (o.total a b hab hba)).1, hbc] at hac
      cases hac

/-- What is neither less nor equal is greater. -/
theorem gt_of_new {a b : α} (hba : o.gt b a = false) (hne : o.eq a b = false) :
    o.gt a b = true := by
  cases hab : o.gt a b with
  | true => rfl
  | false => rw [o.total a b hab hba] at hne; cases hne

theorem ascending_insert {pre post : List α} {item : α} (hs : Ascending o (pre ++ post))
    (hpre : ∀ a ∈ pre, o.gt a item = false) (hpost : ∀ a ∈ post, o.gt item a = false) :
    Ascending o (pre ++ item :: post) := by
  rw [Ascending, List.pairwise_append] at hs
  rw [Ascending, List.pairwise_append, List.pairwise_cons]
  refine ⟨hs.1, ⟨hpost, hs.2.1⟩, fun a ha b hb => ?_⟩
  rcases List.mem_cons.mp hb with rfl | hb
  · exact hpre a ha
  · exact hs.2.2 a ha b hb

theorem ascending_at_place {pre post : List (Nat × α)} {item : α} {q : Nat}
    (hs : Ascending o ((pre ++ post).map Prod.snd)) (hpre : ∀ e ∈ pre, o.gt e.2 item = false)
    (hpost : ∀ e ∈ post, o.gt item e.2 = false) :
    Ascending o ((pre ++ (q, item) :: post).map Prod.snd) := by
  rw [List.map_append] at hs
  rw [List.map_append, List.map_cons]
  apply ascending_insert hs
  · intro a ha
    obtain ⟨e, he, rfl⟩ := List.mem_map.mp ha
    exact hpre e he
  · intro a ha
    obtain ⟨e, he, rfl⟩ := List.mem_map.mp ha
    exact hpost e he

/-- What stands in front is not greater. -/
theorem Ascending.before {pre post : List (Nat × α)} {d : Nat × α}
    (hs : Ascending o ((pre ++ d :: post).map Prod.snd)) : ∀ e ∈ pre, o.gt e.2 d.2 = false := by
  rw [Ascending, List.map_append, List.pairwise_append] at hs
  intro e he
  exact hs.2.2 e.2 (List.mem_map_of_mem he) d.2 (by simp)

/-- What stands behind is not less. -/
theorem Ascending.behind {pre post : List (Nat × α)} {d : Nat × α}
    (hs : Ascending o ((pre ++ d :: post).map Prod.snd)) : ∀ e ∈ post, o.gt d.2 e.2 = false := by
  rw [Ascending, List.map_append, List.pairwise_append, List.map_cons, List.pairwise_cons] at hs
  intro e he
  exact hs.2.1.1 e.2 (List.mem_map_of_mem he)

section Place

variable {equal : CtEqualMethod} {pointer : Bool} {above : α → α → Bool} {item : α}
  {front back pre post : List (Nat × α)} {c : Nat × α}

/-- The walk ends at the right place unless it passes over from what is less to
what is greater. -/
def RightFrom (o : Pointees α) (item : α) (c : Nat × α) (cells : List (Nat × α)) : Prop :=
  o.gt item c.2 = false ∨ (∃ d ∈ cells, o.eq d.2 item = true) ∨ ∀ d ∈ cells, o.gt d.2 item = false

/-- Towards the tail the walk ends at an item that is not greater. -/
theorem forward_not_gt {mid rest : List (Nat × α)} {d : Nat × α}
    (hs : Ascending o ((front ++ c :: back).map Prod.snd)) (hc : o.gt item c.2 = true)
    (hcut : c :: back = mid ++ d :: rest) (hmid : ∀ e ∈ mid, o.gt item e.2 = true)
    (hright : RightFrom o item c (front ++ c :: back)) : o.gt d.2 item = false := by
  have hd : d ∈ front ++ c :: back := by
    rw [hcut]
    simp
  rcases hright with hnot | ⟨e, he, heq⟩ | hall
  · rw [hc] at hnot
    cases hnot
  · have hless : ∀ f : α, o.gt item f = true → o.eq f item = false :=
      fun f hf => (o.not_eq_of_gt hf).2
    rcases List.mem_append.mp he with he | he
    · -- the items in front of `c` are less than `item`
      have hef := hs.before e he
      rw [(o.eq_gt e.2 item c.2 heq).1, hc] at hef
      cases hef
    · rw [hcut] at he
      rcases List.mem_append.mp he with he | he
      · rw [hless e.2 (hmid e he)] at heq
        cases heq
      · have hsplit : front ++ c :: back = (front ++ mid) ++ d :: rest := by rw [hcut]; simp
        rw [hsplit] at hs
        rcases List.mem_cons.mp he with rfl | he
        · rw [(o.eq_gt e.2 item item heq).1]
          exact o.gt_irrefl item
        · rw [← (o.eq_gt e.2 item d.2 heq).2]
          exact hs.behind e he
  · exact hall d hd

/-- At the place, nothing in front is greater and nothing behind is less. -/
theorem place_right (hs : Ascending o ((front ++ c :: back).map Prod.snd))
    (hright : RightFrom o item c (front ++ c :: back))
    (hp : Place (ordered o equal pointer above) item front c back pre post) :
    (∀ e ∈ pre, o.gt e.2 item = false) ∧ ∀ e ∈ post, o.gt item e.2 = false := by
  have hback : o.gt item c.2 = false → ∀ e ∈ back, o.gt item e.2 = false :=
    fun hc e he => not_gt_trans hc (hs.behind e he)
  cases hp with
  | unsorted h => cases h
  | behindAll _ hc hall =>
    refine ⟨fun e he => ?_, by simp⟩
    rcases List.mem_append.mp he with he | he
    · exact not_gt_trans (hs.before e he) (o.gt_asymm _ _ hc)
    · exact o.gt_asymm _ _ (hall e he)
  | @forward mid d rest _ hc hcut hmid hd =>
    have hsplit : front ++ c :: back = (front ++ mid) ++ d :: post := by rw [hcut]; simp
    have hle := forward_not_gt hs hc hcut hmid hright
    rw [hsplit] at hs
    refine ⟨fun e he => ?_, fun e he => not_gt_trans hd (hs.behind e he)⟩
    rcases List.mem_append.mp he with he | he
    · exact not_gt_trans (hs.before e he) hle
    · rw [List.mem_singleton.mp he]
      exact hle
  | @backward pre d mid _ hc hcut hmid hd =>
    have hsplit : front ++ c :: back = pre ++ d :: (mid ++ back) := by
      rw [List.append_cons front, hcut]
      simp
    have hbefore : ∀ e ∈ pre, o.gt e.2 d.2 = false := by
      rw [hsplit] at hs
      exact hs.before
    refine ⟨fun e he => ?_, fun e he => ?_⟩
    · rcases List.mem_append.mp he with he | he
      · exact not_gt_trans (hbefore e he) hd
      · rw [List.mem_singleton.mp he]
        exact hd
    · rcases List.mem_append.mp he with he | he
      · exact o.gt_asymm _ _ (hmid e he)
      · exact hback hc e he
  | beforeAll _ hc hall =>
    refine ⟨by simp, fun e he => ?_⟩
    rcases List.mem_append.mp he with he | he
    · exact o.gt_asymm _ _ (hall e (List.mem_append_left _ he))
    · rcases List.mem_cons.mp he with rfl | he
      · exact hc
      · exact hback hc e he

/-- Otherwise it stands behind an item that is greater. -/
theorem place_wrong (hwrong : ¬ RightFrom o item c (front ++ c :: back))
    (hp : Place (ordered o equal pointer above) item front c back pre post) :
    ∃ e ∈ pre, o.gt e.2 item = true := by
  simp only [RightFrom, not_or, Bool.not_eq_false, not_exists, not_and, Bool.not_eq_true,
    not_forall] at hwrong
  obtain ⟨hc, hne, e, he, hgt⟩ := hwrong
  cases hp with
  | unsorted h => cases h
  | behindAll _ _ _ => exact ⟨e, he, hgt⟩
  | @forward mid d rest _ _ hcut _ hd =>
    have hmem : d ∈ front ++ c :: back := by rw [hcut]; simp
    exact ⟨d, by simp, gt_of_new hd (hne d hmem)⟩
  | backward _ hc' _ _ _ =>
    have hnot : o.gt item c.2 = false := hc'
    rw [hc] at hnot
    cases hnot
  | beforeAll _ hc' _ =>
    have hnot : o.gt item c.2 = false := hc'
    rw [hc] at hnot
    cases hnot

end Place

/-! ## Push from any node -/

section Push

variable {t : Params α} {h : Heap α} {s : Store α} {cells : List (Nat × α)}
  {c : Nat × α} {item : α} {q : Nat}

/-- The chain is in order, the node is single, and its item is none that the
template refuses. -/
structure Ready (o : Pointees α) (equal : CtEqualMethod) (s : Store α) (cells : List (Nat × α))
    (q : Nat) (item : α) : Prop where
  linked : Linked s.heap cells
  ascending : Ascending o (cells.map Prod.snd)
  node : read s.heap q = some ⟨none, none, item⟩
  single : ∀ d ∈ cells, d.1 ≠ q
  new : equal = .CtEM_ALLOW ∨ ∀ d ∈ cells, o.eq d.2 item = false

/-- The old nodes and the new one, linked both ways and in order. -/
def Inserted (o : Pointees α) (s : Store α) (cells : List (Nat × α)) (q : Nat) (item : α)
    (r : CtRetCode × Store α) : Prop :=
  r.1 = .CtRC_SUCCESS ∧ r.2.deleted = s.deleted ∧ ∃ cells', Linked r.2.heap cells' ∧
    cells'.Perm ((q, item) :: cells) ∧ Ascending o (cells'.map Prod.snd)

/-- Pushing from the node of `c` gives an ordered chain in just these cases. -/
theorem push_any_node (o : Pointees α) (equal : CtEqualMethod) (pointer : Bool)
    (above : α → α → Bool) (s : Store α) (cells : List (Nat × α)) (c : Nat × α) (q : Nat) (item : α)
    (R : Ready o equal s cells q item) (hc : c ∈ cells) :
    (∃ r, pushNode (ordered o equal pointer above) s c.1 q = some r ∧ Inserted o s cells q item r) ↔
      RightFrom o item c cells := by
  obtain ⟨front, back, rfl⟩ := List.mem_iff_append.mp hc
  obtain ⟨h', pre, post, hpush, hplace, L', -, -⟩ :=
    pushNode_new (t := ordered o equal pointer above)
    R.linked R.node R.single (equalNode_none R.linked R.new)
  have hcut := hplace.cut
  have hperm : (pre ++ (q, item) :: post).Perm ((q, item) :: (front ++ c :: back)) := by
    rw [← hcut]
    exact List.perm_middle
  have hmap : (pre ++ (q, item) :: post).map Prod.snd = pre.map Prod.snd ++ item ::
      post.map Prod.snd := by
    simp
  constructor
  · rintro ⟨r, hr, -, -, cells', L'', hperm', hasc⟩
    by_contra hwrong
    obtain ⟨e, he, hgt⟩ := place_wrong hwrong hplace
    rw [hpush] at hr
    obtain rfl := Option.some.inj hr
    obtain rfl := L'.unique L'' (hperm'.trans hperm.symm)
    rw [hmap, Ascending, List.pairwise_append] at hasc
    have hnot := hasc.2.2 e.2 (List.mem_map_of_mem he) item List.mem_cons_self
    rw [hgt] at hnot
    cases hnot
  · intro hright
    obtain ⟨hpre, hpost⟩ := place_right R.ascending hright hplace
    have hold : Ascending o ((pre ++ post).map Prod.snd) := by
      rw [hcut]
      exact R.ascending
    exact ⟨_, hpush, rfl, rfl, _, L', hperm, ascending_at_place hold hpre hpost⟩

/-- In an ordered chain a search from any node finds an equal item if there is one. -/
theorem search_ascending (equal : CtEqualMethod) (pointer : Bool) (above : α → α → Bool) (item : α)
    (L : Linked h cells) (hs : Ascending o (cells.map Prod.snd)) (hc : c ∈ cells) :
    (search (ordered o equal pointer above) item h c.1 = some none ∧ ∀ d ∈ cells,
      o.eq d.2 item = false) ∨
      ∃ d ∈ cells, search (ordered o equal pointer above) item h c.1 = some (some d.1) ∧
        o.eq d.2 item = true := by
  obtain ⟨front, back, rfl⟩ := List.mem_iff_append.mp hc
  rcases search_spec (ordered o equal pointer above) item L with ⟨hnone, -, hfwd, hbwd⟩ | hfound
  · refine .inl ⟨hnone, fun d hd => ?_⟩
    cases hg : o.gt item c.2 with
    | true =>
      rcases List.mem_append.mp hd with hd | hd
      · -- in front of `c`, which is less
        cases heq : o.eq d.2 item with
        | false => rfl
        | true =>
          have hle := hs.before d hd
          rw [(o.eq_gt d.2 item c.2 heq).1, hg] at hle
          cases hle
      · exact hfwd hg d hd
    | false =>
      rw [List.append_cons] at hd
      rcases List.mem_append.mp hd with hd | hd
      · exact hbwd hg d hd
      · cases heq : o.eq d.2 item with
        | false => rfl
        | true =>
          have hle := hs.behind d hd
          have hci : o.gt c.2 item = false := by
            rw [← (o.eq_gt d.2 item c.2 heq).2]
            exact hle
          have hself := hbwd hg c (by simp)
          have hself' : o.eq c.2 item = false := hself
          rw [o.total c.2 item hci hg] at hself'
          cases hself'
  · exact .inr hfound

theorem ascending_of_sorted {l : List α} (hs : o.Sorted l) : Ascending o l :=
  hs.imp fun h => o.gt_asymm _ _ h

/-- At its place an item that is not there yet keeps a strict order strict. -/
theorem sorted_at_place {pre post : List (Nat × α)} (hs : o.Sorted ((pre ++ post).map Prod.snd))
    (hpre : ∀ e ∈ pre, o.gt e.2 item = false) (hpost : ∀ e ∈ post, o.gt item e.2 = false)
    (hnew : ∀ e ∈ pre ++ post, o.eq e.2 item = false) :
    o.Sorted ((pre ++ (q, item) :: post).map Prod.snd) := by
  rw [List.map_append, List.map_cons]
  apply o.sorted_insert
  · rw [← List.map_append]
    exact hs
  · intro a ha
    obtain ⟨e, he, rfl⟩ := List.mem_map.mp ha
    exact o.gt_of_not (hpre e he) (hnew e (List.mem_append_left _ he))
  · intro a ha
    obtain ⟨e, he, rfl⟩ := List.mem_map.mp ha
    exact gt_of_new (hpost e he) (hnew e (List.mem_append_right _ he))

/-- Two nodes with the items 1 and 3, and a single one with the item 2. -/
def oneThreeTwo : Store Nat :=
  ⟨[some ⟨none, some 1, 1⟩, some ⟨some 0, none, 3⟩, some ⟨none, none, 2⟩], []⟩

theorem oneThreeTwo_ready :
    Ready (.ofKey id) .CtEM_REJECT oneThreeTwo [(0, 1), (1, 3)] 2 2 where
  linked := ⟨⟨rfl, rfl, trivial⟩, by unfold Apart; decide⟩
  ascending := by unfold Ascending; decide
  node := rfl
  single := by decide
  new := .inr (by decide)

/-- From the node of 3, 2 is put between the two. -/
theorem push_any_node_tail : ∃ r, pushNode (ordered (.ofKey id) .CtEM_REJECT true fun _ _ => false)
    oneThreeTwo 1 2 = some r ∧ Inserted (.ofKey id) oneThreeTwo [(0, 1), (1, 3)] 2 2 r :=
  (push_any_node (.ofKey id) .CtEM_REJECT true (fun _ _ => false) oneThreeTwo
    [(0, 1), (1, 3)] (1, 3) 2 2
    oneThreeTwo_ready (by decide)).mpr (.inl rfl)

/-- From the node of 1, it is put behind 3. -/
theorem push_between_from_head :
    ((pushNode (ordered (.ofKey id) .CtEM_REJECT true fun _ _ => false) oneThreeTwo 0 2).bind
      fun r =>
      follow r.2.heap 3 (some 0)) = some [(0, 1), (1, 3), (2, 2)] ∧
    ¬ ∃ r, pushNode (ordered (.ofKey id) .CtEM_REJECT true fun _ _ => false)
      oneThreeTwo 0 2 = some r ∧
      Inserted (.ofKey id) oneThreeTwo [(0, 1), (1, 3)] 2 2 r := by
  refine ⟨by decide, ?_⟩
  rintro ⟨r, hr, -, -, cells', L, hperm, hasc⟩
  obtain rfl : _ = r := Option.some.inj hr
  have hsame : cells' = [(0, 1), (1, 3), (2, 2)] := by
    refine Linked.unique ⟨⟨rfl, rfl, rfl, trivial⟩, by unfold Apart; decide⟩ L (hperm.trans ?_)
    decide
  rw [hsame] at hasc
  revert hasc
  unfold Ascending
  decide

end Push

end NetmtOrderedPush
