import Netmt.TDChain
import Netmt.Lib.Selection

/-!
# Sorting a chain

`CTDChain::Sort` goes to the head and looks for the smallest node from there on.
Where that is another one it is linked in front of the cursor, which stays; the
cursor goes on where it is the smallest itself. Either way one node is done with.
-/
namespace NetmtChainSort

open Links NetmtTDChain Selection
open NetmtChainMgr (pushPrev)

variable {α : Type} {h : Heap α} {s : Store α} {m : CTDChainMgr} {cells : List (Nat × α)}

/-- The comparison of `SmallestNext`, on nodes. -/
def cellAbove (t : Params α) (a b : Nat × α) : Bool := t.above a.2 b.2

/-! ## One pass -/

theorem smallestNext_spec (t : Params α) (fuel : Nat) {small : Nat × α} {post : List (Nat × α)}
    {before : Option Nat} (hs : Segment h before post none)
    (hsmall : ∃ prev next, read h small.1 = some ⟨prev, next, small.2⟩)
    (hfuel : post.length ≤ fuel) :
    smallestNext t h fuel small.1 (first post none) = some (least (cellAbove t) small post).1 := by
  induction post generalizing before small fuel with
  | nil => cases fuel <;> rfl
  | cons c post ih =>
    obtain ⟨fuel, rfl⟩ := Nat.exists_eq_add_one_of_ne_zero (Nat.ne_of_gt (Nat.lt_of_lt_of_le
      (Nat.succ_pos post.length) hfuel))
    obtain ⟨prev, next, hread⟩ := hsmall
    have hfuel' : post.length ≤ fuel := Nat.le_of_succ_le_succ hfuel
    cases habove : t.above small.2 c.2 with
    | true =>
      have hnext : smaller (cellAbove t) small c = c := if_pos habove
      rw [least_cons, hnext, ← ih fuel hs.2 ⟨_, _, hs.1⟩ hfuel']
      simp only [first, smallestNext, hread, hs.1, habove, if_true]
    | false =>
      have hnext : smaller (cellAbove t) small c = small := if_neg (by simp [cellAbove, habove])
      rw [least_cons, hnext, ← ih fuel hs.2 ⟨prev, next, hread⟩ hfuel']
      simp only [first, smallestNext, hread, hs.1, habove, Bool.false_eq_true, if_false]

/-- A node goes in front of an earlier one. -/
theorem move_front {pre mid post : List (Nat × α)} {c d : Nat × α}
    (L : Linked h (pre ++ c :: (mid ++ d :: post))) : ∃ h₁ h₂, popNode h d.1 = some h₁ ∧
      (pushPrev h₁ c.1 d.1).map Prod.snd = some h₂ ∧ h₂.length = h.length ∧
      SameOff (pre ++ c :: (mid ++ d :: post)) h h₂ ∧
      Linked h₂ (pre ++ d :: c :: (mid ++ post)) := by
  have hcut : pre ++ c :: (mid ++ d :: post) = (pre ++ c :: mid) ++ d :: post := by simp
  have hperm : (pre ++ d :: c :: (mid ++ post)).Perm (pre ++ c :: (mid ++ d :: post)) := by
    simpa using perm_pass pre (c :: mid) post d
  have L₀ := L
  rw [hcut] at L₀
  obtain ⟨h₁, hpop, L₁, hnode, hlen₁, hsame₁⟩ := popNode_spec L₀
  have hfresh := (apart_middle.mp L₀.apart).1
  have hcut' : (pre ++ c :: mid) ++ post = pre ++ c :: (mid ++ post) := by simp
  rw [hcut'] at L₁ hfresh
  obtain ⟨h₂, hpush, hs₂, hlen₂, hsame₂⟩ := pushPrev_spec L₁ hnode hfresh
  refine ⟨h₁, h₂, hpop, hpush, hlen₂.trans hlen₁, fun p hoff => ?_, hs₂,
    (hperm.map Prod.fst).nodup_iff.mpr L.apart⟩
  have hd : d.1 ≠ p := hoff d (by simp)
  have hoff₂ : ∀ e ∈ pre ++ c :: (mid ++ post), e.1 ≠ p := by
    intro e he
    apply hoff e
    simp only [List.mem_append, List.mem_cons] at he ⊢
    tauto
  rw [hsame₂ p hoff₂ hd]
  apply hsame₁ p
  rw [← hcut]
  exact hoff

/-! ## All passes -/

/-- What the loop leaves: the nodes of `all`, linked, with the other ones untouched. -/
structure Left (h : Heap α) (all : List (Nat × α)) (h' : Heap α) (cells : List (Nat × α)) :
    Prop where
  linked : Linked h' cells
  length : h'.length = h.length
  same : SameOff all h h'

/-- A property of the nodes taken and those left that every pass keeps holds in the
end of all nodes. -/
theorem sortLoop_run (t : Params α) (P : List (Nat × α) → List (Nat × α) → Prop)
    (hpass : ∀ pre xs d ys, P pre (xs ++ d :: ys) →
      (Preordered (cellAbove t) → FirstLeast (cellAbove t) xs d ys) → P (pre ++ [d]) (xs ++ ys))
    (fuel : Nat) {pre post : List (Nat × α)} (L : Linked h (pre ++ post)) (hP : P pre post)
    (hfuel : post.length ≤ fuel) : ∃ h' cells', sortLoop t fuel (first post none) h = some h' ∧
      Left h (pre ++ post) h' cells' ∧ P cells' [] := by
  induction fuel generalizing h pre post with
  | zero =>
    obtain rfl := List.eq_nil_of_length_eq_zero (Nat.le_zero.mp hfuel)
    rw [List.append_nil] at L
    exact ⟨h, pre, rfl, ⟨L, rfl, fun _ _ => rfl⟩, hP⟩
  | succ fuel ih =>
    cases post with
    | nil =>
      rw [List.append_nil] at L
      exact ⟨h, pre, rfl, ⟨L, rfl, fun _ _ => rfl⟩, hP⟩
    | cons c post =>
      have hroom := L.room
      simp only [List.length_append, List.length_cons] at hroom hfuel
      have hsmall := smallestNext_spec t h.length L.around.2.2 ⟨_, _, L.read_cell⟩
        (by omega : post.length ≤ h.length)
      obtain ⟨xs, ys, hcut, hleast⟩ := least_cut (cellAbove t) c post
      generalize least (cellAbove t) c post = d at hsmall hcut hleast
      have hP' := hP
      rw [hcut] at hP'
      have hdone := hpass pre xs d ys hP' hleast
      cases xs with
      | nil =>
        -- the cursor is the smallest
        rw [List.nil_append] at hcut
        obtain ⟨rfl, rfl⟩ := List.cons.inj hcut
        have L' : Linked h ((pre ++ [c]) ++ post) := by simpa using L
        obtain ⟨h', cells', hrun, R, hend⟩ := ih L' hdone (by omega)
        refine ⟨h', cells', ?_, by simpa using R, hend⟩
        rw [first, sortLoop, L.read_cell, Option.bind_some, hsmall,
          Option.bind_some, if_pos rfl, hrun]
      | cons x mid =>
        rw [List.cons_append] at hcut
        obtain ⟨rfl, rfl⟩ := List.cons.inj hcut
        have hne : d.1 ≠ c.1 := (apart_middle.mp L.apart).1 d (by simp)
        obtain ⟨h₁, h₂, hpop, hpush, hlen, hsame, L₂⟩ := move_front L
        have L' : Linked h₂ ((pre ++ [d]) ++ c :: (mid ++ ys)) := by simpa using L₂
        simp only [List.length_append, List.length_cons] at hfuel
        obtain ⟨h', cells', hrun, R, hend⟩ := ih L' hdone (by
          simp only [List.length_append, List.length_cons]
          omega)
        obtain ⟨r, hr, rfl⟩ := Option.map_eq_some_iff.mp hpush
        refine ⟨h', cells', ?_, ⟨R.linked, R.length.trans hlen, fun p hoff => ?_⟩, hend⟩
        · rw [first, sortLoop, L.read_cell, Option.bind_some, hsmall, Option.bind_some, if_neg hne,
            hpop, Option.bind_some, hr, Option.bind_some]
          exact hrun
        · rw [← hsame p hoff]
          apply R.same p
          intro e he
          apply hoff e
          simp only [List.mem_append, List.mem_cons, List.mem_nil_iff, or_false] at he ⊢
          tauto

/-- The loop starts at the head, from whichever node `Sort` is called on. -/
theorem sortChain_run (t : Params α) (P : List (Nat × α) → List (Nat × α) → Prop)
    (hpass : ∀ pre xs d ys, P pre (xs ++ d :: ys) →
      (Preordered (cellAbove t) → FirstLeast (cellAbove t) xs d ys) → P (pre ++ [d]) (xs ++ ys))
    {c : Nat × α} (L : Linked h cells) (hc : c ∈ cells) (hP : P [] cells) :
    ∃ h' cells', sortChain t h c.1 = some h' ∧ Left h cells h' cells' ∧ P cells' [] := by
  have L₀ : Linked h ([] ++ cells) := L
  obtain ⟨h', cells', hrun, R, hend⟩ := sortLoop_run t P hpass h.length L₀ hP L.room
  obtain ⟨d, rest, rfl⟩ := List.exists_cons_of_ne_nil (List.ne_nil_of_mem hc)
  refine ⟨h', cells', ?_, R, hend⟩
  rw [sortChain, L.head hc]
  exact hrun

theorem sortChain_same (t : Params α) (L : Linked h cells) {c d : Nat × α} (hc : c ∈ cells)
    (hd : d ∈ cells) : sortChain t h c.1 = sortChain t h d.1 := by
  rw [sortChain, sortChain, L.head hc, L.head hd]

/-- Whatever the comparison says, the nodes stay the same. -/
theorem sortChain_perm (t : Params α) {c : Nat × α} (L : Linked h cells) (hc : c ∈ cells) :
    ∃ h' cells', sortChain t h c.1 = some h' ∧ Left h cells h' cells' ∧ cells'.Perm cells := by
  obtain ⟨h', cells', hrun, R, hperm⟩ := sortChain_run t (fun pre post => (pre ++ post).Perm cells)
    (fun pre xs d ys hall _ => (perm_pass pre xs ys d).trans hall) L hc (.refl _)
  exact ⟨h', cells', hrun, R, by simpa using hperm⟩

/-- Where `operator>` gives a total preorder, the nodes are put in order and equal
ones stay in theirs. -/
theorem sortChain_stable (t : Params α) (hgt : Preordered t.above) {c : Nat × α}
    (L : Linked h cells) (hc : c ∈ cells) :
    ∃ h' cells', sortChain t h c.1 = some h' ∧ Left h cells h' cells' ∧
      StableSort (cellAbove t) cells cells' := by
  have hcell : Preordered (cellAbove t) := hgt.comap Prod.snd
  obtain ⟨h', cells', hrun, R, S⟩ := sortChain_run t (Selected (cellAbove t) cells)
    (fun pre xs d ys S F => S.pass hcell (F hcell)) L hc (.start _ _)
  exact ⟨h', cells', hrun, R, S.finish⟩

/-! ## The manager -/

theorem ends_on_chain (H : Holds s m cells) (hne : cells ≠ []) :
    (∃ c ∈ cells, m.nodeHead = some c.1) ∧ ∃ c ∈ cells, m.nodeTail = some c.1 := by
  constructor
  · obtain ⟨c, cells, rfl⟩ := List.exists_cons_of_ne_nil hne
    exact ⟨c, List.mem_cons_self, H.head⟩
  · obtain ⟨p, hp⟩ := last_isSome none cells hne
    obtain ⟨c, hc, rfl⟩ := last_mem hp
    exact ⟨c, hc, by rw [H.tail, hp]⟩

/-- Head and tail are those of the sorted chain. -/
theorem sort_holds {t : Params α} {h' : Heap α} {cells' : List (Nat × α)} (H : Holds s m cells)
    (hne : cells ≠ []) (hsort : ∀ c ∈ cells, sortChain t s.heap c.1 = some h')
    (L : Linked h' cells') (hperm : cells'.Perm cells) :
    ∃ m', m.sort t s = some ({ s with heap := h' }, m') ∧ Holds { s with heap := h' } m' cells' ∧
      m'.nodeCurr = m.nodeCurr := by
  obtain ⟨⟨c, hc, hhead⟩, ⟨d, hd, htail⟩⟩ := ends_on_chain H hne
  have hends := findEnds_spec (s := { s with heap := h' }) (m := m) L
    ⟨c, hperm.mem_iff.mpr hc, hhead⟩ ⟨d, hperm.mem_iff.mpr hd, htail⟩
  refine ⟨{ m with nodeHead := first cells' none, nodeTail := last none cells' }, ?_,
    ⟨L, rfl, rfl, ?_⟩, rfl⟩
  · rw [CTDChainMgr.sort, hhead, Option.bind_some, hsort c hc, Option.bind_some, hends]
    rfl
  · exact H.num.trans (congrArg Nat.cast hperm.length_eq.symm)

/-- `Sort` ends, and sorts the nodes in place and stably; the manager that held
them holds them then, with the ends where they belong. -/
theorem sort_stable_in_place (t : Params α) (hgt : Preordered t.above) (s : Store α)
    (cells : List (Nat × α)) (L : Linked s.heap cells) (hne : cells ≠ []) :
    ∃ h' cells', (∀ c ∈ cells, sortChain t s.heap c.1 = some h') ∧ Left s.heap cells h' cells' ∧
      StableSort (cellAbove t) cells cells' ∧
      ∀ m, Holds s m cells → ∃ m', m.sort t s = some ({ s with heap := h' }, m') ∧
        Holds { s with heap := h' } m' cells' := by
  obtain ⟨d, rest, hcons⟩ := List.exists_cons_of_ne_nil hne
  have hd : d ∈ cells := by
    rw [hcons]
    exact List.mem_cons_self
  obtain ⟨h', cells', hrun, R, S⟩ := sortChain_stable t hgt L hd
  have hall : ∀ c ∈ cells, sortChain t s.heap c.1 = some h' := fun c hc =>
    (sortChain_same t L hc hd).trans hrun
  refine ⟨h', cells', hall, R, S, fun m H => ?_⟩
  obtain ⟨m', hsort, H', -⟩ := sort_holds H hne hall R.linked S.perm
  exact ⟨m', hsort, H'⟩

/-- Items of two digits that are compared by the first. -/
def byTens : Params Nat :=
  ⟨false, .CtEM_ALLOW, false, fun a b => decide (b / 10 < a / 10),
    fun a b => decide (a / 10 = b / 10),
    fun a b => decide (b / 10 < a / 10)⟩

theorem byTens_preordered : Preordered byTens.above where
  total a b := by
    simp only [byTens, decide_eq_false_iff_not, not_lt]
    exact Nat.le_total _ _
  trans a b c := by
    simp only [byTens, decide_eq_false_iff_not, not_lt]
    exact Nat.le_trans

/-- 21, 12, 22, 11: the two smaller ones go in front, 12 before 11. -/
def fourItems : Store Nat :=
  ⟨[some ⟨none, some 1, 21⟩, some ⟨some 0, some 2, 12⟩, some ⟨some 1, some 3, 22⟩,
    some ⟨some 2, none, 11⟩], []⟩

theorem fourItems_linked : Linked fourItems.heap [(0, 21), (1, 12), (2, 22), (3, 11)] :=
  ⟨⟨rfl, rfl, rfl, rfl, trivial⟩, by unfold Apart; decide⟩

theorem sort_stable_fourItems : ∃ h' cells',
    (∀ c ∈ [(0, 21), (1, 12), (2, 22), (3, 11)], sortChain byTens fourItems.heap c.1 = some h') ∧
      Left fourItems.heap [(0, 21), (1, 12), (2, 22), (3, 11)] h' cells' ∧
      StableSort (cellAbove byTens) [(0, 21), (1, 12), (2, 22), (3, 11)] cells' ∧
      ∀ m, Holds fourItems m [(0, 21), (1, 12), (2, 22), (3, 11)] →
        ∃ m', m.sort byTens fourItems = some ({ fourItems with heap := h' }, m') ∧
          Holds { fourItems with heap := h' } m' cells' :=
  sort_stable_in_place byTens byTens_preordered fourItems [(0, 21), (1, 12), (2, 22), (3, 11)]
    fourItems_linked (List.cons_ne_nil _ _)

example : ((sortChain byTens fourItems.heap 2).bind fun h => follow h 4 (some 1)) =
    some [(1, 12), (3, 11), (0, 21), (2, 22)] := by decide

end NetmtChainSort
