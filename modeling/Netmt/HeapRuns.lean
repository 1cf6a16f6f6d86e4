import Netmt.Heap
import Mathlib.Data.Finset.Card

/-!
# Runs of the heap

`heap_insert`, `heap_remove` and `heap_dequeue` on the tree of nodes: the walk to the
last place, the node that comes in there or leaves it, and any run of them.
-/
namespace NetmtHeapRuns

open HeapOrder NetmtHeap

section Tree

variable {h : Heap} {slots : Nat → Nat} {n : Nat}

/-! ## The place of the last node -/

/-- The place that a path leads to from `m`. -/
def climb : Nat → Nat → Nat → Nat
  | m, _, 0 => m
  | m, path, d + 1 => climb (2 * m + path % 2) (path / 2) d

theorem le_climb (d : Nat) : ∀ m path, m ≤ climb m path d := by
  induction d with
  | zero => exact fun m _ => Nat.le_refl m
  | succ d ih =>
    intro m path
    have hstep := ih (2 * m + path % 2) (path / 2)
    rw [climb]
    omega

/-- The bits of a number lead from the root to its place. -/
theorem pathLoop_climb (m : Nat) (hm : 1 ≤ m) : ∀ d path,
    climb 1 (pathLoop m d path).1 (pathLoop m d path).2 = climb m path d := by
  induction m using Nat.strong_induction_on with
  | _ m ih =>
    intro d path
    rw [pathLoop]
    by_cases htwo : 2 ≤ m
    · rw [if_pos htwo, ih (m / 2) (by omega) (by omega), climb,
        show 2 * (m / 2) + (2 * path + m % 2) % 2 = m by omega,
        show (2 * path + m % 2) / 2 = path by omega]
    · rw [if_neg htwo, show m = 1 by omega]

theorem pathLoop_one : pathLoop 1 0 0 = (0, 0) := by
  rw [pathLoop, if_neg (by decide)]

theorem pathLoop_pos {m : Nat} (hm : 2 ≤ m) : 1 ≤ (pathLoop m 0 0).2 := by
  have hclimb := pathLoop_climb m (by omega) 0 0
  rcases Nat.eq_zero_or_pos (pathLoop m 0 0).2 with hzero | hpos
  · rw [hzero, climb, climb] at hclimb
    omega
  · exact hpos

/-- The walk stops above the place that the path leads to. -/
theorem walk_spec {last : Nat} (hlast : last ≤ n + 1)
    (hnodes : ∀ k, 1 ≤ k → k ≤ n → h.nodes (slots k) = some (nodeAt slots n k)) (d : Nat) :
    ∀ m path, 1 ≤ m → climb m path (d + 1) = last →
      ∃ path', walk h (d + 1) path (place slots n m) = some (place slots n (last / 2), path') ∧
      path' % 2 = last % 2 := by
  induction d with
  | zero =>
    intro m path _ hclimb
    rw [climb, climb] at hclimb
    refine ⟨path, ?_, by omega⟩
    rw [walk, show last / 2 = m by omega]
    intro d hd
    omega
  | succ d ih =>
    intro m path hm hclimb
    have hle := le_climb d (2 * (2 * m + path % 2) + path / 2 % 2) (path / 2 / 2)
    rw [climb, climb] at hclimb
    obtain ⟨path', hwalk, hpath⟩ :=
      ih (2 * m + path % 2) (path / 2) (by omega) (by rw [climb]; exact hclimb)
    refine ⟨path', ?_, hpath⟩
    rw [walk, place_some hm (by omega), Option.bind_some, hnodes m hm (by omega),
      Option.bind_some, ← hwalk]
    congr 1
    rw [nodeAt]
    rcases Nat.mod_two_eq_zero_or_one path with hp | hp
    · rw [hp, if_neg (by decide)]
      rfl
    · rw [hp, if_pos rfl]

/-- Both ways of finding the last place and the node above it. -/
theorem walk_last (hrep : Rep h slots n) {last : Nat} (htwo : 2 ≤ last) (hlast : last ≤ n + 1)
    {h₀ : Heap} (hnodes : h₀.nodes = h.nodes) :
    ∃ path', walk h₀ (pathLoop last 0 0).2 (pathLoop last 0 0).1 h.root =
      some (some (slots (last / 2)), path') ∧
      path' % 2 = last % 2 := by
  obtain ⟨d, hd⟩ := Nat.exists_eq_add_of_le' (pathLoop_pos htwo)
  have hclimb := pathLoop_climb last (by omega) 0 0
  rw [hd, climb.eq_1 last] at hclimb
  have hall : ∀ k, 1 ≤ k → k ≤ n → h₀.nodes (slots k) = some (nodeAt slots n k) := by
    rw [hnodes]
    exact hrep.nodes
  obtain ⟨path', hwalk, hpath⟩ :=
    walk_spec hlast hall d 1 (pathLoop last 0 0).1 (Nat.le_refl 1) hclimb
  refine ⟨path', ?_, hpath⟩
  rw [hd, hrep.root, hwalk, place_some (by omega) (by omega)]

/-! ## A node more -/

theorem place_push (a k : Nat) :
    place (Function.update slots (n + 1) a) (n + 1) k = if k = n + 1 then some a
      else place slots n k := by
  by_cases hk : k = n + 1
  · rw [if_pos hk, hk, place_some (by omega) (Nat.le_refl _), Function.update_self]
  · rw [if_neg hk, place, place, Function.update_of_ne hk]
    by_cases hin : 1 ≤ k ∧ k ≤ n
    · rw [if_pos hin, if_pos ⟨hin.1, by omega⟩]
    · rw [if_neg hin, if_neg (by omega)]

theorem stands_push {a : Nat} (b : Nat) : Stands (Function.update slots (n + 1) a) (n + 1) b ↔
    b = a ∨ Stands slots n b := by
  constructor
  · rintro ⟨k, hk, hn, rfl⟩
    by_cases hlast : k = n + 1
    · left
      rw [hlast, Function.update_self]
    · right
      exact ⟨k, hk, by omega, by rw [Function.update_of_ne hlast]⟩
  · rintro (rfl | ⟨k, hk, hn, rfl⟩)
    · exact ⟨n + 1, by omega, Nat.le_refl _, Function.update_self ..⟩
    · exact ⟨k, hk, by omega, Function.update_of_ne (by omega) _ _⟩

theorem apart_push (happ : Apart slots n) {a : Nat} (ha : ¬ Stands slots n a) :
    Apart (Function.update slots (n + 1) a) (n + 1) := by
  intro i j hi hin hj hjn hsame
  by_cases hil : i = n + 1
  · by_cases hjl : j = n + 1
    · omega
    · rw [hil, Function.update_self, Function.update_of_ne hjl] at hsame
      exact absurd ⟨j, hj, by omega, hsame.symm⟩ ha
  · rw [Function.update_of_ne hil] at hsame
    by_cases hjl : j = n + 1
    · rw [hjl, Function.update_self] at hsame
      exact absurd ⟨i, hi, by omega, hsame⟩ ha
    · rw [Function.update_of_ne hjl] at hsame
      exact happ i j hi (by omega) hj (by omega) hsame

/-- A node alone goes to the place behind the last. -/
theorem attach_spec (hrep : Rep h slots n) {a : Nat} (ha : ¬ Stands slots n a) {p : Option Nat}
    (hnode : h.nodes a = some ⟨p, none, none⟩) {path : Nat}
    (hpath : 1 ≤ n → path % 2 = (n + 1) % 2) :
    ∃ h', attach a (place slots n ((n + 1) / 2)) path { h with nelts := h.nelts + 1 } = some h' ∧
      Rep h' (Function.update slots (n + 1) a) (n + 1) ∧ ∀ b, b ≠ a → ¬ Stands slots n b →
      h'.nodes b = h.nodes b := by
  have hfirst : (({ h with nelts := h.nelts + 1 } : Heap).write (some a)
    (setParent (place slots n ((n + 1) / 2)))) =
      some (({ h with nelts := h.nelts + 1 } : Heap).edit (some a)
        (setParent (place slots n ((n + 1) / 2)))) := by
    apply write_eq
    intro b hb
    rw [← Option.some.inj hb]
    show (h.nodes a).isSome
    rw [hnode]
    rfl
  have hother : ∀ k, 1 ≤ k → k ≤ n → slots k ≠ a := fun k hk hn heq => ha ⟨k, hk, hn, heq⟩
  have hnew : setParent (place slots n ((n + 1) / 2)) ⟨p, none, none⟩ =
      nodeAt (Function.update slots (n + 1) a) (n + 1) (n + 1) := by
    rw [nodeAt, place_push, place_push, place_push, if_neg (by omega), if_neg (by omega),
      if_neg (by omega),
      place_beyond (show n < 2 * (n + 1) by omega),
      place_beyond (show n < 2 * (n + 1) + 1 by omega)]
    rfl
  rw [attach, hfirst, Option.bind_some]
  rcases Nat.eq_zero_or_pos n with rfl | hpos
  · -- the first node
    rw [place_zero]
    refine ⟨_, rfl, ⟨congrArg (· + 1) hrep.nelts, ?_, ?_, apart_push hrep.apart ha⟩, ?_⟩
    · rw [place_push, if_pos rfl]
    · intro k hk hkn
      obtain rfl : k = 1 := by omega
      rw [Function.update_self, ← hnew, place_zero]
      show (Heap.edit _ _ _).nodes a = _
      rw [edit_nodes, if_pos rfl, hnode]
      rfl
    · intro b hb _
      show (Heap.edit _ _ _).nodes b = _
      rw [edit_nodes, if_neg (fun heq => hb (Option.some.inj heq).symm)]
  · have hup : 1 ≤ (n + 1) / 2 ∧ (n + 1) / 2 ≤ n := ⟨by omega, by omega⟩
    rw [place_some hup.1 hup.2]
    simp only
    rw [write_eq fun b hb => by
      rw [edit_isSome, ← Option.some.inj hb]
      exact hrep.there (place_some hup.1 hup.2)]
    refine ⟨_, rfl, ⟨congrArg (· + 1) hrep.nelts, ?_, ?_, apart_push hrep.apart ha⟩, ?_⟩
    · rw [place_push, if_neg (by omega)]
      exact hrep.root
    · intro k hk hkn
      rw [place_some hup.1 hup.2] at hnew
      by_cases hlast : k = n + 1
      · rw [hlast, Function.update_self, ← hnew, edit_nodes,
          if_neg (fun heq => hother _ hup.1 hup.2 (Option.some.inj heq)),
          edit_nodes, if_pos rfl, hnode]
        rfl
      · have hkn' : k ≤ n := by omega
        have hparent : some (slots ((n + 1) / 2)) = some (slots k) ↔ (n + 1) / 2 = k := by
          rw [← place_some hup.1 hup.2]
          exact place_eq_iff hrep.apart hk hkn'
        rw [Function.update_of_ne hlast, edit_nodes, edit_nodes,
          if_neg (fun heq => hother k hk hkn' (Option.some.inj heq).symm), nodeAt, place_push,
          place_push, place_push,
          if_neg (show ¬ k / 2 = n + 1 by omega)]
        show (if _ then Option.map _ (h.nodes (slots k)) else h.nodes (slots k)) = _
        rw [hrep.nodes k hk hkn']
        by_cases habove : (n + 1) / 2 = k
        · rw [if_pos (hparent.mpr habove), Option.map_some, addChild, hpath hpos]
          rcases Nat.mod_two_eq_zero_or_one (n + 1) with hbit | hbit
          · rw [if_neg (by omega), if_pos (show 2 * k = n + 1 by omega),
              if_neg (show ¬ 2 * k + 1 = n + 1 by omega)]
            rfl
          · rw [if_pos hbit, if_neg (show ¬ 2 * k = n + 1 by omega),
              if_pos (show 2 * k + 1 = n + 1 by omega)]
            rfl
        · rw [if_neg (fun heq => habove (hparent.mp heq)), if_neg (show ¬ 2 * k = n + 1 by omega),
            if_neg (show ¬ 2 * k + 1 = n + 1 by omega)]
          rfl
    · intro b hb hb'
      rw [edit_nodes, if_neg (fun heq => hb' ⟨_, hup.1, hup.2, Option.some.inj heq⟩), edit_nodes,
        if_neg (fun heq => hb (Option.some.inj heq).symm)]

/-- The tree of nodes with a heap order. -/
structure IsHeap {β : Type} [LinearOrder β] (key : Nat → β) (h : Heap) (slots : Nat → Nat)
    (n : Nat) : Prop where
  rep : Rep h slots n
  ordered : Ordered key slots n

/-- `heap_insert` of a node alone. -/
theorem heapInsert_spec {β : Type} [LinearOrder β] {key : Nat → β} (hheap : IsHeap key h slots n)
    {a : Nat} (ha : ¬ Stands slots n a) {p : Option Nat}
    (hnode : h.nodes a = some ⟨p, none, none⟩) :
    ∃ h' slots', heapInsert key a h = some h' ∧ IsHeap key h' slots' (n + 1) ∧
      (∀ b, Stands slots' (n + 1) b ↔ b = a ∨ Stands slots n b) ∧
      ∀ b, b ≠ a → ¬ Stands slots n b → h'.nodes b = h.nodes b := by
  have hwalk : ∃ path', walk { h with nelts := h.nelts + 1 } (pathLoop (n + 1) 0 0).2
    (pathLoop (n + 1) 0 0).1 h.root =
      some (place slots n ((n + 1) / 2), path') ∧ (1 ≤ n → path' % 2 = (n + 1) % 2) := by
    rcases Nat.eq_zero_or_pos n with rfl | hpos
    · refine ⟨0, ?_, fun h0 => absurd h0 (by decide)⟩
      rw [pathLoop_one, hheap.rep.root, place_beyond (show 0 < 1 by decide), place_zero]
      rfl
    · obtain ⟨path', hwalk, hpath⟩ := walk_last hheap.rep (show 2 ≤ n + 1 by omega) (Nat.le_refl _)
        (show ({ h with nelts := h.nelts + 1 } : Heap).nodes = h.nodes from rfl)
      exact ⟨path', by rw [hwalk, place_some (by omega) (by omega)], fun _ => hpath⟩
  obtain ⟨path', hwalk, hpath⟩ := hwalk
  obtain ⟨h₁, hattach, hrep₁, hframe₁⟩ := attach_spec hheap.rep ha hnode hpath
  obtain ⟨h', slots', hsift, hsettled, hordered⟩ :=
    siftUp_spec key (n + 2) hrep₁ (show 1 ≤ n + 1 by omega)
    (Nat.le_refl _) (by omega) (hheap.ordered.push a)
  rw [Function.update_self] at hsift
  refine ⟨h', slots', ?_, ⟨hsettled.rep, hordered⟩,
    fun b => (hsettled.stands b).trans (stands_push b), ?_⟩
  · have hn := hheap.rep.nelts
    simp only [heapInsert, hn] at hwalk hattach ⊢
    rw [hwalk, Option.bind_some]
    simp only [hattach, Option.bind_some, hsift]
  · intro b hb hb'
    rw [hsettled.frame b fun hin => ((stands_push b).mp hin).elim hb hb', hframe₁ b hb hb']

/-! ## A node less -/

theorem place_pop (k : Nat) : place slots n k = if k = n + 1 then none
    else place slots (n + 1) k := by
  by_cases hk : k = n + 1
  · rw [if_pos hk, hk, place_beyond (Nat.lt_succ_self n)]
  · rw [if_neg hk, place, place]
    by_cases hin : 1 ≤ k ∧ k ≤ n
    · rw [if_pos hin, if_pos ⟨hin.1, by omega⟩]
    · rw [if_neg hin, if_neg (by omega)]

theorem last_stands_not (happ : Apart slots (n + 1)) : ¬ Stands slots n (slots (n + 1)) := by
  rintro ⟨k, hk, hn, hsame⟩
  have hk' := happ k (n + 1) hk (by omega) (by omega) (Nat.le_refl _) hsame
  omega

/-- The last node is taken off the node above it. -/
theorem detach_spec (hrep : Rep h slots (n + 1)) (hpos : 1 ≤ n) {path : Nat}
    (hpath : path % 2 = (n + 1) % 2) :
    ∃ h', ({ h with nelts := h.nelts - 1 } : Heap).write (some (slots ((n + 1) / 2)))
      (clearChild path) = some h' ∧
      Rep h' slots n ∧ h'.nodes (slots (n + 1)) = some ⟨some (slots ((n + 1) / 2)), none, none⟩ ∧
      ∀ b, ¬ Stands slots (n + 1) b → h'.nodes b = h.nodes b := by
  have hup : 1 ≤ (n + 1) / 2 ∧ (n + 1) / 2 ≤ n := ⟨by omega, by omega⟩
  have hparent : ∀ {k}, 1 ≤ k → k ≤ n + 1 →
      (some (slots ((n + 1) / 2)) = some (slots k) ↔ (n + 1) / 2 = k) := by
    intro k hk hkn
    rw [← place_some (n := n + 1) hup.1 (by omega)]
    exact place_eq_iff hrep.apart hk hkn
  refine ⟨_, write_eq (fun b hb => ?_) _, ⟨?_, ?_, ?_, ?_⟩, ?_, ?_⟩
  · rw [← Option.some.inj hb]
    exact hrep.there (place_some (n := n + 1) hup.1 (by omega))
  · show h.nelts - 1 = n
    rw [hrep.nelts, Nat.add_sub_cancel]
  · rw [place_pop, if_neg (by omega)]
    exact hrep.root
  · intro k hk hkn
    rw [edit_nodes, nodeAt, place_pop (k / 2), place_pop (2 * k), place_pop (2 * k + 1),
      if_neg (show ¬ k / 2 = n + 1 by omega)]
    show (if _ then Option.map _ (h.nodes (slots k)) else h.nodes (slots k)) = _
    rw [hrep.nodes k hk (by omega)]
    by_cases habove : (n + 1) / 2 = k
    · rw [if_pos ((hparent hk (by omega)).mpr habove), Option.map_some, clearChild, hpath]
      rcases Nat.mod_two_eq_zero_or_one (n + 1) with hbit | hbit
      · rw [if_neg (by omega), if_pos (show 2 * k = n + 1 by omega),
          if_neg (show ¬ 2 * k + 1 = n + 1 by omega)]
        rfl
      · rw [if_pos hbit, if_neg (show ¬ 2 * k = n + 1 by omega),
          if_pos (show 2 * k + 1 = n + 1 by omega)]
        rfl
    · rw [if_neg (fun heq => habove ((hparent hk (by omega)).mp heq)),
        if_neg (show ¬ 2 * k = n + 1 by omega),
        if_neg (show ¬ 2 * k + 1 = n + 1 by omega)]
      rfl
  · exact fun i j hi hin hj hjn => hrep.apart i j hi (by omega) hj (by omega)
  · rw [edit_nodes, if_neg (fun heq => by
      have hk := (hparent (by omega) (Nat.le_refl _)).mp heq
      omega)]
    show h.nodes _ = _
    rw [hrep.nodes (n + 1) (by omega) (Nat.le_refl _), nodeAt, place_some hup.1 (by omega),
      place_beyond (show n + 1 < 2 * (n + 1) by omega),
      place_beyond (show n + 1 < 2 * (n + 1) + 1 by omega)]
  · intro b hb
    rw [edit_nodes, if_neg fun heq => hb ⟨(n + 1) / 2, hup.1, by omega, Option.some.inj heq⟩]

theorem place_replace {v : Nat} (hv : 1 ≤ v ∧ v ≤ n) (r k : Nat) :
    place (Function.update slots v r) n k = if k = v then some r else place slots n k := by
  by_cases hk : k = v
  · rw [if_pos hk, hk, place_some hv.1 hv.2, Function.update_self]
  · rw [if_neg hk, place, place, Function.update_of_ne hk]

theorem stands_replace (happ : Apart slots n) {v r : Nat} (hv : 1 ≤ v ∧ v ≤ n) (b : Nat) :
    Stands (Function.update slots v r) n b ↔ b = r ∨ (b ≠ slots v ∧ Stands slots n b) := by
  constructor
  · rintro ⟨k, hk, hn, rfl⟩
    by_cases hkv : k = v
    · left
      rw [hkv, Function.update_self]
    · right
      rw [Function.update_of_ne hkv]
      exact ⟨fun heq => hkv (happ k v hk hn hv.1 hv.2 heq), k, hk, hn, rfl⟩
  · rintro (rfl | ⟨hne, k, hk, hn, rfl⟩)
    · exact ⟨v, hv.1, hv.2, Function.update_self ..⟩
    · exact ⟨k, hk, hn, Function.update_of_ne (fun h => hne (by rw [h])) _ _⟩

theorem apart_replace (happ : Apart slots n) {v r : Nat} (hr : ¬ Stands slots n r) :
    Apart (Function.update slots v r) n := by
  intro i j hi hin hj hjn hsame
  by_cases hiv : i = v
  · by_cases hjv : j = v
    · rw [hiv, hjv]
    · rw [hiv, Function.update_self, Function.update_of_ne hjv] at hsame
      exact absurd ⟨j, hj, hjn, hsame.symm⟩ hr
  · rw [Function.update_of_ne hiv] at hsame
    by_cases hjv : j = v
    · rw [hjv, Function.update_self] at hsame
      exact absurd ⟨i, hi, hin, hsame⟩ hr
    · rw [Function.update_of_ne hjv] at hsame
      exact happ i j hi hin hj hjn hsame

/-- `heap_replace` by a node outside the tree. -/
theorem heapReplace_spec (hrep : Rep h slots n) {v r : Nat} (hv : 1 ≤ v ∧ v ≤ n)
    (hr : ¬ Stands slots n r) (hthere : (h.nodes r).isSome) :
    ∃ h', heapReplace (slots v) r h = some h' ∧ Rep h' (Function.update slots v r) n ∧
      (h'.nodes (slots v)).isSome ∧ ∀ b, b ≠ r → ¬ Stands slots n b → h'.nodes b = h.nodes b := by
  have hnode := hrep.nodes v hv.1 hv.2
  have happ := hrep.apart
  have hat : ∀ {i k}, 1 ≤ k → k ≤ n → (place slots n i = some (slots k) ↔ i = k) := fun hk hkn =>
    place_eq_iff happ hk hkn
  have hplace : ∀ {i a : Nat}, place slots n i = some a → (h.nodes a).isSome :=
    fun hi => hrep.there hi
  have hne : ∀ k, 1 ≤ k → k ≤ n → some r ≠ some (slots k) :=
    fun k hk hkn heq => hr ⟨k, hk, hkn, (Option.some.inj heq).symm⟩
  have hread :
    (((h.relinked (place slots n (v / 2)) (slots v) r).edit (place slots n (2 * v))
      (setParent (some r))).edit
      (place slots n (2 * v + 1)) (setParent (some r))).nodes (slots v) =
        some (nodeAt slots n v) := by
    rw [edit_nodes, if_neg (fun heq => by have := (hat hv.1 hv.2).mp heq; omega), edit_nodes,
      if_neg (fun heq => by have := (hat hv.1 hv.2).mp heq; omega), relinked_nodes,
      if_neg (fun heq => by have := (hat hv.1 hv.2).mp heq; omega), hnode]
  have hread' : ((h.relinked (place slots n (v / 2)) (slots v) r).edit (place slots n (2 * v))
      (setParent (some r))).nodes (slots v) = some (nodeAt slots n v) := by
    rw [edit_nodes, if_neg (fun heq => by have := (hat hv.1 hv.2).mp heq; omega), relinked_nodes,
      if_neg (fun heq => by have := (hat hv.1 hv.2).mp heq; omega), hnode]
  let h' := (((h.relinked (place slots n (v / 2)) (slots v) r).edit (place slots n (2 * v))
    (setParent (some r))).edit
    (place slots n (2 * v + 1)) (setParent (some r))).edit (some r) fun _ => nodeAt slots n v
  have hrun : heapReplace (slots v) r h = some h' := by
    rw [heapReplace, hnode, Option.bind_some]
    rw [show (nodeAt slots n v).parent = place slots n (v / 2) from rfl,
      relink_eq fun a ha => hplace ha, Option.bind_some]
    rw [show (nodeAt slots n v).left = place slots n (2 * v) from rfl,
      write_eq fun a ha => by rw [relinked_isSome]; exact hplace ha, Option.bind_some]
    rw [show (nodeAt slots n v).right = place slots n (2 * v + 1) from rfl,
      write_eq fun a ha => by
        rw [edit_isSome, relinked_isSome]; exact hplace ha, Option.bind_some, hread,
      Option.bind_some]
    rw [write_eq fun a ha => by
      rw [edit_isSome, edit_isSome, relinked_isSome, ← Option.some.inj ha]
      exact hthere]
  have hnodes : ∀ k, 1 ≤ k → k ≤ n → h'.nodes (slots k) =
      some (if v / 2 = k then replaceChild (slots v) r (nodeAt slots n k)
        else if 2 * v = k ∨ 2 * v + 1 = k then setParent (some r) (nodeAt slots n k)
          else nodeAt slots n k) := by
    intro k hk hkn
    show (Heap.edit _ _ _).nodes (slots k) = _
    rw [edit_nodes, if_neg (hne k hk hkn), edit_nodes, edit_nodes, relinked_nodes]
    simp only [hat hk hkn, hrep.nodes k hk hkn]
    by_cases hup : v / 2 = k
    · rw [if_pos hup, if_pos hup, if_neg (show ¬ 2 * v + 1 = k by omega),
        if_neg (show ¬ 2 * v = k by omega)]
      rfl
    rw [if_neg hup, if_neg hup]
    by_cases hright : 2 * v + 1 = k
    · rw [if_pos hright, if_pos (show 2 * v = k ∨ 2 * v + 1 = k from .inr hright),
        if_neg (show ¬ 2 * v = k by omega)]
      rfl
    rw [if_neg hright]
    by_cases hleft : 2 * v = k
    · rw [if_pos hleft, if_pos (show 2 * v = k ∨ 2 * v + 1 = k from .inl hleft)]
      rfl
    · rw [if_neg hleft,
        if_neg (show ¬ (2 * v = k ∨ 2 * v + 1 = k) from fun h => h.elim hleft hright)]
  refine ⟨h', hrun, ⟨hrep.nelts, ?_, ?_, apart_replace happ hr⟩, ?_, ?_⟩
  · rw [place_replace hv]
    show (if place slots n (v / 2) = none then some r else h.root) = _
    by_cases htop : 1 = v
    · rw [if_pos htop, show v / 2 = 0 by omega, place_zero, if_pos rfl]
    · rw [if_neg htop, place_some (show 1 ≤ v / 2 by omega) (by omega), if_neg (by simp), hrep.root]
  · intro k hk hkn
    rw [nodeAt, place_replace hv, place_replace hv, place_replace hv]
    by_cases hkv : k = v
    · -- the new node has the old one's neighbours
      rw [hkv, Function.update_self]
      show (Heap.edit _ _ _).nodes r = _
      have hsame : ∃ node,
        (((h.relinked (place slots n (v / 2)) (slots v) r).edit (place slots n (2 * v))
          (setParent (some r))).edit (place slots n (2 * v + 1)) (setParent (some r))).nodes r =
            some node := by
        rw [← Option.isSome_iff_exists, edit_isSome, edit_isSome, relinked_isSome]
        exact hthere
      obtain ⟨node, hsome⟩ := hsame
      rw [edit_nodes, if_pos rfl, hsome, Option.map_some, if_neg (show ¬ v / 2 = v by omega),
        if_neg (show ¬ 2 * v = v by omega), if_neg (show ¬ 2 * v + 1 = v by omega)]
      rfl
    rw [Function.update_of_ne hkv, hnodes k hk hkn]
    by_cases hup : v / 2 = k
    · have hleft : (nodeAt slots n k).left = some (slots v) ↔ 2 * k = v := hat hv.1 hv.2
      have hright : (nodeAt slots n k).right = some (slots v) ↔ 2 * k + 1 = v := hat hv.1 hv.2
      rw [if_pos hup, replaceChild, if_neg (show ¬ k / 2 = v by omega)]
      by_cases heven : 2 * k = v
      · rw [if_pos (hleft.mpr heven), if_pos heven, if_neg (show ¬ 2 * k + 1 = v by omega)]
        rfl
      · have hodd : 2 * k + 1 = v := by omega
        rw [if_neg (fun h => heven (hleft.mp h)), if_pos (hright.mpr hodd),
          if_neg heven, if_pos hodd]
        rfl
    rw [if_neg hup, if_neg (show ¬ 2 * k = v by omega), if_neg (show ¬ 2 * k + 1 = v by omega)]
    by_cases hbelow : 2 * v = k ∨ 2 * v + 1 = k
    · rw [if_pos hbelow, if_pos (show k / 2 = v by omega)]
      rfl
    · rw [if_neg hbelow, if_neg (show ¬ k / 2 = v by omega)]
      rfl
  · rw [hnodes v hv.1 hv.2]
    rfl
  · intro b hb hb'
    have hno : ∀ i, place slots n i ≠ some b := fun i hi => hb' (place_stands hi)
    show (Heap.edit _ _ _).nodes b = _
    rw [edit_nodes, if_neg (fun heq => hb (Option.some.inj heq).symm), edit_nodes, if_neg (hno _),
      edit_nodes, if_neg (hno _), relinked_nodes, if_neg (hno _)]

/-- Nothing changes when the last node, already taken off, is to take its own place. -/
theorem heapReplace_self {h : Heap} {slots : Nat → Nat} {n a q : Nat} (hrep : Rep h slots n)
    (ha : ¬ Stands slots n a) (hq : Stands slots n q)
    (hnode : h.nodes a = some ⟨some q, none, none⟩) :
    heapReplace a a h = some h := by
  obtain ⟨k, hk, hkn, rfl⟩ := hq
  have hread := hrep.nodes k hk hkn
  have hchild : ∀ i, place slots n i ≠ some a := fun i hi => ha (place_stands hi)
  have hrelink : relink (some (slots k)) a a h = some h := by
    rw [relink, Heap.write, hread, Option.map_some, replaceChild, nodeAt, if_neg (hchild _),
      if_neg (hchild _)]
    congr
    funext b
    by_cases hb : b = slots k
    · rw [hb, Function.update_self, hread]
      rfl
    · rw [Function.update_of_ne hb]
  rw [heapReplace, hnode, Option.bind_some]
  simp only [hrelink, Option.bind_some, Heap.write, hnode, Option.map_some]
  congr
  funext b
  by_cases hb : b = a
  · rw [hb, Function.update_self, hnode]
  · rw [Function.update_of_ne hb]

/-- A node outside the tree is cut off. -/
theorem cleared_rep (hrep : Rep h slots n) {a : Nat} (ha : ¬ Stands slots n a)
    (hthere : (h.nodes a).isSome) :
    ∃ h', h.write (some a) (fun _ => HeapNode.null) = some h' ∧ Rep h' slots n ∧
      h'.nodes a = some .null ∧
      ∀ b, b ≠ a → h'.nodes b = h.nodes b := by
  obtain ⟨node, hnode⟩ := Option.isSome_iff_exists.mp hthere
  refine ⟨{ h with nodes := Function.update h.nodes a (some .null) },
    by rw [Heap.write, hnode, Option.map_some],
    ⟨hrep.nelts, hrep.root, ?_, hrep.apart⟩, ?_, ?_⟩
  · intro k hk hkn
    show Function.update h.nodes a _ (slots k) = _
    rw [Function.update_of_ne (fun heq => ha ⟨k, hk, hkn, heq⟩)]
    exact hrep.nodes k hk hkn
  · exact Function.update_self ..
  · exact fun b hb => Function.update_of_ne hb _ _

/-- The last node in the place of the one that goes. -/
theorem putLast_spec {β : Type} [LinearOrder β] {key : Nat → β} (hrep : Rep h slots n)
    (hpos : 1 ≤ n) (happ : Apart slots (n + 1)) (hordered : Ordered key slots (n + 1)) {v : Nat}
    (hv : 1 ≤ v ∧ v ≤ n + 1)
    (hlast : h.nodes (slots (n + 1)) = some ⟨some (slots ((n + 1) / 2)), none, none⟩) :
    ∃ h' slots', putLast key (slots v) (slots (n + 1)) h = some h' ∧ IsHeap key h' slots' n ∧
      (∀ b, Stands slots' n b ↔ b ≠ slots v ∧ Stands slots (n + 1) b) ∧
      h'.nodes (slots v) = some .null ∧
      ∀ b, ¬ Stands slots (n + 1) b → h'.nodes b = h.nodes b := by
  have hnot := last_stands_not happ
  have hthere : (h.nodes (slots (n + 1))).isSome := by
    rw [hlast]
    rfl
  by_cases hself : v = n + 1
  · -- the last one itself
    subst hself
    have hq : Stands slots n (slots ((n + 1) / 2)) := ⟨(n + 1) / 2, by omega, by omega, rfl⟩
    have hreplace := heapReplace_self hrep hnot hq hlast
    obtain ⟨h', hclear, hrep', hnull, hsame⟩ := cleared_rep hrep hnot hthere
    have hfuel : siftDown key (h'.nelts + 1) (slots (n + 1)) h' = some h' := by
      simp [siftDown, hnull, HeapNode.null, least]
    have hup : siftUp key (h.nelts + 1) (slots (n + 1)) h' = some h' := by
      simp [siftUp, hnull, HeapNode.null]
    have hnelts : h'.nelts = h.nelts := by rw [hrep'.nelts, hrep.nelts]
    refine ⟨h', slots, ?_, ⟨hrep', hordered.pop⟩, fun b => ?_, hnull, fun b hb => ?_⟩
    · rw [putLast, hreplace, Option.bind_some, hclear, Option.bind_some, hfuel,
        Option.bind_some, hnelts, hup]
    · constructor
      · rintro ⟨k, hk, hkn, rfl⟩
        exact ⟨fun heq => hnot ⟨k, hk, hkn, heq⟩, k, hk, by omega, rfl⟩
      · rintro ⟨hne, k, hk, hkn, rfl⟩
        have hk' : k ≠ n + 1 := fun heq => hne (by rw [heq])
        exact ⟨k, hk, by omega, rfl⟩
    · exact hsame b fun heq => hb ⟨n + 1, by omega, Nat.le_refl _, heq.symm⟩
  · have hv' : 1 ≤ v ∧ v ≤ n := ⟨hv.1, by omega⟩
    obtain ⟨h₁, hreplace, hrep₁, hthere₁, hframe₁⟩ := heapReplace_spec hrep hv' hnot hthere
    have hout : ¬ Stands (Function.update slots v (slots (n + 1))) n (slots v) := by
      rw [stands_replace hrep.apart hv']
      rintro (heq | ⟨hne, -⟩)
      · exact hnot ⟨v, hv'.1, hv'.2, heq⟩
      · exact hne rfl
    obtain ⟨h₂, hclear, hrep₂, hnull, hsame⟩ := cleared_rep hrep₁ hout hthere₁
    obtain ⟨h₃, slots₃, v', hdown, hsettled₃, hv₃, hn₃, hat, hup⟩ :=
      siftDown_spec key (n + 1) hrep₂ hv'.1 hv'.2
      (by omega) (hordered.pop.replace v (slots (n + 1)))
    rw [Function.update_self] at hdown hat
    obtain ⟨h', slots', hsift, hsettled, hordered'⟩ :=
      siftUp_spec key (n + 1) hsettled₃.rep hv₃ hn₃ (by omega) hup
    rw [hat] at hsift
    have hall := hsettled₃.trans hsettled
    refine ⟨h', slots', ?_, ⟨hall.rep, hordered'⟩, fun b => ?_, ?_, fun b hb => ?_⟩
    · rw [putLast, hreplace, Option.bind_some, hclear, Option.bind_some, hrep₂.nelts, hdown,
        Option.bind_some, hsift]
    · rw [hall.stands b, stands_replace hrep.apart hv']
      constructor
      · rintro (rfl | ⟨hne, k, hk, hkn, rfl⟩)
        · exact ⟨fun heq => hnot ⟨v, hv'.1, hv'.2, heq.symm⟩, n + 1, by omega, Nat.le_refl _, rfl⟩
        · exact ⟨hne, k, hk, by omega, rfl⟩
      · rintro ⟨hne, k, hk, hkn, rfl⟩
        by_cases hk' : k = n + 1
        · exact .inl (by rw [hk'])
        · exact .inr ⟨hne, k, hk, by omega, rfl⟩
    · rw [hall.frame _ hout, hnull]
    · have hb' : ¬ Stands slots n b := by
        rintro ⟨k, hk, hkn, heq⟩
        exact hb ⟨k, hk, by omega, heq⟩
      have hlast' : b ≠ slots (n + 1) := fun heq => hb ⟨n + 1, by omega, Nat.le_refl _, heq.symm⟩
      have hv'' : b ≠ slots v := fun heq => hb ⟨v, hv.1, hv.2, heq.symm⟩
      have hout' : ¬ Stands (Function.update slots v (slots (n + 1))) n b := by
        rw [stands_replace hrep.apart hv']
        rintro (heq | ⟨-, hin⟩)
        · exact hlast' heq
        · exact hb' hin
      rw [hall.frame _ hout', hsame b hv'', hframe₁ b hlast' hb']

/-- `heap_remove` of a node of the tree. -/
theorem heapRemove_spec {β : Type} [LinearOrder β] {key : Nat → β}
    (hheap : IsHeap key h slots (n + 1)) {v : Nat} (hv : 1 ≤ v ∧ v ≤ n + 1) :
    ∃ h' slots', heapRemove key (slots v) h = some h' ∧ IsHeap key h' slots' n ∧
      (∀ b, Stands slots' n b ↔ b ≠ slots v ∧ Stands slots (n + 1) b) ∧
      h'.nodes (slots v) = some .null ∧
      ∀ b, ¬ Stands slots (n + 1) b → h'.nodes b = h.nodes b := by
  have hn := hheap.rep.nelts
  have hsome : ¬ h.nelts = 0 := by omega
  rcases Nat.eq_zero_or_pos n with rfl | hpos
  · -- the only one
    obtain rfl : v = 1 := by omega
    have hroot := hheap.rep.root
    rw [place_some (by decide) (by decide)] at hroot
    have hnode : h.nodes (slots 1) = some .null := by
      rw [hheap.rep.nodes 1 (by decide) (by decide), nodeAt, show 1 / 2 = 0 from rfl, place_zero,
        place_beyond (by decide),
        place_beyond (by decide)]
      rfl
    refine ⟨⟨none, 0, Function.update h.nodes (slots 1) (some .null)⟩, slots, ?_,
      ⟨⟨rfl, ?_, ?_, ?_⟩, ?_⟩, ?_, ?_, ?_⟩
    · rw [heapRemove, if_neg hsome]
      simp only [hn]
      rw [pathLoop_one]
      simp [walk, hroot, hnode, Heap.write, clearChild, childAt, HeapNode.null]
    · rw [place_beyond (by decide)]
    · intro k hk hkn
      omega
    · intro i j hi hin
      omega
    · intro k hk hkn
      omega
    · rintro b
      constructor
      · rintro ⟨k, hk, hkn, -⟩
        omega
      · rintro ⟨hne, k, hk, hkn, rfl⟩
        obtain rfl : k = 1 := by omega
        exact absurd rfl hne
    · exact Function.update_self ..
    · exact fun b hb =>
        Function.update_of_ne (fun heq => hb ⟨1, by decide, by decide, heq.symm⟩) _ _
  · obtain ⟨path', hwalk, hpath⟩ := walk_last hheap.rep (show 2 ≤ n + 1 by omega) (Nat.le_succ _)
      (show ({ h with nelts := h.nelts - 1 } : Heap).nodes = h.nodes from rfl)
    obtain ⟨h₁, hclear, hrep₁, hlast, hframe₁⟩ := detach_spec hheap.rep hpos hpath
    obtain ⟨h', slots', hput, hheap', hstands, hnull, hframe⟩ :=
      putLast_spec hrep₁ hpos hheap.rep.apart hheap.ordered hv hlast
    refine ⟨h', slots', ?_, hheap', hstands, hnull, fun b hb => (hframe b hb).trans (hframe₁ b hb)⟩
    have hchild : childAt path' (nodeAt slots (n + 1) ((n + 1) / 2)) = some (slots (n + 1)) := by
      rw [childAt, hpath]
      rcases Nat.mod_two_eq_zero_or_one (n + 1) with hbit | hbit
      · rw [if_neg (by omega), nodeAt, show 2 * ((n + 1) / 2) = n +
          1 by omega, place_some (by omega) (Nat.le_refl _)]
      · rw [if_pos hbit, nodeAt, show 2 * ((n + 1) / 2) + 1 = n +
          1 by omega, place_some (by omega) (Nat.le_refl _)]
    have hparent := hheap.rep.nodes ((n + 1) / 2) (by omega) (by omega)
    rw [heapRemove, if_neg hsome]
    simp only [hn] at hwalk hclear ⊢
    rw [hwalk, Option.bind_some]
    simp only [hparent, Option.bind_some, hclear, hchild, hput]

end Tree

/-! ## Runs -/

section Runs

variable {β : Type} [LinearOrder β]

/-- The heap, what its nodes are compared by, and which nodes are in it. -/
structure State (β : Type) where
  heap : Heap
  key : Nat → β
  members : Finset Nat

inductive Op (β : Type) where
  | insert (node : Nat) (t : β)
  | remove (node : Nat)
  | dequeue

/-- A node is given its key before it is inserted. -/
def Op.step : Op β → State β → Option (State β)
  | .insert a t, s =>
    let key := Function.update s.key a t
    (heapInsert key a s.heap).map fun h => ⟨h, key, Insert.insert a s.members⟩
  | .remove a, s => (heapRemove s.key a s.heap).map fun h => ⟨h, s.key, s.members.erase a⟩
  | .dequeue, s =>
    (heapDequeue s.key s.heap).map fun h =>
      ⟨h, s.key, if s.heap.nelts = 0 then s.members else s.heap.root.elim s.members s.members.erase⟩

def run (ops : List (Op β)) (s : State β) : Option (State β) := ops.foldlM (fun s op => op.step s) s

/-- Only a node that is not in the heap is inserted, and only one that is in it removed. -/
def Op.Allowed (s : State β) : Op β → Prop
  | .insert a _ => a ∉ s.members ∧ (s.heap.nodes a).isSome
  | .remove a => a ∈ s.members
  | .dequeue => True

def Legal : List (Op β) → State β → Prop
  | [], _ => True
  | op :: ops, s => op.Allowed s ∧ ∀ s', op.step s = some s' → Legal ops s'

/-- The members form the heap, and no other node points anywhere. -/
structure Sound (s : State β) : Prop where
  tree : ∃ slots, IsHeap s.key s.heap slots s.members.card ∧ ∀ a,
    Stands slots s.members.card a ↔ a ∈ s.members
  others : ∀ a node, a ∉ s.members → s.heap.nodes a = some node → node = .null

theorem ordered_update {key : Nat → β} {slots : Nat → Nat} {n : Nat} (h : Ordered key slots n)
    {a : Nat} (ha : ¬ Stands slots n a) (t : β) : Ordered (Function.update key a t) slots n := by
  have hother : ∀ k, 1 ≤ k → k ≤ n → slots k ≠ a := fun k hk hn heq => ha ⟨k, hk, hn, heq⟩
  intro k hk hn
  rw [Function.update_of_ne (hother k (by omega) hn),
    Function.update_of_ne (hother (k / 2) (by omega) (by omega))]
  exact h k hk hn

/-- There is a node at an address, in the heap or alone. -/
theorem Sound.there {s : State β} (h : Sound s) {a : Nat} (ha : a ∈ s.members) :
    (s.heap.nodes a).isSome := by
  obtain ⟨slots, hheap, hstands⟩ := h.tree
  obtain ⟨k, hk, hn, rfl⟩ := (hstands a).mpr ha
  rw [hheap.rep.nodes k hk hn]
  rfl

theorem insert_sound {s : State β} (h : Sound s) {a : Nat} (t : β) (ha : a ∉ s.members)
    (hthere : (s.heap.nodes a).isSome) :
    ∃ h', (Op.insert a t).step s = some ⟨h', Function.update s.key a t, insert a s.members⟩ ∧
      Sound (⟨h', Function.update s.key a t, insert a s.members⟩ : State β) ∧
      ∀ b, (h'.nodes b).isSome = (s.heap.nodes b).isSome := by
  obtain ⟨slots, hheap, hstands⟩ := h.tree
  obtain ⟨node, hnode⟩ := Option.isSome_iff_exists.mp hthere
  have hout : ¬ Stands slots s.members.card a := fun hin => ha ((hstands a).mp hin)
  rw [h.others a node ha hnode] at hnode
  have hkeyed : IsHeap (Function.update s.key a t) s.heap slots s.members.card :=
    ⟨hheap.rep, ordered_update hheap.ordered hout t⟩
  obtain ⟨h', slots', hrun, hheap', hstands', hframe⟩ := heapInsert_spec hkeyed hout hnode
  have hsound : Sound (⟨h', Function.update s.key a t, insert a s.members⟩ : State β) := by
    refine ⟨⟨slots', ?_, ?_⟩, ?_⟩
    · rw [Finset.card_insert_of_notMem ha]
      exact hheap'
    · intro b
      rw [Finset.card_insert_of_notMem ha, hstands' b, hstands b, Finset.mem_insert]
    · intro b node' hb hnode'
      rw [Finset.mem_insert, not_or] at hb
      rw [hframe b hb.1 fun hin => hb.2 ((hstands b).mp hin)] at hnode'
      exact h.others b node' hb.2 hnode'
  refine ⟨h', by simp only [Op.step, hrun, Option.map_some], hsound, fun b => ?_⟩
  by_cases hb : b ∈ insert a s.members
  · rw [hsound.there hb]
    rcases Finset.mem_insert.mp hb with rfl | hold
    · exact hthere.symm
    · exact (h.there hold).symm
  · rw [Finset.mem_insert, not_or] at hb
    rw [hframe b hb.1 fun hin => hb.2 ((hstands b).mp hin)]

theorem remove_sound {s : State β} (h : Sound s) {a : Nat} (ha : a ∈ s.members) :
    ∃ h', (Op.remove a).step s = some ⟨h', s.key, s.members.erase a⟩ ∧
      Sound (⟨h', s.key, s.members.erase a⟩ : State β) ∧ ∀ b,
      (h'.nodes b).isSome = (s.heap.nodes b).isSome := by
  have hthere := h.there ha
  obtain ⟨slots, hheap, hstands⟩ := h.tree
  obtain ⟨v, hv, hvn, rfl⟩ := (hstands a).mpr ha
  obtain ⟨n, hn⟩ := Nat.exists_eq_add_of_le' (Finset.card_pos.mpr ⟨_, ha⟩)
  rw [hn] at hheap hstands hvn
  obtain ⟨h', slots', hrun, hheap', hstands', hnull, hframe⟩ := heapRemove_spec hheap ⟨hv, hvn⟩
  have hcard : (s.members.erase (slots v)).card = n := by
    rw [Finset.card_erase_of_mem ha, hn, Nat.add_sub_cancel]
  have hsound : Sound (⟨h', s.key, s.members.erase (slots v)⟩ : State β) := by
    refine ⟨⟨slots', ?_, ?_⟩, ?_⟩
    · rw [hcard]
      exact hheap'
    · intro b
      rw [hcard, hstands' b, hstands b, Finset.mem_erase]
    · intro b node hb hnode
      rw [Finset.mem_erase, not_and] at hb
      by_cases hsame : b = slots v
      · rw [hsame, hnull] at hnode
        exact (Option.some.inj hnode).symm
      · have hout := hb hsame
        rw [hframe b fun hin => hout ((hstands b).mp hin)] at hnode
        exact h.others b node hout hnode
  refine ⟨h', by simp only [Op.step, hrun, Option.map_some], hsound, fun b => ?_⟩
  by_cases hb : b ∈ s.members.erase (slots v)
  · rw [hsound.there hb, h.there (Finset.mem_of_mem_erase hb)]
  · by_cases hsame : b = slots v
    · rw [hsame, hnull, hthere]
      rfl
    · rw [hframe b fun hin => hb (Finset.mem_erase.mpr ⟨hsame, (hstands b).mp hin⟩)]

theorem Sound.root {s : State β} (h : Sound s) :
    (s.members = ∅ ∧ s.heap.nelts = 0 ∧ s.heap.root = none) ∨
      ∃ r, s.heap.root = some r ∧ s.heap.nelts ≠ 0 ∧ r ∈ s.members ∧ ∀ a ∈ s.members,
      s.key r ≤ s.key a := by
  obtain ⟨slots, hheap, hstands⟩ := h.tree
  have hroot := hheap.rep.root
  have hnelts := hheap.rep.nelts
  rcases Nat.eq_zero_or_pos s.members.card with hzero | hpos
  · left
    refine ⟨Finset.card_eq_zero.mp hzero, by rw [hnelts, hzero], ?_⟩
    rw [hroot, place_beyond (by omega)]
  · right
    rw [place_some (Nat.le_refl 1) hpos] at hroot
    refine ⟨slots 1, hroot, by omega, (hstands _).mp ⟨1, Nat.le_refl 1, hpos, rfl⟩, fun a ha => ?_⟩
    obtain ⟨k, hk, hkn, rfl⟩ := (hstands a).mpr ha
    exact hheap.ordered.first_le k hk hkn

/-- Where there is a root, it is what goes. -/
theorem dequeue_eq {s : State β} {r : Nat} (hroot : s.heap.root = some r)
    (hsome : s.heap.nelts ≠ 0) :
    Op.dequeue.step s = (Op.remove r).step s := by
  simp only [Op.step, heapDequeue, if_neg hsome, hroot, Option.bind_some, Option.elim_some]

theorem step_sound {s : State β} (h : Sound s) {op : Op β} (hallowed : op.Allowed s) :
    ∃ s', op.step s = some s' ∧ Sound s' := by
  cases op with
  | insert a t =>
    obtain ⟨h', hstep, hsound, -⟩ := insert_sound h t hallowed.1 hallowed.2
    exact ⟨_, hstep, hsound⟩
  | remove a =>
    obtain ⟨h', hstep, hsound, -⟩ := remove_sound h hallowed
    exact ⟨_, hstep, hsound⟩
  | dequeue =>
    rcases h.root with ⟨-, hzero, -⟩ | ⟨r, hroot, hsome, hr, -⟩
    · refine ⟨s, ?_, h⟩
      simp only [Op.step, heapDequeue, if_pos hzero, Option.map_some]
    · obtain ⟨h', hstep, hsound, -⟩ := remove_sound h hr
      exact ⟨_, (dequeue_eq hroot hsome).trans hstep, hsound⟩

theorem run_sound (ops : List (Op β)) {s : State β} (h : Sound s) (hlegal : Legal ops s) :
    ∃ s', run ops s = some s' ∧ Sound s' := by
  induction ops generalizing s with
  | nil => exact ⟨s, rfl, h⟩
  | cons op ops ih =>
    obtain ⟨s₁, hstep, hsound⟩ := step_sound h hlegal.1
    obtain ⟨s', hrun, hsound'⟩ := ih hsound (hlegal.2 s₁ hstep)
    refine ⟨s', ?_, hsound'⟩
    rw [run, List.foldlM_cons, hstep]
    exact hrun

/-- `heap_init` over nodes that point nowhere. -/
def initial (nodes : Nat → Option HeapNode) (key : Nat → β) : State β := ⟨⟨none, 0, nodes⟩, key, ∅⟩

theorem initial_sound {nodes : Nat → Option HeapNode}
    (hnull : ∀ a node, nodes a = some node → node = .null) (key : Nat → β) :
    Sound (initial nodes key) := by
  refine ⟨⟨id, ⟨⟨rfl, ?_, ?_, ?_⟩, ?_⟩, ?_⟩, fun a node _ hnode => hnull a node hnode⟩
  · rw [initial, Finset.card_empty, place_beyond (by decide)]
  · intro k hk hkn
    rw [initial, Finset.card_empty] at hkn
    omega
  · intro i j hi hin
    rw [initial, Finset.card_empty] at hin
    omega
  · intro k hk hkn
    rw [initial, Finset.card_empty] at hkn
    omega
  · intro a
    rw [initial, Finset.card_empty]
    constructor
    · rintro ⟨k, hk, hkn, -⟩
      omega
    · intro ha
      cases ha

/-- Any inserts of nodes that are not in the heap, removals of nodes that are, and
removals of the root: no null pointer is followed and the assertion holds, the nodes are
linked into a complete tree of just those that are in it, the root is a least one, and a
node that is taken out points nowhere. -/
theorem heap_exact {nodes : Nat → Option HeapNode}
    (hnull : ∀ a node, nodes a = some node → node = .null) (key : Nat → β) {ops : List (Op β)}
    (hlegal : Legal ops (initial nodes key)) :
    ∃ s, run ops (initial nodes key) = some s ∧ s.heap.nelts = s.members.card ∧
      (∃ slots, Rep s.heap slots s.members.card ∧ ∀ a,
        Stands slots s.members.card a ↔ a ∈ s.members) ∧
      (∀ r, s.heap.root = some r → r ∈ s.members ∧ ∀ a ∈ s.members, s.key r ≤ s.key a) ∧
      (s.heap.root = none → s.members = ∅) ∧
      ∀ a node, a ∉ s.members → s.heap.nodes a = some node → node = .null := by
  obtain ⟨s, hrun, hsound⟩ := run_sound ops (initial_sound hnull key) hlegal
  obtain ⟨slots, hheap, hstands⟩ := hsound.tree
  refine ⟨s, hrun, hheap.rep.nelts, ⟨slots, hheap.rep, hstands⟩, fun r hr => ?_,
    fun hnone => ?_, hsound.others⟩
  · rcases hsound.root with ⟨-, -, hnone⟩ | ⟨r', hroot, -, hmem, hleast⟩
    · rw [hnone] at hr
      cases hr
    · obtain rfl := Option.some.inj (hroot.symm.trans hr)
      exact ⟨hmem, hleast⟩
  · rcases hsound.root with ⟨hempty, -, -⟩ | ⟨r', hroot, -⟩
    · exact hempty
    · rw [hroot] at hnone
      cases hnone

/-- What may follow an insert, where there are nodes at all addresses. -/
theorem legal_insert {s : State β} (h : Sound s) (hthere : ∀ b, (s.heap.nodes b).isSome) {a : Nat}
    {t : β} {ops : List (Op β)} (ha : a ∉ s.members)
    (hrest : ∀ s', Sound s' → (∀ b, (s'.heap.nodes b).isSome) →
      s'.members = insert a s.members → Legal ops s') :
    Legal (.insert a t :: ops) s := by
  obtain ⟨h', hstep, hsound, hsame⟩ := insert_sound h t ha (hthere a)
  refine ⟨⟨ha, hthere a⟩, fun s' hs' => ?_⟩
  obtain rfl := Option.some.inj (hstep.symm.trans hs')
  exact hrest _ hsound (fun b => by rw [hsame b]; exact hthere b) rfl

theorem legal_remove {s : State β} (h : Sound s) (hthere : ∀ b, (s.heap.nodes b).isSome) {a : Nat}
    {ops : List (Op β)} (ha : a ∈ s.members)
    (hrest : ∀ s', Sound s' → (∀ b, (s'.heap.nodes b).isSome) →
      s'.members = s.members.erase a → Legal ops s') :
    Legal (.remove a :: ops) s := by
  obtain ⟨h', hstep, hsound, hsame⟩ := remove_sound h ha
  refine ⟨ha, fun s' hs' => ?_⟩
  obtain rfl := Option.some.inj (hstep.symm.trans hs')
  exact hrest _ hsound (fun b => by rw [hsame b]; exact hthere b) rfl

/-- Four nodes come in against their order, the one with the second time goes, and then
the root. -/
theorem heap_exact_four :
    ∃ s, run [.insert 7 9, .insert 5 4, .insert 3 1, .insert 8 6, .remove 5, .dequeue]
        (initial (fun _ => some .null) fun _ => 0) = some s ∧
      s.heap.nelts = s.members.card ∧
      (∃ slots, Rep s.heap slots s.members.card ∧ ∀ a,
        Stands slots s.members.card a ↔ a ∈ s.members) ∧
      (∀ r, s.heap.root = some r → r ∈ s.members ∧ ∀ a ∈ s.members, s.key r ≤ s.key a) ∧
      (s.heap.root = none → s.members = ∅) ∧
      ∀ a node, a ∉ s.members → s.heap.nodes a = some node → node = .null := by
  have hnull : ∀ a node, (fun _ : Nat => some HeapNode.null) a = some node → node = .null :=
    fun _ _ hnode => (Option.some.inj hnode).symm
  refine heap_exact hnull (fun _ => (0 : Nat)) ?_
  have hsound := initial_sound hnull fun _ => (0 : Nat)
  refine legal_insert hsound (fun _ => rfl) (Finset.notMem_empty 7) fun s₁ h₁ hthere₁ hm₁ => ?_
  have hmembers₁ : s₁.members = {7} := hm₁
  refine legal_insert h₁ hthere₁ (by rw [hmembers₁]; decide) fun s₂ h₂ hthere₂ hm₂ => ?_
  rw [hmembers₁] at hm₂
  refine legal_insert h₂ hthere₂ (by rw [hm₂]; decide) fun s₃ h₃ hthere₃ hm₃ => ?_
  rw [hm₂] at hm₃
  refine legal_insert h₃ hthere₃ (by rw [hm₃]; decide) fun s₄ h₄ hthere₄ hm₄ => ?_
  rw [hm₃] at hm₄
  refine legal_remove h₄ hthere₄ (by rw [hm₄]; decide) fun s₅ _ _ _ => ?_
  exact ⟨trivial, fun _ _ => trivial⟩

end Runs

end NetmtHeapRuns
