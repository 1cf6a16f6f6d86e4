import Mathlib.Data.List.Basic
import Mathlib.Data.List.Induction

/-!
# Doubly linked lists

Nodes lie in a heap and point at each other. A segment is a list of addresses and
items such that each node points at the one in front of it and the one behind it;
what lies in front of the first and behind the last is a parameter, so that
segments can be cut and joined.
-/
namespace Links

structure Node (α : Type) where
  prev : Option Nat
  next : Option Nat
  item : α
  deriving DecidableEq, Repr

/-- A freed node is `none`. An address is given out once. -/
abbrev Heap (α : Type) := List (Option (Node α))

variable {α : Type}

def read (h : Heap α) (p : Nat) : Option (Node α) := h[p]?.join

def write (p : Nat) (n : Node α) (h : Heap α) : Heap α := h.set p (some n)

/-- A new node; its address is the length of the heap. -/
def alloc (n : Node α) (h : Heap α) : Heap α := h ++ [some n]

def free (p : Nat) (h : Heap α) : Heap α := h.set p none

theorem read_lt {h : Heap α} {p : Nat} {n : Node α} (hr : read h p = some n) : p < h.length := by
  by_contra hge
  rw [read, List.getElem?_eq_none (by omega)] at hr
  cases hr

theorem read_write {h : Heap α} {p : Nat} (hp : p < h.length) (n : Node α) :
    read (write p n h) p = some n := by
  rw [read, write, List.getElem?_set_self hp]
  rfl

theorem read_write_other {p q : Nat} (hne : p ≠ q) (n : Node α) (h : Heap α) :
    read (write p n h) q = read h q := by
  rw [read, write, List.getElem?_set_ne hne, read]

theorem read_alloc (n : Node α) (h : Heap α) : read (alloc n h) h.length = some n := by
  rw [read, alloc, List.getElem?_concat_length]
  rfl

theorem read_alloc_other {h : Heap α} {p : Nat} (hp : p < h.length) (n : Node α) :
    read (alloc n h) p = read h p := by
  rw [read, alloc, List.getElem?_append_left hp, read]

theorem read_free_other {p q : Nat} (hne : p ≠ q) (h : Heap α) : read (free p h) q = read h q := by
  rw [read, free, List.getElem?_set_ne hne, read]

@[simp] theorem length_write (p : Nat) (n : Node α) (h : Heap α) :
    (write p n h).length = h.length := List.length_set

@[simp] theorem length_alloc (n : Node α) (h : Heap α) : (alloc n h).length = h.length + 1 := by
  simp [alloc]

@[simp] theorem length_free (p : Nat) (h : Heap α) : (free p h).length = h.length := List.length_set

/-! ## Segments -/

/-- The address of the first cell, or what lies behind. -/
def first : List (Nat × α) → Option Nat → Option Nat
  | [], after => after
  | c :: _, _ => some c.1

/-- The address of the last cell, or what lies in front. -/
def last : Option Nat → List (Nat × α) → Option Nat
  | before, [] => before
  | _, c :: cells => last (some c.1) cells

def Segment (h : Heap α) : Option Nat → List (Nat × α) → Option Nat → Prop
  | _, [], _ => True
  | before, c :: cells, after =>
    read h c.1 = some ⟨before, first cells after, c.2⟩ ∧ Segment h (some c.1) cells after

theorem first_append (xs ys : List (Nat × α)) (after : Option Nat) :
    first (xs ++ ys) after = first xs (first ys after) := by
  cases xs <;> rfl

theorem last_append (before : Option Nat) (xs ys : List (Nat × α)) :
    last before (xs ++ ys) = last (last before xs) ys := by
  induction xs generalizing before with
  | nil => rfl
  | cons c xs ih => exact ih (some c.1)

theorem segment_append (h : Heap α) (before : Option Nat) (xs ys : List (Nat × α))
    (after : Option Nat) : Segment h before (xs ++ ys) after ↔
      Segment h before xs (first ys after) ∧ Segment h (last before xs) ys after := by
  induction xs generalizing before with
  | nil => exact ⟨fun hs => ⟨trivial, hs⟩, fun hs => hs.2⟩
  | cons c xs ih =>
    rw [List.cons_append, Segment, Segment, first_append, ih (some c.1), and_assoc]
    rfl

/-- Only the cells' own nodes matter. -/
theorem Segment.frame {h h' : Heap α} {cells : List (Nat × α)} {before after : Option Nat}
    (hs : Segment h before cells after) (hsame : ∀ c ∈ cells, read h' c.1 = read h c.1) :
    Segment h' before cells after := by
  induction cells generalizing before with
  | nil => trivial
  | cons c cells ih =>
    refine ⟨?_, ih hs.2 fun d hd => hsame d (List.mem_cons_of_mem c hd)⟩
    rw [hsame c List.mem_cons_self]
    exact hs.1

/-- The node of a cell. -/
theorem Segment.read_cell {h : Heap α} {pre post : List (Nat × α)} {c : Nat × α}
    {before after : Option Nat} (hs : Segment h before (pre ++ c :: post) after) :
    read h c.1 = some ⟨last before pre, first post after, c.2⟩ :=
  ((segment_append h before pre (c :: post) after).mp hs).2.1

theorem Segment.addr_lt {h : Heap α} {cells : List (Nat × α)} {before after : Option Nat}
    (hs : Segment h before cells after) : ∀ c ∈ cells, c.1 < h.length := by
  intro c hc
  obtain ⟨pre, post, rfl⟩ := List.mem_iff_append.mp hc
  exact read_lt hs.read_cell

/-- The addresses are different. -/
def Apart (cells : List (Nat × α)) : Prop := (cells.map Prod.fst).Nodup

theorem Apart.cut {xs ys : List (Nat × α)} (h : Apart (xs ++ ys)) :
    Apart xs ∧ Apart ys ∧ ∀ c ∈ xs, ∀ d ∈ ys, c.1 ≠ d.1 := by
  rw [Apart, List.map_append, List.nodup_append] at h
  refine ⟨h.1, h.2.1, fun c hc d hd => ?_⟩
  exact h.2.2 _ (List.mem_map_of_mem hc) _ (List.mem_map_of_mem hd)

/-- The cell in the middle, and the others. -/
theorem apart_middle {pre post : List (Nat × α)} {c : Nat × α} :
    Apart (pre ++ c :: post) ↔ (∀ d ∈ pre ++ post, d.1 ≠ c.1) ∧ Apart (pre ++ post) := by
  have hperm : (pre ++ c :: post).Perm (c :: (pre ++ post)) := List.perm_middle
  rw [Apart, (hperm.map Prod.fst).nodup_iff, List.map_cons, List.nodup_cons, Apart, List.mem_map]
  exact and_congr_left' ⟨fun h d hd heq => h ⟨d, hd, heq⟩, fun h ⟨d, hd, heq⟩ => h d hd heq⟩

/-! ## Linking a node -/

/-- `prev->next = q`, if there is a `prev`. -/
def setNext (p : Option Nat) (q : Nat) (h : Heap α) : Option (Heap α) :=
  match p with
  | none => some h
  | some p => (read h p).map fun n => write p { n with next := some q } h

/-- `next->prev = q`, if there is a `next`. -/
def setPrev (p : Option Nat) (q : Nat) (h : Heap α) : Option (Heap α) :=
  match p with
  | none => some h
  | some p => (read h p).map fun n => write p { n with prev := some q } h

/-- The first node of a segment points back to `v` from now on. -/
theorem relink_first {h : Heap α} {c : Nat × α} {cells : List (Nat × α)} {before after : Option Nat}
    (v : Option Nat) (hs : Segment h before (c :: cells) after) (ha : Apart (c :: cells)) :
    Segment (write c.1 ⟨v, first cells after, c.2⟩ h) v (c :: cells) after ∧
      ∀ p, (∀ d ∈ c :: cells, d.1 ≠ p) →
        read (write c.1 ⟨v, first cells after, c.2⟩ h) p = read h p := by
  obtain ⟨hread, hrest⟩ := hs
  have hcut : Apart ([c] ++ cells) := ha
  refine ⟨⟨read_write (read_lt hread) _, hrest.frame fun d hd => ?_⟩, fun p hp => ?_⟩
  · exact read_write_other (hcut.cut.2.2 c (by simp) d hd) _ _
  · exact read_write_other (hp c (by simp)) _ _

/-- The last one points on to `v`. -/
theorem relink_last {h : Heap α} {c : Nat × α} {init : List (Nat × α)} {before after : Option Nat}
    (v : Option Nat) (hs : Segment h before (init ++ [c]) after) (ha : Apart (init ++ [c])) :
    Segment (write c.1 ⟨last before init, v, c.2⟩ h) before (init ++ [c]) v ∧
      ∀ p, (∀ d ∈ init ++ [c], d.1 ≠ p) →
        read (write c.1 ⟨last before init, v, c.2⟩ h) p = read h p := by
  obtain ⟨hinit, -⟩ := (segment_append h before init [c] after).mp hs
  refine ⟨?_, fun p hp => read_write_other (hp c (by simp)) _ _⟩
  rw [segment_append]
  refine ⟨hinit.frame fun d hd => ?_, read_write (read_lt hs.read_cell) _, trivial⟩
  exact read_write_other (ha.cut.2.2 d hd c (by simp)).symm _ _

/-- `prev->next = v`, if there is a `prev`. -/
def pointNext (p v : Option Nat) (h : Heap α) : Option (Heap α) :=
  match p with
  | none => some h
  | some p => (read h p).map fun n => write p { n with next := v } h

/-- `next->prev = v`, if there is a `next`. -/
def pointPrev (p v : Option Nat) (h : Heap α) : Option (Heap α) :=
  match p with
  | none => some h
  | some p => (read h p).map fun n => write p { n with prev := v } h

theorem setNext_eq_point (p : Option Nat) (q : Nat) :
    setNext (α := α) p q = pointNext p (some q) := by
  cases p <;> rfl

theorem setPrev_eq_point (p : Option Nat) (q : Nat) :
    setPrev (α := α) p q = pointPrev p (some q) := by
  cases p <;> rfl

/-- A segment whose last node is pointed elsewhere. -/
theorem pointNext_segment {h : Heap α} {cells : List (Nat × α)} {after : Option Nat}
    (v : Option Nat) (hs : Segment h none cells after) (ha : Apart cells) :
    ∃ h', pointNext (last none cells) v h = some h' ∧ Segment h' none cells v ∧
      h'.length = h.length ∧ ∀ p, (∀ c ∈ cells, c.1 ≠ p) → read h' p = read h p := by
  rcases List.eq_nil_or_concat cells with rfl | ⟨init, c, rfl⟩
  · exact ⟨h, rfl, trivial, rfl, fun _ _ => rfl⟩
  · rw [List.concat_eq_append] at hs ha ⊢
    obtain ⟨hseg, hsame⟩ := relink_last v hs ha
    refine ⟨write c.1 ⟨last none init, v, c.2⟩ h, ?_, hseg, length_write _ _ _, hsame⟩
    rw [last_append]
    change (read h c.1).map _ = _
    rw [hs.read_cell]
    rfl

/-- A segment whose first node is pointed elsewhere. -/
theorem pointPrev_segment {h : Heap α} {cells : List (Nat × α)} {before : Option Nat}
    (v : Option Nat) (hs : Segment h before cells none) (ha : Apart cells) :
    ∃ h', pointPrev (first cells none) v h = some h' ∧ Segment h' v cells none ∧
      h'.length = h.length ∧ ∀ p, (∀ c ∈ cells, c.1 ≠ p) → read h' p = read h p := by
  cases cells with
  | nil => exact ⟨h, rfl, trivial, rfl, fun _ _ => rfl⟩
  | cons c cells =>
    obtain ⟨hseg, hsame⟩ := relink_first v hs ha
    refine ⟨write c.1 ⟨v, first cells none, c.2⟩ h, ?_, hseg, length_write _ _ _, hsame⟩
    change (read h c.1).map _ = _
    rw [hs.1]
    rfl

/-- Both ends at a cut are pointed elsewhere. -/
theorem point_cut {h : Heap α} {pre post : List (Nat × α)} {before after : Option Nat}
    (v w : Option Nat) (hpre : Segment h none pre after) (hpost : Segment h before post none)
    (ha : Apart (pre ++ post)) :
    ∃ h', (pointNext (last none pre) v h).bind (pointPrev (first post none) w) = some h' ∧
      Segment h' none pre v ∧ Segment h' w post none ∧ h'.length = h.length ∧
      ∀ p, (∀ c ∈ pre ++ post, c.1 ≠ p) → read h' p = read h p := by
  obtain ⟨hapre, hapost, hcross⟩ := ha.cut
  obtain ⟨h₁, hset, hpre₁, hlen₁, hsame₁⟩ := pointNext_segment v hpre hapre
  have hpost₁ := hpost.frame fun c hc => hsame₁ c.1 fun d hd => hcross d hd c hc
  obtain ⟨h₂, hset', hpost₂, hlen₂, hsame₂⟩ := pointPrev_segment w hpost₁ hapost
  refine ⟨h₂, by rw [hset, Option.bind_some, hset'], ?_, hpost₂, hlen₂.trans hlen₁, fun p hp => ?_⟩
  · exact hpre₁.frame fun c hc => hsame₂ c.1 fun d hd => (hcross c hc d hd).symm
  · rw [hsame₂ p fun d hd => hp d (List.mem_append_right _ hd),
      hsame₁ p fun d hd => hp d (List.mem_append_left _ hd)]

/-- It does not matter which end comes first. -/
theorem point_comm {p q : Option Nat} (hne : ∀ a, p = some a → q ≠ some a) (v w : Option Nat)
    (h : Heap α) :
    (pointPrev q w h).bind (pointNext p v) = (pointNext p v h).bind (pointPrev q w) := by
  cases p with
  | none =>
    change (pointPrev q w h).bind some = _
    rw [Option.bind_fun_some]
    rfl
  | some a =>
    cases q with
    | none =>
      change _ = (pointNext (some a) v h).bind some
      rw [Option.bind_fun_some]
      rfl
    | some b =>
      have hab : a ≠ b := fun heq => hne a rfl (congrArg some heq.symm)
      cases hra : read h a <;> cases hrb : read h b <;>
        simp only [pointNext, pointPrev, hra, hrb, Option.map_none, Option.map_some,
          Option.bind_none,
          Option.bind_some, read_write_other hab, read_write_other hab.symm]
      exact congrArg some (List.set_comm _ _ hab.symm)

theorem last_mem {cells : List (Nat × α)} {p : Nat} (h : last none cells = some p) :
    ∃ c ∈ cells, c.1 = p := by
  rcases List.eq_nil_or_concat cells with rfl | ⟨init, c, rfl⟩
  · cases h
  · rw [List.concat_eq_append, last_append] at h
    exact ⟨c, by simp, Option.some.inj h⟩

theorem first_mem {cells : List (Nat × α)} {p : Nat} (h : first cells none = some p) :
    ∃ c ∈ cells, c.1 = p := by
  cases cells with
  | nil => cases h
  | cons c cells => exact ⟨c, List.mem_cons_self, Option.some.inj h⟩

theorem Apart.ends {pre post : List (Nat × α)} (ha : Apart (pre ++ post)) (p : Nat)
    (hp : last none pre = some p) : first post none ≠ some p := by
  intro hq
  obtain ⟨c, hc, rfl⟩ := last_mem hp
  obtain ⟨d, hd, heq⟩ := first_mem hq
  exact ha.cut.2.2 c hc d hd heq.symm

/-- A node gets another item. -/
theorem Segment.set_item {h : Heap α} {pre post : List (Nat × α)} {c : Nat × α}
    {before after : Option Nat} (x : α) (hs : Segment h before (pre ++ c :: post) after)
    (ha : Apart (pre ++ c :: post)) :
    Segment (write c.1 ⟨last before pre, first post after, x⟩ h) before
      (pre ++ (c.1, x) :: post) after := by
  obtain ⟨-, hcons, hcross⟩ := ha.cut
  have hcut : Apart ([c] ++ post) := hcons
  obtain ⟨hpre, -, hpost⟩ := (segment_append _ _ _ _ _).mp hs
  rw [segment_append]
  refine ⟨hpre.frame fun d hd => ?_, read_write (read_lt hs.read_cell) _, hpost.frame fun d hd =>
    ?_⟩
  · exact read_write_other (hcross d hd c List.mem_cons_self).symm _ _
  · exact read_write_other (hcut.cut.2.2 c (by simp) d hd) _ _

/-- A node between two segments that point at each other: link the front first. -/
theorem splice_next_prev {h : Heap α} {pre post : List (Nat × α)} {q : Nat} (x : α)
    (hs : Segment h none (pre ++ post) none) (ha : Apart (pre ++ post)) (hq : q < h.length)
    (hnew : ∀ c ∈ pre ++ post, c.1 ≠ q) :
    ∃ h', (setNext (last none pre) q (write q ⟨last none pre, first post none, x⟩ h)).bind
        (setPrev (first post none) q) = some h' ∧
      Segment h' none (pre ++ (q, x) :: post) none ∧ h'.length = h.length ∧
      ∀ p, (∀ c ∈ pre ++ post, c.1 ≠ p) → q ≠ p → read h' p = read h p := by
  have hold : ∀ c ∈ pre ++ post,
      read (write q ⟨last none pre, first post none, x⟩ h) c.1 = read h c.1 :=
    fun c hc => read_write_other (hnew c hc).symm _ _
  obtain ⟨hpre, hpost⟩ := (segment_append _ _ _ _ _).mp (hs.frame hold)
  obtain ⟨h', hset, hpre', hpost', hlen, hsame⟩ := point_cut (some q) (some q) hpre hpost ha
  refine ⟨h', ?_, ?_, by rw [hlen, length_write], fun p hp hqp => ?_⟩
  · rw [setNext_eq_point, setPrev_eq_point]
    exact hset
  · rw [segment_append]
    refine ⟨hpre', ?_, hpost'⟩
    rw [hsame q hnew]
    exact read_write hq _
  · rw [hsame p hp, read_write_other hqp]

/-- The same, linking the segment behind first. -/
theorem splice_prev_next {h : Heap α} {pre post : List (Nat × α)} {q : Nat} (x : α)
    (hs : Segment h none (pre ++ post) none) (ha : Apart (pre ++ post)) (hq : q < h.length)
    (hnew : ∀ c ∈ pre ++ post, c.1 ≠ q) :
    ∃ h', (setPrev (first post none) q (write q ⟨last none pre, first post none, x⟩ h)).bind
        (setNext (last none pre) q) = some h' ∧
      Segment h' none (pre ++ (q, x) :: post) none ∧ h'.length = h.length ∧
      ∀ p, (∀ c ∈ pre ++ post, c.1 ≠ p) → q ≠ p → read h' p = read h p := by
  obtain ⟨h', hlink, hrest⟩ := splice_next_prev x hs ha hq hnew
  refine ⟨h', ?_, hrest⟩
  rw [← hlink, setNext_eq_point, setPrev_eq_point]
  exact point_comm ha.ends _ _ _

/-- A node between two segments is passed over by both. -/
theorem unlink {h : Heap α} {pre post : List (Nat × α)} {c : Nat × α}
    (hs : Segment h none (pre ++ c :: post) none) (ha : Apart (pre ++ c :: post)) :
    ∃ h', (pointNext (last none pre) (first post none) h).bind
        (pointPrev (first post none) (last none pre)) = some h' ∧
      Segment h' none (pre ++ post) none ∧ h'.length = h.length ∧
      ∀ p, (∀ d ∈ pre ++ post, d.1 ≠ p) → read h' p = read h p := by
  have hsub : (pre ++ post).Sublist (pre ++ c :: post) :=
    (List.Sublist.refl pre).append (List.sublist_cons_self c post)
  obtain ⟨hpre, -, hpost⟩ := (segment_append _ _ _ _ _).mp hs
  obtain ⟨h', hset, hpre', hpost', hlen, hsame⟩ :=
    point_cut (first post none) (last none pre) hpre hpost (ha.sublist (hsub.map _))
  exact ⟨h', hset, (segment_append _ _ _ _ _).mpr ⟨hpre', hpost'⟩, hlen, hsame⟩

/-! ## Walks -/

/-- Follow a link until an item meets the test, or there is no further node: the
node where the walk ends, and whether its item meets the test. -/
def walk (link : Node α → Option Nat) (stop : α → Bool) (h : Heap α) :
    Nat → Nat → Option (Nat × Bool)
  | 0, _ => none
  | fuel + 1, p =>
    match read h p with
    | none => none
    | some n =>
      if stop n.item then some (p, true)
      else
        match link n with
        | none => some (p, false)
        | some q => walk link stop h fuel q

/-- The last cell of a segment that has one. -/
theorem last_isSome (before : Option Nat) (cells : List (Nat × α)) (h : cells ≠ []) :
    ∃ p, last before cells = some p := by
  obtain ⟨init, c, rfl⟩ := (List.eq_nil_or_concat cells).resolve_left h
  rw [List.concat_eq_append, last_append]
  exact ⟨c.1, rfl⟩

/-- The cells that are met on the way along `next`. -/
def follow (h : Heap α) : Nat → Option Nat → Option (List (Nat × α))
  | _, none => some []
  | 0, some _ => none
  | fuel + 1, some p =>
    match read h p with
    | none => none
    | some n => (follow h fuel n.next).map ((p, n.item) :: ·)

theorem follow_segment {h : Heap α} {cells : List (Nat × α)} {before : Option Nat} {fuel : Nat}
    (hs : Segment h before cells none) (hfuel : cells.length ≤ fuel) :
    follow h fuel (first cells none) = some cells := by
  induction cells generalizing before fuel with
  | nil => cases fuel <;> rfl
  | cons c cells ih =>
    cases fuel with
    | zero => cases hfuel
    | succ fuel =>
      rw [first, follow, hs.1]
      exact congrArg (Option.map _) (ih hs.2 (Nat.le_of_succ_le_succ hfuel))

/-- One step back. -/
theorem walk_prev_step {h : Heap α} {stop : α → Bool} {cells : List (Nat × α)} {c : Nat × α}
    {before after : Option Nat} (fuel : Nat) (hs : Segment h before (cells ++ [c]) after)
    (hgo : stop c.2 = false) : walk Node.prev stop h (fuel + 1) c.1 =
      match last before cells with
      | none => some (c.1, false)
      | some q => walk Node.prev stop h fuel q := by
  rw [walk, hs.read_cell]
  simp only [hgo, Bool.false_eq_true, if_false]

/-- Backwards to a cell that meets the test; `post` are the cells walked over. -/
theorem walk_prev_found {h : Heap α} {stop : α → Bool} {pre post : List (Nat × α)} {c : Nat × α}
    {before after : Option Nat} {p fuel : Nat} (hs : Segment h before (pre ++ c :: post) after)
    (hp : last before (pre ++ c :: post) = some p) (hfuel : post.length < fuel)
    (hstop : stop c.2 = true) (hgo : ∀ d ∈ post, stop d.2 = false) :
    walk Node.prev stop h fuel p = some (c.1, true) := by
  induction post using List.reverseRecOn generalizing p fuel after with
  | nil =>
    rw [last_append] at hp
    obtain rfl : c.1 = p := Option.some.inj hp
    cases fuel with
    | zero => cases hfuel
    | succ fuel => simp only [walk, hs.read_cell, hstop, if_true]
  | append_singleton post d ih =>
    have hsplit : pre ++ c :: (post ++ [d]) = (pre ++ c :: post) ++ [d] := by simp
    rw [hsplit] at hs hp
    rw [last_append] at hp
    obtain rfl : d.1 = p := Option.some.inj hp
    obtain ⟨q, hq⟩ := last_isSome before (pre ++ c :: post) (by simp)
    cases fuel with
    | zero => cases hfuel
    | succ fuel =>
      rw [walk_prev_step fuel hs (hgo d (by simp)), hq]
      refine ih ((segment_append _ _ _ _ _).mp hs).1 hq ?_ fun e he => hgo e (by simp [he])
      simpa using hfuel

/-- Backwards past the first cell, when none meets the test. -/
theorem walk_prev_first {h : Heap α} {stop : α → Bool} {cells : List (Nat × α)}
    {after : Option Nat} {p fuel : Nat} (hs : Segment h none cells after)
    (hp : last none cells = some p) (hfuel : cells.length ≤ fuel)
    (hgo : ∀ d ∈ cells, stop d.2 = false) :
    ∃ q, first cells none = some q ∧ walk Node.prev stop h fuel p = some (q, false) := by
  induction cells using List.reverseRecOn generalizing p fuel after with
  | nil => cases hp
  | append_singleton cells d ih =>
    rw [last_append] at hp
    obtain rfl : d.1 = p := Option.some.inj hp
    cases fuel with
    | zero => simp at hfuel
    | succ fuel =>
      rw [walk_prev_step fuel hs (hgo d (by simp)), first_append]
      cases cells with
      | nil => exact ⟨d.1, rfl, rfl⟩
      | cons c cells =>
        obtain ⟨q, hq⟩ := last_isSome none (c :: cells) (by simp)
        obtain ⟨q', hfirst, hwalk⟩ := ih ((segment_append _ _ _ _ _).mp hs).1 hq
          (by simpa using hfuel) fun e he => hgo e (List.mem_append_left _ he)
        rw [hq]
        exact ⟨q', hfirst, hwalk⟩

/-- Forwards from any cell to the last, when none meets the test. -/
theorem walk_next_last {h : Heap α} {stop : α → Bool} {cells : List (Nat × α)} {c : Nat × α}
    {before : Option Nat} {fuel : Nat} (hs : Segment h before (c :: cells) none)
    (hfuel : cells.length < fuel) (hgo : ∀ d ∈ c :: cells, stop d.2 = false) :
    ∃ q, last before (c :: cells) = some q ∧ walk Node.next stop h fuel c.1 = some (q, false) := by
  induction cells generalizing before c fuel with
  | nil =>
    cases fuel with
    | zero => cases hfuel
    | succ fuel =>
      refine ⟨c.1, rfl, ?_⟩
      rw [walk, hs.1]
      simp only [hgo c (by simp), Bool.false_eq_true, if_false, first]
  | cons d cells ih =>
    cases fuel with
    | zero => cases hfuel
    | succ fuel =>
      obtain ⟨q, hlast, hwalk⟩ := ih hs.2 (Nat.lt_of_succ_lt_succ hfuel)
        fun e he => hgo e (List.mem_cons_of_mem c he)
      refine ⟨q, hlast, ?_⟩
      rw [walk, hs.1]
      simp only [hgo c (by simp), Bool.false_eq_true, if_false, first]
      exact hwalk

/-- Forwards to a cell that meets the test; `pre` are the cells walked over. -/
theorem walk_next_found {h : Heap α} {stop : α → Bool} {pre post : List (Nat × α)} {c : Nat × α}
    {before after : Option Nat} {p fuel : Nat} (hs : Segment h before (pre ++ c :: post) after)
    (hp : first (pre ++ c :: post) after = some p) (hfuel : pre.length < fuel)
    (hstop : stop c.2 = true) (hgo : ∀ d ∈ pre, stop d.2 = false) :
    walk Node.next stop h fuel p = some (c.1, true) := by
  induction pre generalizing before p fuel with
  | nil =>
    obtain rfl : c.1 = p := Option.some.inj hp
    cases fuel with
    | zero => cases hfuel
    | succ fuel =>
      have hread : read h c.1 = some ⟨before, first post after, c.2⟩ := hs.1
      simp only [walk, hread, hstop, if_true]
  | cons d pre ih =>
    obtain rfl : d.1 = p := Option.some.inj hp
    obtain ⟨hread, hrest⟩ := hs
    cases fuel with
    | zero => cases hfuel
    | succ fuel =>
      obtain ⟨q, hq⟩ : ∃ q, first (pre ++ c :: post) after = some q := by
        cases pre <;> exact ⟨_, rfl⟩
      rw [List.append_eq] at hread
      simp only [walk, hread, hgo d List.mem_cons_self, Bool.false_eq_true, if_false, hq]
      exact ih hrest hq (Nat.lt_of_succ_lt_succ hfuel) fun e he => hgo e (List.mem_cons_of_mem d he)

/-- The first item that meets a test, if there is one. -/
theorem first_hit (stop : α → Bool) (cells : List (Nat × α)) : (∀ d ∈ cells, stop d.2 = false) ∨
    ∃ pre c post, cells = pre ++ c :: post ∧ stop c.2 = true ∧ ∀ d ∈ pre, stop d.2 = false := by
  induction cells with
  | nil => exact .inl fun d hd => absurd hd List.not_mem_nil
  | cons c cells ih =>
    cases hc : stop c.2 with
    | true => exact .inr ⟨[], c, cells, rfl, hc, by simp⟩
    | false =>
      cases ih with
      | inl hnone =>
        refine .inl fun d hd => ?_
        rcases List.mem_cons.mp hd with rfl | hd
        · exact hc
        · exact hnone d hd
      | inr hhit =>
        obtain ⟨pre, d, post, rfl, hd, hpre⟩ := hhit
        refine .inr ⟨c :: pre, d, post, rfl, hd, fun e he => ?_⟩
        rcases List.mem_cons.mp he with rfl | he
        · exact hc
        · exact hpre e he

/-- The last item that meets a test, if there is one. -/
theorem last_hit (stop : α → Bool) (cells : List (Nat × α)) : (∀ d ∈ cells, stop d.2 = false) ∨
    ∃ pre c post, cells = pre ++ c :: post ∧ stop c.2 = true ∧ ∀ d ∈ post, stop d.2 = false := by
  rcases first_hit stop cells.reverse with hnone | ⟨pre, c, post, heq, hc, hpre⟩
  · exact .inl fun d hd => hnone d (List.mem_reverse.mpr hd)
  · refine .inr ⟨post.reverse, c, pre.reverse, ?_, hc, fun d hd => hpre d (List.mem_reverse.mp hd)⟩
    rw [← cells.reverse_reverse, heq]
    simp

/-- Where a walk forwards ends. -/
theorem walk_next_from {h : Heap α} (stop : α → Bool) (fuel : Nat) {post : List (Nat × α)}
    {c : Nat × α} {before : Option Nat} (hs : Segment h before (c :: post) none)
    (hfuel : post.length < fuel) :
    (∃ mid d rest, c :: post = mid ++ d :: rest ∧ stop d.2 = true ∧ (∀ e ∈ mid, stop e.2 = false) ∧
      walk Node.next stop h fuel c.1 = some (d.1, true)) ∨
    (∀ e ∈ c :: post, stop e.2 = false) ∧ ∃ mid d, c :: post = mid ++ [d] ∧
      walk Node.next stop h fuel c.1 = some (d.1, false) := by
  rcases first_hit stop (c :: post) with hnone | ⟨mid, d, rest, heq, hd, hmid⟩
  · obtain ⟨q, hq, hwalk⟩ := walk_next_last hs hfuel hnone
    obtain ⟨mid, d, heq⟩ := (List.eq_nil_or_concat (c :: post)).resolve_left (List.cons_ne_nil _ _)
    rw [List.concat_eq_append] at heq
    rw [heq, last_append] at hq
    obtain rfl : d.1 = q := Option.some.inj hq
    exact .inr ⟨hnone, mid, d, heq, hwalk⟩
  · have hlen := congrArg List.length heq
    rw [List.length_append, List.length_cons, List.length_cons] at hlen
    refine .inl ⟨mid, d, rest, heq, hd, hmid, walk_next_found (heq ▸ hs) ?_ (by omega) hd hmid⟩
    rw [← heq]
    rfl

/-- Where a walk backwards ends. -/
theorem walk_prev_from {h : Heap α} (stop : α → Bool) (fuel : Nat) {pre : List (Nat × α)}
    {c : Nat × α} {after : Option Nat} (hs : Segment h none (pre ++ [c]) after)
    (hfuel : pre.length < fuel) :
    (∃ front d mid, pre ++ [c] = front ++ d :: mid ∧ stop d.2 = true ∧
      (∀ e ∈ mid, stop e.2 = false) ∧
      walk Node.prev stop h fuel c.1 = some (d.1, true)) ∨
    (∀ e ∈ pre ++ [c], stop e.2 = false) ∧ ∃ d mid, pre ++ [c] = d :: mid ∧
      walk Node.prev stop h fuel c.1 = some (d.1, false) := by
  have hlast : last none (pre ++ [c]) = some c.1 := by
    rw [last_append]
    rfl
  rcases last_hit stop (pre ++ [c]) with hnone | ⟨front, d, mid, heq, hd, hmid⟩
  · have hroom : (pre ++ [c]).length ≤ fuel := by
      rw [List.length_append, List.length_singleton]
      omega
    obtain ⟨q, hq, hwalk⟩ := walk_prev_first hs hlast hroom hnone
    obtain ⟨d, mid, heq⟩ := List.exists_cons_of_ne_nil (l := pre ++ [c]) (by simp)
    rw [heq] at hq
    obtain rfl : d.1 = q := Option.some.inj hq
    exact .inr ⟨hnone, d, mid, heq, hwalk⟩
  · have hlen := congrArg List.length heq
    simp only [List.length_append, List.length_cons, List.length_nil] at hlen
    have hmidlen : mid.length < fuel := by omega
    rw [heq] at hs hlast
    exact .inl ⟨front, d, mid, heq, hd, hmid, walk_prev_found hs hlast hmidlen hd hmid⟩

/-! ## Rings

A ring has a head, which is no node: the links that lead to it are `none`, and it
has a `next` and a `prev` of its own.
-/

structure Circle (α : Type) where
  heap : Heap α
  next : Option Nat
  prev : Option Nat
  deriving DecidableEq, Repr

/-- Going round, the cells are met in this order, and in the other one backwards. -/
structure Circle.Has (r : Circle α) (cells : List (Nat × α)) : Prop where
  segment : Segment r.heap none cells none
  next : r.next = first cells none
  prev : r.prev = last none cells
  apart : Apart cells

/-- `p->prev = v`, where `p` may be the head. -/
def Circle.setPrev (p v : Option Nat) (r : Circle α) : Option (Circle α) :=
  match p with
  | none => some { r with prev := v }
  | some p => (read r.heap p).map fun n => { r with heap := write p { n with prev := v } r.heap }

/-- `p->next = v`. -/
def Circle.setNext (p v : Option Nat) (r : Circle α) : Option (Circle α) :=
  match p with
  | none => some { r with next := v }
  | some p => (read r.heap p).map fun n => { r with heap := write p { n with next := v } r.heap }

/-- `list_del`: the neighbours of a node are pointed at each other; the node keeps its links. -/
def Circle.delete (p : Nat) (r : Circle α) : Option (Circle α) :=
  (read r.heap p).bind fun n => (r.setPrev n.next n.prev).bind fun r => r.setNext n.prev n.next

def Circle.free (p : Nat) (r : Circle α) : Circle α := { r with heap := Links.free p r.heap }

theorem read_free {h : Heap α} (p : Nat) : read (Links.free p h) p = none := by
  rw [read, Links.free]
  by_cases hp : p < h.length
  · rw [List.getElem?_set_self hp]
    rfl
  · rw [List.getElem?_eq_none (by rw [List.length_set]; omega)]
    rfl

/-- The segment behind the deleted node. -/
theorem Circle.setPrev_segment {r : Circle α} {cells : List (Nat × α)} {before : Option Nat}
    (v : Option Nat) (hs : Segment r.heap before cells none) (ha : Apart cells) :
    ∃ r', r.setPrev (first cells none) v = some r' ∧ Segment r'.heap v cells none ∧
      r'.next = r.next ∧ r'.prev = (if cells = [] then v else r.prev) ∧
      ∀ p, (∀ c ∈ cells, c.1 ≠ p) → read r'.heap p = read r.heap p := by
  cases cells with
  | nil => exact ⟨{ r with prev := v }, rfl, trivial, rfl, rfl, fun _ _ => rfl⟩
  | cons c cells =>
    obtain ⟨hseg, hsame⟩ := relink_first v hs ha
    refine ⟨{ r with heap := write c.1 ⟨v, first cells none, c.2⟩ r.heap },
      ?_, hseg, rfl, rfl, hsame⟩
    change (read r.heap c.1).map _ = _
    rw [hs.1]
    rfl

/-- The segment in front of it. -/
theorem Circle.setNext_segment {r : Circle α} {cells : List (Nat × α)} {after : Option Nat}
    (v : Option Nat) (hs : Segment r.heap none cells after) (ha : Apart cells) :
    ∃ r', r.setNext (last none cells) v = some r' ∧ Segment r'.heap none cells v ∧
      r'.prev = r.prev ∧ r'.next = (if cells = [] then v else r.next) ∧
      ∀ p, (∀ c ∈ cells, c.1 ≠ p) → read r'.heap p = read r.heap p := by
  rcases List.eq_nil_or_concat cells with rfl | ⟨init, c, rfl⟩
  · exact ⟨{ r with next := v }, rfl, trivial, rfl, rfl, fun _ _ => rfl⟩
  · rw [List.concat_eq_append] at hs ha ⊢
    obtain ⟨hseg, hsame⟩ := relink_last v hs ha
    refine ⟨{ r with heap := write c.1 ⟨last none init, v, c.2⟩ r.heap }, ?_, hseg, rfl, ?_, hsame⟩
    · rw [last_append]
      change (read r.heap c.1).map _ = _
      rw [hs.read_cell]
      rfl
    · rw [if_neg (by simp)]

theorem first_eq_of_ne_nil {cells : List (Nat × α)} (h : cells ≠ []) (a b : Option Nat) :
    first cells a = first cells b := by
  cases cells with
  | nil => exact absurd rfl h
  | cons c cells => rfl

theorem last_eq_of_ne_nil {cells : List (Nat × α)} (h : cells ≠ []) (a b : Option Nat) :
    last a cells = last b cells := by
  cases cells with
  | nil => exact absurd rfl h
  | cons c cells => rfl

/-- Deleting a node and freeing it leaves a ring of the others. -/
theorem Circle.Has.delete {r : Circle α} {pre post : List (Nat × α)} {c : Nat × α}
    (h : r.Has (pre ++ c :: post)) :
    ∃ r', r.delete c.1 = some r' ∧ (r'.free c.1).Has (pre ++ post) := by
  have hread := h.segment.read_cell
  obtain ⟨hapre, hacons, hcross⟩ := h.apart.cut
  have hcut : Apart ([c] ++ post) := hacons
  obtain ⟨-, hapost, hcpost⟩ := hcut.cut
  obtain ⟨hpre, -, hpost⟩ := (segment_append _ _ _ _ _).mp h.segment
  obtain ⟨r₁, hset, hpost₁, hnext₁, hprev₁, hsame₁⟩ :=
    Circle.setPrev_segment (last none pre) hpost hapost
  have hpre₁ := hpre.frame fun d hd => hsame₁ d.1 fun e he => (hcross d hd e (by simp [he])).symm
  obtain ⟨r₂, hset', hpre₂, hprev₂, hnext₂, hsame₂⟩ :=
    Circle.setNext_segment (first post none) hpre₁ hapre
  have hpost₂ := hpost₁.frame fun d hd => hsame₂ d.1 fun e he => hcross e he d (by simp [hd])
  refine ⟨r₂, ?_, ?_, ?_, ?_, ?_⟩
  · rw [Circle.delete, hread, Option.bind_some, hset, Option.bind_some, hset']
  · change Segment (Links.free c.1 r₂.heap) none (pre ++ post) none
    rw [segment_append]
    refine ⟨hpre₂.frame fun d hd => ?_, hpost₂.frame fun d hd => ?_⟩
    · exact read_free_other (hcross d hd c (by simp)).symm _
    · exact read_free_other (hcpost c (by simp) d hd) _
  · change r₂.next = _
    rw [hnext₂, first_append]
    split
    · next hnil => rw [hnil, first]
    · next hne => rw [hnext₁, h.next, first_append, first_eq_of_ne_nil hne]
  · change r₂.prev = _
    rw [hprev₂, hprev₁, last_append]
    split
    · next hnil => rw [hnil, last]
    · next hne =>
      rw [h.prev, last_append, last, last_eq_of_ne_nil hne]
  · have hsub : (pre ++ post).Sublist (pre ++ c :: post) :=
      (List.Sublist.refl pre).append (List.sublist_cons_self c post)
    exact h.apart.sublist (hsub.map _)

/-! ## A loop over a ring whose body may change it -/

/-- How such a loop goes wrong: the node it stands on was freed, the body failed, or
it is not through yet. -/
inductive Stop (ε : Type) where
  | freed
  | failed : ε → Stop ε
  | unfinished
  deriving DecidableEq, Repr

section Each

variable {σ ε : Type} (ring : σ → Circle α) (body : α → σ → Except ε σ)

/-- `for (pos = p; pos != head; pos = pos->next)`: the nodes visited, and the state
behind. The next link is read when the body is through. -/
def forEach : Nat → Option Nat → σ → Except (Stop ε) (List Nat × σ)
  | _, none, s => .ok ([], s)
  | 0, some _, _ => .error .unfinished
  | fuel + 1, some p, s =>
    match read (ring s).heap p with
    | none => .error .freed
    | some n =>
      match body n.item s with
      | .error x => .error (.failed x)
      | .ok s' =>
        match read (ring s').heap p with
        | none => .error .freed
        | some n' => (forEach fuel n'.next s').map fun r => (p :: r.1, r.2)

/-- The body goes over the items and leaves the ring as it is. -/
inductive Quiet : List α → σ → σ → Prop where
  | nil (s : σ) : Quiet [] s s
  | cons {x : α} {xs : List α} {s s₁ s₂ : σ} : body x s = .ok s₁ →
      ring s₁ = ring s → Quiet xs s₁ s₂ →
      Quiet (x :: xs) s s₂

variable {ring body}

theorem forEach_step {c : Nat × α} {before after : Option Nat} {cells : List (Nat × α)} {s s₁ : σ}
    (hs : Segment (ring s).heap before (c :: cells) after) (hb : body c.2 s = .ok s₁)
    (hring : ring s₁ = ring s) (fuel : Nat) : forEach ring body (fuel + 1) (some c.1) s =
      (forEach ring body fuel (first cells after) s₁).map fun r => (c.1 :: r.1, r.2) := by
  rw [forEach, hs.1]
  simp only [hb, hring, hs.1]

/-- A quiet body is run once for every cell. -/
theorem forEach_quiet {cells : List (Nat × α)} {before : Option Nat} {s s' : σ}
    (hs : Segment (ring s).heap before cells none) (hq : Quiet ring body (cells.map Prod.snd) s s')
    (fuel : Nat) (hfuel : cells.length ≤ fuel) :
    forEach ring body fuel (first cells none) s = .ok (cells.map Prod.fst, s') := by
  induction cells generalizing before s fuel with
  | nil =>
    cases hq
    cases fuel <;> rfl
  | cons c cells ih =>
    obtain _ | ⟨hb, hring, hrest⟩ := hq
    cases fuel with
    | zero => cases hfuel
    | succ fuel =>
      rw [first, forEach_step hs hb hring,
        ih (hring ▸ hs.2) hrest fuel (Nat.le_of_succ_le_succ hfuel)]
      rfl

/-- A body that fails on a cell, or frees it, ends the loop there. -/
theorem forEach_stops {pre post : List (Nat × α)} {c : Nat × α} {before after : Option Nat}
    {s s₁ : σ} (hs : Segment (ring s).heap before (pre ++ c :: post) after)
    (hq : Quiet ring body (pre.map Prod.snd) s s₁)
    (hend : ∀ s₂, body c.2 s₁ = .ok s₂ → read (ring s₂).heap c.1 = none)
    (fuel : Nat) (r : List Nat × σ) :
    forEach ring body fuel (first (pre ++ c :: post) after) s ≠ .ok r := by
  induction pre generalizing before s fuel r with
  | nil =>
    cases hq
    cases fuel with
    | zero => exact fun h => by cases h
    | succ fuel =>
      intro h
      rw [List.nil_append, first, forEach, hs.1] at h
      simp only at h
      split at h
      · cases h
      · next s₂ hb =>
        rw [hend s₂ hb] at h
        cases h
  | cons d pre ih =>
    obtain _ | ⟨hb, hring, hrest⟩ := hq
    cases fuel with
    | zero => exact fun h => by cases h
    | succ fuel =>
      have hs' : Segment (ring s).heap before (d :: (pre ++ c :: post)) after := hs
      rw [List.cons_append, first, forEach_step hs' hb hring]
      intro h
      cases hf : forEach ring body fuel (first (pre ++ c :: post) after) _ with
      | error x =>
        rw [hf] at h
        cases h
      | ok r' => exact ih (hring ▸ hs'.2) hrest fuel r' hf

end Each

end Links
