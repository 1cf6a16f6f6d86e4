import Mathlib.Data.List.Basic
import Mathlib.Data.List.Flatten

/-!
# Sessions on one shared resource

Each owner runs a session: an item that takes the resource, items that use it,
and an item that gives it back. A schedule interleaves the sessions. It is
clean when every use finds the resource with its own session, and this is so
exactly when the sessions follow one another.
-/
namespace Sessions

inductive Kind where
  | start | middle | finish
  deriving DecidableEq, Repr

variable {ι α : Type}

/-- The sessions of the owners in `order`, one after the other. -/
def serial (items : ι → List α) (order : List ι) : List (ι × α) :=
  order.flatMap fun i => (items i).map fun a => (i, a)

/-- A whole session. -/
def Session (kind : α → Kind) (l : List α) : Prop :=
  ∃ a ms z, l = a :: (ms ++ [z]) ∧ kind a = .start ∧ (∀ m ∈ ms, kind m = .middle) ∧ kind z = .finish

/-- Who holds the resource after an item. -/
def holder (kind : α → Kind) (o : Option ι) (e : ι × α) : Option ι :=
  match kind e.2 with
  | .start => some e.1
  | .middle => o
  | .finish => none

/-- Every use finds the resource with its own session. -/
def Clean (kind : α → Kind) : Option ι → List (ι × α) → Prop
  | _, [] => True
  | o, e :: es => (kind e.2 ≠ .start → o = some e.1) ∧ Clean kind (holder kind o e) es

theorem serial_cons (items : ι → List α) (i : ι) (order : List ι) :
    serial items (i :: order) = (items i).map (fun a => (i, a)) ++ serial items order := by
  simp [serial]

theorem clean_session (kind : α → Kind) (i : ι) (ms : List α) (z : α)
    (hms : ∀ m ∈ ms, kind m = .middle) (hz : kind z = .finish) (es : List (ι × α))
    (h : Clean kind none es) :
    Clean kind (some i) ((ms ++ [z]).map (fun a => (i, a)) ++ es) := by
  induction ms with
  | nil =>
    refine ⟨fun _ => rfl, ?_⟩
    simp only [holder, hz]
    exact h
  | cons m ms ih =>
    refine ⟨fun _ => rfl, ?_⟩
    simp only [holder, hms m (by simp)]
    exact ih (fun b hb => hms b (by simp [hb]))

theorem clean_serial (kind : α → Kind) (items : ι → List α) (hs : ∀ i, Session kind (items i))
    (order : List ι) : Clean kind none (serial items order) := by
  induction order with
  | nil => trivial
  | cons i order ih =>
    obtain ⟨a, ms, z, hitems, ha, hms, hz⟩ := hs i
    rw [serial_cons, hitems, List.map_cons, List.cons_append]
    refine ⟨fun h => absurd ha h, ?_⟩
    simp only [holder, ha]
    exact clean_session kind i ms z hms hz _ ih

variable [DecidableEq ι]

/-- The items of one owner, in order. -/
def proj (i : ι) (es : List (ι × α)) : List α := (es.filter fun e => e.1 = i).map Prod.snd

theorem proj_cons_same (i : ι) (a : α) (es : List (ι × α)) :
    proj i ((i, a) :: es) = a :: proj i es := by simp [proj]

theorem proj_cons_other {i j : ι} (h : j ≠ i) (a : α) (es : List (ι × α)) :
    proj i ((j, a) :: es) = proj i es := by simp [proj, h]

theorem proj_append (i : ι) (es es' : List (ι × α)) :
    proj i (es ++ es') = proj i es ++ proj i es' := by simp [proj]

@[simp] theorem proj_map_same (i : ι) (l : List α) : proj i (l.map fun a => (i, a)) = l := by
  simp [proj, List.filter_map, Function.comp_def]

@[simp] theorem proj_map_other {i j : ι} (h : j ≠ i) (l : List α) :
    proj i (l.map fun a => (j, a)) = [] := by
  simp [proj, List.filter_map, Function.comp_def, h]

/-- Without a start, a session that does not hold the resource never can. -/
theorem not_clean_of_lost (kind : α → Kind) (i : ι) (es : List (ι × α)) (o : Option ι)
    (ho : o ≠ some i) (hne : proj i es ≠ []) (hns : ∀ a ∈ proj i es, kind a ≠ .start) :
    ¬ Clean kind o es := by
  induction es generalizing o with
  | nil => exact absurd rfl hne
  | cons e es ih =>
    obtain ⟨j, a⟩ := e
    rintro ⟨huse, hrest⟩
    by_cases hj : j = i
    · subst hj
      rw [proj_cons_same] at hns
      exact ho (huse (hns a (by simp)))
    · rw [proj_cons_other hj] at hne hns
      refine ih (holder kind o (j, a)) ?_ hne hns hrest
      rw [holder]
      split
      · exact fun h => hj (Option.some.inj h)
      · exact ho
      · simp

/-! ## A moment of a schedule -/

/-- Some sessions are over, the holder's has `todo` left, and the others have not started. -/
structure Underway (kind : α → Kind) (items : ι → List α) (o : Option ι) (todo : List α)
    (es : List (ι × α)) : Prop where
  others : ∀ i, o ≠ some i → proj i es = items i ∨ proj i es = []
  held : ∀ i, o = some i → proj i es = todo ∧ ∃ ms z, todo = ms ++ [z] ∧
    (∀ m ∈ ms, kind m = .middle) ∧ kind z = .finish

section Underway

variable {kind : α → Kind} {items : ι → List α} {o : Option ι} {todo : List α} {j : ι} {a : α}
  {es : List (ι × α)}

/-- At a start the resource is free: a holder under way would lose it for good. -/
theorem Underway.free (U : Underway kind items o todo ((j, a) :: es)) (hk : kind a = .start)
    (hclean : Clean kind (some j) es) : o = none := by
  cases o with
  | none => rfl
  | some i =>
    exfalso
    obtain ⟨hp, ms, z, htodo, hms, hz⟩ := U.held i rfl
    have hns : ∀ b ∈ proj i ((j, a) :: es), kind b ≠ .start := by
      intro b hb
      rw [hp, htodo, List.mem_append, List.mem_singleton] at hb
      rcases hb with hb | rfl
      · simp [hms b hb]
      · simp [hz]
    have hji : j ≠ i := by
      rintro rfl
      rw [proj_cons_same] at hns
      exact hns a (by simp) hk
    have hne : proj i es ≠ [] := by
      rw [← proj_cons_other hji a es, hp, htodo]
      simp
    rw [proj_cons_other hji] at hns
    exact not_clean_of_lost kind i es (some j) (fun h => hji (Option.some.inj h)) hne hns hclean

theorem Underway.start (U : Underway kind items none todo ((j, a) :: es))
    (hs : Session kind (items j)) :
    ∃ later, items j = a :: later ∧ Underway kind items (some j) later es := by
  have hall : proj j ((j, a) :: es) = items j := by
    cases U.others j (by simp) with
    | inl h => exact h
    | inr h =>
      rw [proj_cons_same] at h
      cases h
  obtain ⟨a', ms, z, hitems, -, hms, hz⟩ := hs
  rw [proj_cons_same, hitems, List.cons.injEq] at hall
  obtain ⟨rfl, htail⟩ := hall
  refine ⟨ms ++ [z], hitems, fun i hi => ?_, fun i hi => ?_⟩
  · have hij : j ≠ i := fun h => hi (by rw [h])
    rw [← proj_cons_other hij a es]
    exact U.others i (by simp)
  · rw [← Option.some.inj hi]
    exact ⟨htail, ms, z, rfl, hms, hz⟩

theorem Underway.middle (U : Underway kind items (some j) todo ((j, a) :: es))
    (hk : kind a = .middle) :
    ∃ later, todo = a :: later ∧ Underway kind items (some j) later es := by
  obtain ⟨hp, ms, z, rfl, hms, hz⟩ := U.held j rfl
  rw [proj_cons_same] at hp
  cases ms with
  | nil =>
    rw [List.nil_append, List.cons.injEq] at hp
    rw [hp.1, hz] at hk
    cases hk
  | cons m ms =>
    rw [List.cons_append, List.cons.injEq] at hp
    obtain ⟨rfl, hp⟩ := hp
    refine ⟨ms ++ [z], rfl, fun i hi => ?_, fun i hi => ?_⟩
    · have hij : j ≠ i := fun h => hi (by rw [h])
      rw [← proj_cons_other hij a es]
      exact U.others i hi
    · rw [← Option.some.inj hi]
      exact ⟨hp, ms, z, rfl, fun b hb => hms b (by simp [hb]), hz⟩

theorem Underway.finish (U : Underway kind items (some j) todo ((j, a) :: es))
    (hk : kind a = .finish) :
    todo = [a] ∧ Underway kind items none [] es := by
  obtain ⟨hp, ms, z, rfl, hms, hz⟩ := U.held j rfl
  rw [proj_cons_same] at hp
  cases ms with
  | cons m ms =>
    rw [List.cons_append, List.cons.injEq] at hp
    rw [hp.1, hms m (by simp)] at hk
    cases hk
  | nil =>
    rw [List.nil_append, List.cons.injEq] at hp
    obtain ⟨rfl, hp⟩ := hp
    refine ⟨rfl, fun i _ => ?_, by simp⟩
    by_cases hij : j = i
    · subst hij
      exact Or.inr hp
    · rw [← proj_cons_other hij a es]
      exact U.others i (fun h => hij (Option.some.inj h))

end Underway

/-- A clean schedule, from such a moment. -/
theorem serial_of_clean (kind : α → Kind) (items : ι → List α)
    (hs : ∀ i, Session kind (items i)) (es : List (ι × α)) (o : Option ι) (todo : List α)
    (hc : Clean kind o es) (U : Underway kind items o todo es) :
    ∃ order, (∀ i, o = some i → es = todo.map (fun a => (i, a)) ++ serial items order) ∧
      (o = none → es = serial items order) := by
  induction es generalizing o todo with
  | nil =>
    refine ⟨[], fun i hi => ?_, fun _ => rfl⟩
    obtain ⟨hp, -⟩ := U.held i hi
    rw [← hp]
    rfl
  | cons e es ih =>
    obtain ⟨j, a⟩ := e
    obtain ⟨huse, hclean⟩ := hc
    rw [holder] at hclean
    cases hk : kind a with
    | start =>
      simp only [hk] at hclean
      obtain rfl := U.free hk hclean
      obtain ⟨later, hitems, U'⟩ := U.start (hs j)
      obtain ⟨order, hsome, -⟩ := ih (some j) later hclean U'
      refine ⟨j :: order, by simp, fun _ => ?_⟩
      rw [hsome j rfl, serial_cons, hitems, List.map_cons, List.cons_append]
    | middle =>
      obtain rfl : o = some j := huse (by rw [hk]; decide)
      simp only [hk] at hclean
      obtain ⟨later, rfl, U'⟩ := U.middle hk
      obtain ⟨order, hsome, -⟩ := ih (some j) later hclean U'
      refine ⟨order, fun i hi => ?_, by simp⟩
      obtain rfl := Option.some.inj hi
      rw [hsome j rfl, List.map_cons, List.cons_append]
    | finish =>
      obtain rfl : o = some j := huse (by rw [hk]; decide)
      simp only [hk] at hclean
      obtain ⟨rfl, U'⟩ := U.finish hk
      obtain ⟨order, -, hnone⟩ := ih none [] hclean U'
      refine ⟨order, fun i hi => ?_, by simp⟩
      obtain rfl := Option.some.inj hi
      rw [hnone rfl]
      rfl

/-- An interleaving of whole sessions is clean exactly when it is serial. -/
theorem clean_iff_serial (kind : α → Kind) (items : ι → List α)
    (hs : ∀ i, Session kind (items i)) (es : List (ι × α)) (he : ∀ i, proj i es = items i) :
    Clean kind none es ↔ ∃ order, es = serial items order := by
  constructor
  · intro h
    obtain ⟨order, -, hnone⟩ :=
      serial_of_clean kind items hs es none [] h ⟨fun i _ => Or.inl (he i), by simp⟩
    exact ⟨order, hnone rfl⟩
  · rintro ⟨order, rfl⟩
    exact clean_serial kind items hs order

/-- Every owner of an interleaving of whole sessions has its place in the order. -/
theorem mem_order (kind : α → Kind) (items : ι → List α) (hs : ∀ i, Session kind (items i))
    (order : List ι) (he : ∀ i, proj i (serial items order) = items i) (i : ι) : i ∈ order := by
  by_contra hi
  have hnone : proj i (serial items order) = [] := by
    have hno : ∀ e ∈ serial items order, e.1 ≠ i := by
      rintro e hm rfl
      obtain ⟨j, hj, hm⟩ := List.mem_flatMap.mp hm
      obtain ⟨b, -, rfl⟩ := List.mem_map.mp hm
      exact hi hj
    rw [proj, List.map_eq_nil_iff, List.filter_eq_nil_iff]
    intro e hm
    simpa using hno e hm
  obtain ⟨a, ms, z, hitems, -⟩ := hs i
  rw [he i, hitems] at hnone
  cases hnone

end Sessions
