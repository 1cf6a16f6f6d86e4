import Mathlib.Algebra.BigOperators.Group.List.Basic
import Mathlib.Data.List.Induction
import Mathlib.Data.List.TakeWhile

/-!
# Maximal runs

The longest stretches of a list without separators, in their order.
-/
namespace Runs

variable {α : Type} (p : α → Bool)

/-- The nonempty pieces between separators. -/
def runs (s : List α) : List (List α) := (s.splitOnP p).filter fun w => !w.isEmpty

@[simp] theorem runs_nil : runs p [] = [] := by
  rw [runs, List.splitOnP_nil]
  rfl

variable {p}

theorem runs_sep {d : α} (h : p d = true) (s : List α) : runs p (d :: s) = runs p s := by
  rw [runs, List.splitOnP_cons_eq_if_modifyHead, if_pos h, List.filter_cons_of_neg (by simp), runs]

/-- Separators in front are in no run. -/
theorem runs_dropWhile (s : List α) : runs p (s.dropWhile p) = runs p s := by
  induction s with
  | nil => rfl
  | cons d s ih =>
    cases hd : p d with
    | true => rw [List.dropWhile_cons_of_pos hd, ih, runs_sep hd]
    | false => rw [List.dropWhile_cons_of_neg (by simp [hd])]

theorem runs_append {w rest : List α} (hne : w ≠ []) (hw : ∀ c ∈ w, p c = false)
    (hrest : rest.head?.all p = true) : runs p (w ++ rest) = w :: runs p rest := by
  have hkept : (!w.isEmpty) = true := by simpa using hne
  cases rest with
  | nil =>
    rw [List.append_nil, runs, List.splitOnP_eq_singleton hw, List.filter_cons,
      if_pos hkept, runs_nil]
    rfl
  | cons d rest =>
    have hd : p d = true := hrest
    rw [runs, List.splitOnP_append_cons_of_forall_mem hw d hd, List.filter_cons, if_pos hkept,
      runs_sep hd, runs]

/-- What stops a front stretch is the end or a separator. -/
theorem head_dropWhile_not (s : List α) : (s.dropWhile fun c => !p c).head?.all p = true := by
  cases hs : s.dropWhile fun c => !p c with
  | nil => rfl
  | cons d rest =>
    have hd := List.head?_dropWhile_not (fun c => !p c) s
    rw [hs] at hd
    simpa using hd

/-- The first run, and what is behind it. -/
theorem runs_cons {c : α} {s : List α} (hc : p c = false) :
    runs p (c :: s) = (c :: s.takeWhile fun d => !p d) :: runs p (s.dropWhile fun d => !p d) := by
  have hsplit : c :: s = (c :: s.takeWhile fun d => !p d) ++ s.dropWhile fun d => !p d := by
    rw [List.cons_append, List.takeWhile_append_dropWhile]
  calc runs p (c :: s)
      = runs p ((c :: s.takeWhile fun d => !p d) ++ s.dropWhile fun d => !p d) := by rw [← hsplit]
    _ = (c :: s.takeWhile fun d => !p d) :: runs p (s.dropWhile fun d => !p d) := by
      refine runs_append (List.cons_ne_nil _ _) (fun d hd => ?_) (head_dropWhile_not s)
      rcases List.mem_cons.mp hd with rfl | hd
      · exact hc
      · simpa using List.mem_takeWhile_imp hd

theorem splitOnP_flatten (s : List α) : (s.splitOnP p).flatten = s.filter fun c => !p c := by
  induction s with
  | nil => rfl
  | cons d s ih =>
    rw [List.splitOnP_cons_eq_if_modifyHead]
    cases hd : p d with
    | true => rw [if_pos rfl, List.flatten_cons, ih, List.nil_append,
        List.filter_cons_of_neg (by simp [hd])]
    | false =>
      obtain ⟨w, ws, hcons⟩ := List.exists_cons_of_ne_nil (List.splitOnP_ne_nil p s)
      rw [hcons, List.flatten_cons] at ih
      rw [if_neg (by simp), hcons, List.modifyHead_cons, List.flatten_cons, List.cons_append, ih,
        List.filter_cons_of_pos (by simp [hd])]

/-- Every character that is no separator is in one run, at its place. -/
theorem runs_flatten (s : List α) : (runs p s).flatten = s.filter fun c => !p c := by
  rw [runs, List.flatten_filter_not_isEmpty, splitOnP_flatten]

theorem mem_of_mem_runs {s w : List α} (hw : w ∈ runs p s) {c : α} (hc : c ∈ w) :
    c ∈ s ∧ p c = false := by
  have hmem := List.mem_flatten.mpr ⟨w, hw, hc⟩
  rw [runs_flatten, List.mem_filter] at hmem
  exact ⟨hmem.1, by simpa using hmem.2⟩

theorem ne_nil_of_mem_runs {s w : List α} (hw : w ∈ runs p s) : w ≠ [] := by
  have hkept := (List.mem_filter.mp hw).2
  simpa using hkept

theorem length_le_of_mem_runs {s w : List α} (hw : w ∈ runs p s) : w.length ≤ s.length := by
  have hsub := (List.sublist_flatten_of_mem hw).length_le
  rw [runs_flatten] at hsub
  exact hsub.trans (List.length_filter_le _ _)

/-- There are no more runs than characters. -/
theorem length_runs_le (s : List α) : (runs p s).length ≤ s.length := by
  have hone : ∀ n ∈ (runs p s).map List.length, 1 ≤ n := by
    intro n hn
    obtain ⟨w, hw, rfl⟩ := List.mem_map.mp hn
    exact List.length_pos_iff.mpr (ne_nil_of_mem_runs hw)
  calc (runs p s).length
      = ((runs p s).map List.length).length := (List.length_map _).symm
    _ ≤ ((runs p s).map List.length).sum := List.length_le_sum_of_one_le _ hone
    _ = (s.filter fun c => !p c).length := by rw [← List.length_flatten, runs_flatten]
    _ ≤ s.length := List.length_filter_le _ _

theorem runs_blank {s : List α} (h : ∀ c ∈ s, p c = true) : runs p s = [] := by
  rw [← runs_dropWhile, List.dropWhile_eq_nil_iff.mpr h, runs_nil]

/-- Where no run goes on behind a cut, the runs are those of both parts. -/
theorem runs_split (s : List α) {t : List α}
    (h : (∀ c, s.getLast? = some c → p c = true) ∨ ∀ c, t.head? = some c → p c = true) :
    runs p (s ++ t) = runs p s ++ runs p t := by
  induction hn : s.length using Nat.strong_induction_on generalizing s with
  | _ n ih =>
    cases s with
    | nil => rw [runs_nil, List.nil_append, List.nil_append]
    | cons c s =>
      rw [List.length_cons] at hn
      have htail : ∀ u, u <:+ s → u ≠ [] →
          (∀ d, u.getLast? = some d → p d = true) ∨ ∀ d, t.head? = some d → p d = true := by
        rintro u ⟨v, rfl⟩ hu
        refine h.imp_left fun h d hd => h d ?_
        rw [← List.cons_append, List.getLast?_append, hd, Option.some_or]
      rw [List.cons_append]
      cases hc : p c with
      | true =>
        rw [runs_sep hc, runs_sep hc]
        by_cases hs : s = []
        · rw [hs, runs_nil, List.nil_append, List.nil_append]
        · exact ih s.length (by omega) s (htail s List.suffix_rfl hs) rfl
      | false =>
        rw [runs_cons hc, runs_cons hc, List.takeWhile_append, List.dropWhile_append]
        have hsplit :=
          congrArg List.length (List.takeWhile_append_dropWhile (p := fun d => !p d) (l := s))
        rw [List.length_append] at hsplit
        by_cases hend : (s.dropWhile fun d => !p d) = []
        · -- the run is all of `c :: s`, so that `t` has to begin with a separator
          have hall : (s.takeWhile fun d => !p d) = s := by
            have hjoin := List.takeWhile_append_dropWhile (p := fun d => !p d) (l := s)
            rwa [hend, List.append_nil] at hjoin
          have hhead : ∀ d, t.head? = some d → p d = true := by
            refine h.resolve_left fun hlast => ?_
            obtain ⟨d, hd⟩ :=
              Option.isSome_iff_exists.mp (List.getLast?_isSome.mpr (List.cons_ne_nil c s))
            have hsep := hlast d hd
            have hmem := List.mem_of_getLast? hd
            rcases List.mem_cons.mp hmem with rfl | hmem
            · rw [hc] at hsep
              cases hsep
            · rw [← hall] at hmem
              have hnot := List.mem_takeWhile_imp hmem
              rw [hsep] at hnot
              cases hnot
          have hstop : (t.takeWhile fun d => !p d) = [] ∧ (t.dropWhile fun d => !p d) = t := by
            cases t with
            | nil => exact ⟨rfl, rfl⟩
            | cons d t =>
              rw [List.takeWhile_cons_of_neg (by simp [hhead d rfl]), List.dropWhile_cons_of_neg (by
                simp [hhead d rfl])]
              exact ⟨rfl, rfl⟩
          rw [hall, if_pos rfl, hstop.1, List.append_nil, hend, List.isEmpty_nil, if_pos rfl,
            hstop.2, runs_nil]
          rfl
        · have hpos := List.length_pos_of_ne_nil hend
          have hrest := htail _ (List.dropWhile_suffix fun d => !p d) hend
          rw [if_neg (by omega), if_neg (by simpa using hend), ih _ (by omega) _ hrest rfl,
            List.cons_append]

/-- The last run, and what is in front of it. -/
theorem runs_last {s w : List α} (hs : ∀ c, s.getLast? = some c → p c = true) (hne : w ≠ [])
    (hw : ∀ c ∈ w, p c = false) : runs p (s ++ w) = runs p s ++ [w] := by
  have hrun : runs p w = [w] := by
    have happend : runs p (w ++ []) = w :: runs p [] := runs_append hne hw rfl
    rwa [List.append_nil, runs_nil] at happend
  rw [runs_split s (.inl hs), hrun]

/-- What a list ends with is a run that may go on. -/
theorem exists_open_run (s : List α) : ∃ front w, s = front ++ w ∧
    (∀ c, front.getLast? = some c → p c = true) ∧ ∀ c ∈ w, p c = false := by
  induction s using List.reverseRecOn with
  | nil => exact ⟨[], [], rfl, by simp, by simp⟩
  | append_singleton s d ih =>
    cases hd : p d with
    | true => exact ⟨s ++ [d], [], (List.append_nil _).symm, by simpa using hd, by simp⟩
    | false =>
      obtain ⟨front, w, rfl, hfront, hw⟩ := ih
      refine ⟨front, w ++ [d], List.append_assoc _ _ _, hfront, fun c hc => ?_⟩
      rcases List.mem_append.mp hc with hc | hc
      · exact hw c hc
      · exact List.mem_singleton.mp hc ▸ hd

/-- Only there: a run that goes on is one of the whole. -/
theorem runs_split_iff (s t : List α) : runs p (s ++ t) = runs p s ++ runs p t ↔
    (∀ c, s.getLast? = some c → p c = true) ∨ ∀ c, t.head? = some c → p c = true := by
  refine ⟨fun heq => ?_, runs_split s⟩
  by_contra hboth
  simp only [not_or, not_forall] at hboth
  obtain ⟨⟨c, hc, hpc⟩, d, hd, hpd⟩ := hboth
  rw [Bool.not_eq_true] at hpc hpd
  -- the run that `c` ends goes on at `d`
  obtain ⟨front, w, rfl, hfront, hw⟩ := exists_open_run (p := p) s
  obtain ⟨t, rfl⟩ := List.head?_eq_some_iff.mp hd
  have hne : w ≠ [] := by
    rintro rfl
    rw [List.append_nil] at hc
    rw [hfront c hc] at hpc
    cases hpc
  have hsplit : d :: t = (d :: t.takeWhile fun c => !p c) ++ t.dropWhile fun c => !p c := by
    rw [List.cons_append, List.takeWhile_append_dropWhile]
  have hword : ∀ c ∈ d :: t.takeWhile fun c => !p c, p c = false := by
    intro c hc
    rcases List.mem_cons.mp hc with rfl | hc
    · exact hpd
    · simpa using List.mem_takeWhile_imp hc
  have hjoined : ∀ c ∈ w ++ d :: t.takeWhile fun c => !p c, p c = false := fun c hc =>
    (List.mem_append.mp hc).elim (hw c) (hword c)
  have hwhole : runs p (front ++ w ++ d :: t) = runs p front ++
      (w ++ d :: t.takeWhile fun c => !p c) :: runs p (t.dropWhile fun c => !p c) := by
    rw [hsplit, List.append_assoc, runs_split front (.inl hfront), ← List.append_assoc w,
      runs_append (by simp) hjoined (head_dropWhile_not t)]
  have hlen := congrArg List.length heq
  rw [hwhole, runs_last hfront hne hw, runs_cons hpd] at hlen
  simp at hlen

/-- Separators at the end are in no run. -/
theorem runs_append_blank (s : List α) {t : List α} (h : ∀ c ∈ t, p c = true) :
    runs p (s ++ t) = runs p s := by
  rw [runs_split s (.inr fun c hc => h c (List.mem_of_head? hc)), runs_blank h, List.append_nil]

end Runs
