import Mathlib.Data.List.Basic
import Mathlib.Data.List.Induction
import Mathlib.Data.List.Nodup

/-!
# Orders in a list of events

What happened last, and what happened after what, in a list to which events are
added at the end; and the places of a list that grew in front.
-/
namespace Schedule

variable {α : Type} {a b e : α} {stop : α → Prop} {es : List α}

/-- After some `a`, nothing happened that `stop` holds of. -/
def Since (stop : α → Prop) (a : α) (es : List α) : Prop :=
  ∃ pre post, es = pre ++ a :: post ∧ ∀ e ∈ post, ¬ stop e

/-- Some `a` happened, and a `b` behind it. -/
def Then (a b : α) (es : List α) : Prop := ∃ pre post, es = pre ++ a :: post ∧ b ∈ post

/-- `a` happened once at most. -/
def Once (a : α) (es : List α) : Prop := ∀ pre post, es = pre ++ a :: post → a ∉ pre ∧ a ∉ post

/-- Where an event lies in a list that grew by one. -/
theorem snoc_eq_split {pre post : List α} (h : es ++ [e] = pre ++ a :: post) :
    (es = pre ∧ e = a ∧ post = []) ∨ ∃ mid, post = mid ++ [e] ∧ es = pre ++ a :: mid := by
  cases post using List.reverseRecOn with
  | nil =>
    obtain ⟨hes, he⟩ := List.append_inj' h rfl
    exact Or.inl ⟨hes, (List.cons.inj he).1, rfl⟩
  | append_singleton mid z =>
    rw [← List.cons_append, ← List.append_assoc] at h
    obtain ⟨hes, he⟩ := List.append_inj' h rfl
    obtain rfl : e = z := (List.cons.inj he).1
    exact Or.inr ⟨mid, rfl, hes⟩

/-- And in one that grew in front. -/
theorem cons_eq_split {pre post : List α} (h : e :: es = pre ++ a :: post) :
    (pre = [] ∧ e = a ∧ es = post) ∨ ∃ mid, pre = e :: mid ∧ es = mid ++ a :: post := by
  cases pre with
  | nil =>
    obtain ⟨he, hes⟩ := List.cons.inj h
    exact Or.inl ⟨rfl, he, hes⟩
  | cons z mid =>
    obtain ⟨rfl, hes⟩ := List.cons.inj h
    exact Or.inr ⟨mid, rfl, hes⟩

/-- What holds of every place holds of the first, and of the others with it in front. -/
theorem forall_split_cons {P : List α → α → List α → Prop} :
    (∀ pre a post, e :: es = pre ++ a :: post → P pre a post) ↔
      P [] e es ∧ ∀ pre a post, es = pre ++ a :: post → P (e :: pre) a post := by
  constructor
  · intro h
    exact ⟨h [] e es rfl, fun pre a post hsplit =>
      h (e :: pre) a post (by rw [hsplit, List.cons_append])⟩
  · rintro ⟨hfirst, hrest⟩ pre a post hsplit
    rcases cons_eq_split hsplit with ⟨rfl, rfl, rfl⟩ | ⟨mid, rfl, hes⟩
    · exact hfirst
    · exact hrest mid a post hes

theorem Since.mem (h : Since stop a es) : a ∈ es := by
  obtain ⟨pre, post, rfl, -⟩ := h
  simp

theorem since_snoc_self : Since stop a (es ++ [a]) := ⟨es, [], rfl, fun _ h => by cases h⟩

theorem Since.snoc (h : Since stop a es) (he : ¬ stop e) : Since stop a (es ++ [e]) := by
  obtain ⟨pre, post, rfl, hpost⟩ := h
  refine ⟨pre, post ++ [e], by simp, fun x hx => ?_⟩
  cases List.mem_append.mp hx with
  | inl hx =>
    exact hpost x hx
  | inr hx =>
    obtain rfl := List.mem_singleton.mp hx
    exact he

theorem since_snoc : Since stop a (es ++ [e]) ↔ e = a ∨ (¬ stop e ∧ Since stop a es) := by
  constructor
  · rintro ⟨pre, post, hsplit, hpost⟩
    rcases snoc_eq_split hsplit with ⟨-, rfl, -⟩ | ⟨mid, rfl, rfl⟩
    · exact Or.inl rfl
    · exact Or.inr ⟨hpost e (by simp), pre, mid, rfl, fun x hx => hpost x (by simp [hx])⟩
  · rintro (rfl | ⟨he, h⟩)
    · exact since_snoc_self
    · exact h.snoc he

/-- An event that has nothing to do with it. -/
theorem since_snoc_other (hne : e ≠ a) (he : ¬ stop e) :
    Since stop a (es ++ [e]) ↔ Since stop a es := by
  rw [since_snoc]
  exact ⟨fun h => (h.resolve_left hne).2, fun h => Or.inr ⟨he, h⟩⟩

/-- The last of the events that stop each other is one. -/
theorem Since.eq_of_stop (h : Since stop a es) (h' : Since stop b es) (ha : stop a) (hb : stop b) :
    a = b := by
  induction es using List.reverseRecOn with
  | nil => exact absurd h.mem List.not_mem_nil
  | append_singleton es e ih =>
    rcases since_snoc.mp h with rfl | ⟨hstop, h⟩
    · rcases since_snoc.mp h' with rfl | ⟨hstop, -⟩
      · rfl
      · exact absurd ha hstop
    · rcases since_snoc.mp h' with rfl | ⟨-, h'⟩
      · exact absurd hb hstop
      · exact ih h h'

theorem Then.mem (h : Then a b es) : a ∈ es := by
  obtain ⟨pre, post, rfl, -⟩ := h
  simp

theorem Then.snoc (h : Then a b es) : Then a b (es ++ [e]) := by
  obtain ⟨pre, post, rfl, hb⟩ := h
  exact ⟨pre, post ++ [e], by simp, List.mem_append_left _ hb⟩

theorem then_snoc_self (h : a ∈ es) : Then a b (es ++ [b]) := by
  obtain ⟨pre, post, rfl⟩ := List.append_of_mem h
  exact ⟨pre, post ++ [b], by simp, by simp⟩

theorem then_snoc : Then a b (es ++ [e]) ↔ Then a b es ∨ (e = b ∧ a ∈ es) := by
  constructor
  · rintro ⟨pre, post, hsplit, hb⟩
    rcases snoc_eq_split hsplit with ⟨-, -, rfl⟩ | ⟨mid, rfl, rfl⟩
    · cases hb
    · cases List.mem_append.mp hb with
      | inl hb =>
        exact Or.inl ⟨pre, mid, rfl, hb⟩
      | inr hb =>
        exact Or.inr ⟨(List.mem_singleton.mp hb).symm, by simp⟩
  · rintro (h | ⟨rfl, h⟩)
    · exact h.snoc
    · exact then_snoc_self h

theorem then_snoc_other (hne : e ≠ b) : Then a b (es ++ [e]) ↔ Then a b es := by
  rw [then_snoc]
  exact ⟨fun h => h.resolve_right fun h => hne h.1, Or.inl⟩

/-- What happened has a `b` behind it or has none. -/
theorem since_or_then (h : a ∈ es) : Since (· = b) a es ∨ Then a b es := by
  obtain ⟨pre, post, rfl⟩ := List.append_of_mem h
  by_cases hb : b ∈ post
  · exact Or.inr ⟨pre, post, rfl, hb⟩
  · exact Or.inl ⟨pre, post, rfl, fun e he heq => hb (heq ▸ he)⟩

theorem once_of_nodup (h : es.Nodup) : Once a es := by
  rintro pre post rfl
  rw [List.nodup_append, List.nodup_cons] at h
  exact ⟨fun hmem => h.2.2 a hmem a List.mem_cons_self rfl, h.2.1.1⟩

theorem Once.init (h : Once a (es ++ [e])) : Once a es := by
  rintro pre post rfl
  obtain ⟨hpre, hpost⟩ := h pre (post ++ [e]) (by simp)
  exact ⟨hpre, fun hmem => hpost (List.mem_append_left _ hmem)⟩

theorem Once.last (h : Once a (es ++ [a])) : a ∉ es := (h es [] rfl).1

/-- Of one that happened once, not both can be said. -/
theorem Once.not_since_then (h : Once a es) (hs : Since (· = b) a es) (ht : Then a b es) :
    False := by
  obtain ⟨pre, post, rfl, hpost⟩ := hs
  obtain ⟨pre', post', hsplit, hb⟩ := ht
  have hne := h pre post rfl
  rcases List.append_eq_append_iff.mp hsplit with ⟨mid, rfl, hmid⟩ | ⟨mid, rfl, hmid⟩
  · cases mid with
    | nil =>
      obtain ⟨-, rfl⟩ := List.cons.inj hmid
      exact hpost b hb rfl
    | cons x mid =>
      obtain ⟨-, rfl⟩ := List.cons.inj hmid
      exact hne.2 (by simp)
  · cases mid with
    | nil =>
      obtain ⟨-, rfl⟩ := List.cons.inj hmid
      exact hpost b hb rfl
    | cons x mid =>
      obtain ⟨rfl, -⟩ := List.cons.inj hmid
      exact hne.1 (by simp)

end Schedule
