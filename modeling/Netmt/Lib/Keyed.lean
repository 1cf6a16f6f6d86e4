import Mathlib.Data.List.TakeWhile

/-!
# Lists sorted by a key

A list is kept sorted by a key and takes no second entry with the same key. The
place of a new entry is looked for from the end.
-/
namespace Keyed

variable {α κ : Type} (key : α → κ)

section Lookup

variable [DecidableEq κ]

/-- The entry with key `k`. -/
def lookup (k : κ) (l : List α) : Option α := l.find? fun a => key a = k

/-- Change the entry with key `k` where it stands. -/
def modify (k : κ) (g : α → α) (l : List α) : List α := l.map fun a => if key a = k then g a else a

@[simp] theorem lookup_nil (k : κ) : lookup key k [] = none := rfl

theorem lookup_cons (k : κ) (a : α) (l : List α) :
    lookup key k (a :: l) = if key a = k then some a else lookup key k l := by
  rw [lookup, List.find?_cons]
  by_cases h : key a = k
  · simp [h]
  · simp [h, lookup]

theorem lookup_eq_none {k : κ} {l : List α} : lookup key k l = none ↔ ∀ a ∈ l, key a ≠ k := by
  simp [lookup]

theorem lookup_mem {k : κ} {l : List α} {a : α} (h : lookup key k l = some a) :
    a ∈ l ∧ key a = k :=
  ⟨List.mem_of_find?_eq_some h, by simpa using List.find?_some h⟩

theorem lookup_append (k : κ) (l l' : List α) :
    lookup key k (l ++ l') = (lookup key k l).or (lookup key k l') := by
  rw [lookup, List.find?_append]
  rfl

/-- `g` may change the entries, but not their keys. -/
theorem lookup_map {g : α → α} (hg : ∀ a, key (g a) = key a) (k : κ) (l : List α) :
    lookup key k (l.map g) = (lookup key k l).map g := by
  induction l with
  | nil => rfl
  | cons a l ih =>
    rw [List.map_cons, lookup_cons, lookup_cons, hg, ih]
    split <;> rfl

theorem modify_cons (k : κ) (g : α → α) (a : α) (l : List α) :
    modify key k g (a :: l) = (if key a = k then g a else a) :: modify key k g l := rfl

/-- `g` may change the entry, but not its key. -/
theorem lookup_modify {k' : κ} {g : α → α} (hg : ∀ a, key a = k' → key (g a) = k') (k : κ)
    (l : List α) : lookup key k (modify key k' g l) =
      if k = k' then (lookup key k l).map g else lookup key k l := by
  induction l with
  | nil => simp [modify]
  | cons a l ih =>
    have hkey : key (if key a = k' then g a else a) = key a := by
      split
      · next h => rw [hg a h, h]
      · rfl
    rw [modify_cons, lookup_cons, lookup_cons, hkey, ih]
    by_cases hk : key a = k
    · subst hk
      rw [if_pos rfl, if_pos rfl]
      split <;> rfl
    · rw [if_neg hk, if_neg hk]

theorem map_key_modify {k : κ} {g : α → α} (hg : ∀ a, key a = k → key (g a) = k) (l : List α) :
    (modify key k g l).map key = l.map key := by
  rw [modify, List.map_map]
  apply List.map_congr_left
  intro a _
  rw [Function.comp_apply]
  split
  · next h => rw [hg a h, h]
  · rfl

/-- An entry behind all others. -/
theorem modify_last {l : List α} {a : α} (h : ∀ b ∈ l, key b ≠ key a) (g : α → α) :
    modify key (key a) g (l ++ [a]) = l ++ [g a] := by
  have hl : l.map (fun b => if key b = key a then g b else b) = l := by
    refine (List.map_congr_left fun b hb => ?_).trans (List.map_id' l)
    rw [if_neg (h b hb)]
  rw [modify, List.map_append, hl, List.map_singleton, if_pos rfl]

theorem forall_modify {P : α → Prop} {k : κ} {g : α → α} {l : List α} (hl : ∀ a ∈ l, P a)
    (hg : ∀ a ∈ l, key a = k → P (g a)) : ∀ a ∈ modify key k g l, P a := by
  intro a ha
  obtain ⟨b, hb, rfl⟩ := List.mem_map.mp ha
  split
  · next hk => exact hg b hb hk
  · exact hl b hb

end Lookup

variable [LT κ]

/-- Sorted, and each key once. -/
def Sorted (l : List α) : Prop := l.Pairwise fun a b => key a < key b

theorem modify_sorted [DecidableEq κ] {l : List α} (hs : Sorted key l) {k : κ} {g : α → α}
    (hg : ∀ a, key a = k → key (g a) = k) : Sorted key (modify key k g l) := by
  rw [Sorted, ← List.pairwise_map (f := key), map_key_modify key hg, List.pairwise_map]
  exact hs

theorem lookup_of_mem [DecidableEq κ] [Std.Asymm (α := κ) (· < ·)] {l : List α} (hs : Sorted key l)
    {a : α} (ha : a ∈ l) : lookup key (key a) l = some a := by
  induction l with
  | nil => cases ha
  | cons b l ih =>
    rw [Sorted, List.pairwise_cons] at hs
    rw [lookup_cons]
    rcases List.mem_cons.mp ha with rfl | ha
    · rw [if_pos rfl]
    · have hlt := hs.1 a ha
      rw [if_neg (fun heq => by rw [heq] at hlt; exact Std.Asymm.asymm _ _ hlt hlt)]
      exact ih hs.2 ha

variable [DecidableLT κ] [DecidableEq κ]

/-- Insert an entry, unless there is one with its key. -/
def insert (a : α) (l : List α) : List α :=
  if l.any fun b => key b = key a then l
  else (l.reverse.dropWhile fun b => key a < key b).reverse ++
    a :: (l.reverse.takeWhile fun b => key a < key b).reverse

theorem insert_rejected {a : α} {l : List α} (h : ∃ b ∈ l, key b = key a) : insert key a l = l := by
  rw [insert, if_pos (by simpa using h)]

/-- What `insert` does with a new key. -/
theorem insert_split {a : α} {l : List α} (h : ∀ b ∈ l, key b ≠ key a) :
    ∃ pre post, l = pre ++ post ∧ insert key a l = pre ++ a :: post ∧ (∀ b ∈ post, key a < key b) ∧
      ∀ b, pre.getLast? = some b → ¬ key a < key b := by
  refine ⟨(l.reverse.dropWhile fun b => key a < key b).reverse,
    (l.reverse.takeWhile fun b => key a < key b).reverse, ?_, ?_, ?_, ?_⟩
  · rw [← List.reverse_append, List.takeWhile_append_dropWhile, List.reverse_reverse]
  · rw [insert, if_neg (by simpa using h)]
  · intro b hb
    have hlt := List.mem_takeWhile_imp (List.mem_reverse.mp hb)
    exact of_decide_eq_true hlt
  · intro b hb
    rw [List.getLast?_reverse] at hb
    have hhead := List.head?_dropWhile_not (fun b => decide (key a < key b)) l.reverse
    rw [hb] at hhead
    simpa using hhead

theorem mem_insert {a b : α} {l : List α} (h : b ∈ insert key a l) : b = a ∨ b ∈ l := by
  by_cases hold : ∃ c ∈ l, key c = key a
  · rw [insert_rejected key hold] at h
    exact .inr h
  · obtain ⟨pre, post, rfl, heq, -⟩ := insert_split key fun c hc hk => hold ⟨c, hc, hk⟩
    rw [heq] at h
    cases List.mem_append.mp h with
    | inl h =>
      exact .inr (List.mem_append_left _ h)
    | inr h =>
      cases List.mem_cons.mp h with
      | inl h =>
        exact .inl h
      | inr h =>
        exact .inr (List.mem_append_right _ h)

/-- The keys behind an insertion, whether or not the entry was taken. -/
theorem exists_key_insert (a : α) (l : List α) (k : κ) :
    (∃ b ∈ insert key a l, key b = k) ↔ key a = k ∨ ∃ b ∈ l, key b = k := by
  by_cases hold : ∃ b ∈ l, key b = key a
  · rw [insert_rejected key hold]
    exact ⟨Or.inr, fun h => h.elim (fun heq => heq ▸ hold) id⟩
  · obtain ⟨pre, post, rfl, heq, -⟩ := insert_split key fun c hc hk => hold ⟨c, hc, hk⟩
    rw [heq]
    constructor
    · rintro ⟨b, hb, hk⟩
      cases List.mem_append.mp hb with
      | inl hb =>
        exact .inr ⟨b, List.mem_append_left _ hb, hk⟩
      | inr hb =>
        rcases List.mem_cons.mp hb with rfl | hb
        · exact .inl hk
        · exact .inr ⟨b, List.mem_append_right _ hb, hk⟩
    · rintro (hk | ⟨b, hb, hk⟩)
      · exact ⟨a, by simp, hk⟩
      · refine ⟨b, ?_, hk⟩
        cases List.mem_append.mp hb with
        | inl hb =>
          exact List.mem_append_left _ hb
        | inr hb =>
          exact List.mem_append_right _ (List.mem_cons_of_mem _ hb)

/-- A new entry is found, and hides no other. -/
theorem lookup_insert {a : α} {l : List α} (h : ∀ b ∈ l, key b ≠ key a) (k : κ) :
    lookup key k (insert key a l) = if key a = k then some a else lookup key k l := by
  obtain ⟨pre, post, rfl, heq, -⟩ := insert_split key h
  rw [heq, lookup_append, lookup_cons, lookup_append]
  by_cases hk : key a = k
  · subst hk
    rw [if_pos rfl, if_pos rfl]
    have hpre : lookup key (key a) pre = none :=
      (lookup_eq_none key).mpr fun b hb => h b (List.mem_append_left _ hb)
    rw [hpre, Option.none_or]
  · rw [if_neg hk, if_neg hk]

/-- An entry that belongs behind all others. -/
theorem insert_last [Std.Asymm (α := κ) (· < ·)] {a : α} {l : List α}
    (h : ∀ b ∈ l, key b < key a) : insert key a l = l ++ [a] := by
  have hne : ∀ b ∈ l, key b ≠ key a := by
    intro b hb heq
    have hlt := h b hb
    rw [heq] at hlt
    exact Std.Asymm.asymm _ _ hlt hlt
  obtain ⟨pre, post, rfl, heq, hpost, -⟩ := insert_split key hne
  cases post with
  | nil => rw [heq, List.append_nil]
  | cons b post =>
    exact absurd (hpost b (by simp)) (Std.Asymm.asymm _ _ (h b (by simp)))

theorem insert_sorted [Std.Trichotomous (α := κ) (· < ·)] [Trans (α := κ) (· < ·) (· < ·) (· < ·)]
    {a : α} {l : List α} (hs : Sorted key l) : Sorted key (insert key a l) := by
  by_cases hold : ∃ b ∈ l, key b = key a
  · rwa [insert_rejected key hold]
  · have hnew : ∀ b ∈ l, key b ≠ key a := fun b hb heq => hold ⟨b, hb, heq⟩
    obtain ⟨pre, post, rfl, heq, hpost, hlast⟩ := insert_split key hnew
    rw [Sorted, List.pairwise_append] at hs
    obtain ⟨hpre, hpost', hcross⟩ := hs
    -- everything in front is at most its last entry, and that is smaller than `a`
    have hsmall : ∀ b ∈ pre, key b < key a := by
      intro b hb
      obtain ⟨init, c, hpre'⟩ := (List.eq_nil_or_concat pre).resolve_left (List.ne_nil_of_mem hb)
      rw [List.concat_eq_append] at hpre'
      subst hpre'
      have hc : key c < key a := by
        rcases Std.Trichotomous.rel_or_eq_or_rel_swap (r := (· < ·)) (a := key c) (b := key a)
          with hlt | heq | hgt
        · exact hlt
        · exact absurd heq (hnew c (by simp))
        · exact absurd hgt (hlast c (by simp))
      cases List.mem_append.mp hb with
      | inl hb =>
        rw [List.pairwise_append] at hpre
        exact Trans.trans (hpre.2.2 b hb c (by simp)) hc
      | inr hb =>
        rw [List.mem_singleton.mp hb]
        exact hc
    rw [heq, Sorted, List.pairwise_append, List.pairwise_cons]
    refine ⟨hpre, ⟨hpost, hpost'⟩, fun b hb c hc => ?_⟩
    rcases List.mem_cons.mp hc with rfl | hc
    · exact hsmall b hb
    · exact hcross b hb c hc

/-- There is one sorted list with a new entry more. -/
theorem eq_insert [Std.Asymm (α := κ) (· < ·)] [Std.Trichotomous (α := κ) (· < ·)]
    [Trans (α := κ) (· < ·) (· < ·) (· < ·)] {a : α} {l l' : List α} (hs : Sorted key l)
    (hnew : ∀ b ∈ l, key b ≠ key a) (hs' : Sorted key l') (hperm : l'.Perm (a :: l)) :
    l' = insert key a l := by
  obtain ⟨pre, post, hsplit, heq, -⟩ := insert_split key hnew
  have hinsert := insert_sorted key (a := a) hs
  refine List.Perm.eq_of_pairwise
    (fun a b _ _ hab hba => absurd hab (Std.Asymm.asymm _ _ hba)) hs' hinsert
    (hperm.trans ?_)
  rw [heq, hsplit]
  exact List.perm_middle.symm

end Keyed
