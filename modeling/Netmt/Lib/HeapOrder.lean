import Mathlib.Data.Nat.Basic
import Mathlib.Order.Lattice
import Mathlib.Logic.Function.Basic

/-!
# Heap order

What stands at the places 1 to `n` of a complete binary tree, `k / 2` above `k`. One
place may be out of order while an item is moved: `UpOrder` is the order then when the
item can only be too small, `Around` when it may also be too large.
-/
namespace HeapOrder

variable {α β : Type} [LinearOrder β] {key : α → β} {slots : Nat → α} {n : Nat}

/-- `a` stands at one of the first `n` places. -/
def Stands (slots : Nat → α) (n : Nat) (a : α) : Prop := ∃ k, 1 ≤ k ∧ k ≤ n ∧ slots k = a

/-- No item stands at two places. -/
def Apart (slots : Nat → α) (n : Nat) : Prop :=
  ∀ i j, 1 ≤ i → i ≤ n → 1 ≤ j → j ≤ n → slots i = slots j → i = j

def Ordered (key : α → β) (slots : Nat → α) (n : Nat) : Prop :=
  ∀ k, 2 ≤ k → k ≤ n → key (slots (k / 2)) ≤ key (slots k)

/-- All pairs are in order but the one of `v` and the place above it. -/
structure UpOrder (key : α → β) (slots : Nat → α) (n v : Nat) : Prop where
  others : ∀ k, 2 ≤ k → k ≤ n → k ≠ v → key (slots (k / 2)) ≤ key (slots k)
  across : ∀ c, c / 2 = v → 2 ≤ v → c ≤ n → key (slots (v / 2)) ≤ key (slots c)

/-- All pairs without `v` are in order. -/
structure Around (key : α → β) (slots : Nat → α) (n v : Nat) : Prop where
  others : ∀ k, 2 ≤ k → k ≤ n → k ≠ v → k / 2 ≠ v → key (slots (k / 2)) ≤ key (slots k)
  across : ∀ c, c / 2 = v → 2 ≤ v → c ≤ n → key (slots (v / 2)) ≤ key (slots c)

/-- The first place holds a least item. -/
theorem Ordered.first_le (h : Ordered key slots n) :
    ∀ k, 1 ≤ k → k ≤ n → key (slots 1) ≤ key (slots k) := by
  intro k
  induction k using Nat.strong_induction_on with
  | _ k ih =>
    intro hk hn
    rcases Nat.lt_or_ge k 2 with hlt | hge
    · obtain rfl : k = 1 := by omega
      exact le_refl _
    · exact (ih (k / 2) (by omega) (by omega) (by omega)).trans (h k hge hn)

/-! ## Exchanging two places -/

def swap (i j : Nat) (slots : Nat → α) : Nat → α :=
  fun k => slots (if k = i then j else if k = j then i else k)

theorem swap_left (i j : Nat) (slots : Nat → α) : swap i j slots i = slots j := by
  rw [swap, if_pos rfl]

theorem swap_right (i j : Nat) (slots : Nat → α) : swap i j slots j = slots i := by
  rw [swap]
  split
  · next h => rw [h]
  · rw [if_pos rfl]

theorem swap_other {i j k : Nat} (hi : k ≠ i) (hj : k ≠ j) (slots : Nat → α) :
    swap i j slots k = slots k := by
  rw [swap, if_neg hi, if_neg hj]

section Swap

variable {i j : Nat} (hi : 1 ≤ i ∧ i ≤ n) (hj : 1 ≤ j ∧ j ≤ n)

include hi hj

theorem stands_swap (a : α) : Stands (swap i j slots) n a ↔ Stands slots n a := by
  constructor
  · rintro ⟨k, hk, hn, rfl⟩
    refine ⟨_, ?_, ?_, rfl⟩ <;> split_ifs <;> omega
  · rintro ⟨k, hk, hn, rfl⟩
    by_cases hki : k = i
    · exact ⟨j, hj.1, hj.2, by rw [swap_right, hki]⟩
    · by_cases hkj : k = j
      · exact ⟨i, hi.1, hi.2, by rw [swap_left, hkj]⟩
      · exact ⟨k, hk, hn, swap_other hki hkj slots⟩

theorem Apart.swap (h : Apart slots n) : Apart (swap i j slots) n := by
  intro a b ha han hb hbn hsame
  have hplaces := h _ _ (by split_ifs <;> omega) (by split_ifs <;> omega) (by split_ifs <;> omega)
    (by split_ifs <;> omega) hsame
  split_ifs at hplaces <;> omega

end Swap

/-! ## An item that moves up -/

/-- Nothing is out of order at the top, or below an item that is not larger. -/
theorem UpOrder.done {v : Nat} (h : UpOrder key slots n v)
    (hstop : 2 ≤ v → v ≤ n → key (slots (v / 2)) ≤ key (slots v)) : Ordered key slots n := by
  intro k hk hn
  by_cases hv : k = v
  · subst hv
    exact hstop hk hn
  · exact h.others k hk hn hv

theorem UpOrder.step {v : Nat} (h : UpOrder key slots n v) (hv : 2 ≤ v) (hn : v ≤ n)
    (hless : key (slots v) < key (slots (v / 2))) :
    UpOrder key (swap (v / 2) v slots) n (v / 2) := by
  have hne : v / 2 ≠ v := by omega
  constructor
  · intro k hk hkn hkp
    by_cases hkv : k = v
    · -- the pair itself
      subst hkv
      rw [swap_left, swap_right]
      exact hless.le
    · rw [swap_other hkp hkv]
      have hold := h.others k hk hkn hkv
      by_cases hup : k / 2 = v / 2
      · rw [hup] at hold ⊢
        rw [swap_left]
        exact hless.le.trans hold
      · by_cases hbelow : k / 2 = v
        · rw [hbelow, swap_right]
          exact h.across k hbelow hv hkn
        · rw [swap_other hup hbelow]
          exact hold
  · intro c hc hp hcn
    have htop := h.others (v / 2) hp (by omega) hne
    rw [swap_other (by omega) (by omega)]
    by_cases hcv : c = v
    · rw [hcv, swap_right]
      exact htop
    · rw [swap_other (by omega) hcv]
      have hold := h.others c (by omega) hcn hcv
      rw [hc] at hold
      exact htop.trans hold

/-! ## An item that moves down -/

/-- Below an item that is not larger than the ones under it, only the pair above it may
be out of order. -/
theorem Around.done {v : Nat} (h : Around key slots n v)
    (hstop : ∀ c, c / 2 = v → 2 ≤ c → c ≤ n → key (slots v) ≤ key (slots c)) :
    UpOrder key slots n v := by
  refine ⟨fun k hk hn hkv => ?_, h.across⟩
  by_cases hup : k / 2 = v
  · rw [hup]
    exact hstop k hup hk hn
  · exact h.others k hk hn hkv hup

/-- The item changes places with the least one under it. -/
theorem Around.step {v c : Nat} (h : Around key slots n v) (hv : 1 ≤ v) (hc : c / 2 = v)
    (hn : c ≤ n) (hle : key (slots c) ≤ key (slots v))
    (hleast : ∀ d, d / 2 = v → 2 ≤ d → d ≤ n → key (slots c) ≤ key (slots d)) :
    Around key (swap v c slots) n c := by
  have hne : v ≠ c := by omega
  constructor
  · intro k hk hkn hkc hkup
    by_cases hkv : k = v
    · subst hkv
      rw [swap_left, swap_other (by omega) (by omega)]
      exact h.across c hc hk hn
    · rw [swap_other hkv hkc]
      by_cases hup : k / 2 = v
      · rw [hup, swap_left]
        exact hleast k hup hk hkn
      · rw [swap_other hup hkup]
        exact h.others k hk hkn hkv hup
  · intro d hd _ hdn
    rw [hc, swap_left, swap_other (by omega) (by omega)]
    have hold := h.others d (by omega) hdn (by omega) (by omega)
    rw [hd] at hold
    exact hold

/-! ## A place more and a place less -/

/-- A new item at the end. -/
theorem Ordered.push (h : Ordered key slots n) (a : α) :
    UpOrder key (Function.update slots (n + 1) a) (n + 1) (n + 1) := by
  constructor
  · intro k hk hn hne
    rw [Function.update_of_ne hne, Function.update_of_ne (by omega)]
    exact h k hk (by omega)
  · intro c hc _ hn
    omega

/-- Another item at a place. -/
theorem Ordered.replace (h : Ordered key slots n) (v : Nat) (a : α) :
    Around key (Function.update slots v a) n v := by
  constructor
  · intro k hk hn hne hup
    rw [Function.update_of_ne hne, Function.update_of_ne hup]
    exact h k hk hn
  · intro c hc hv hn
    rw [Function.update_of_ne (by omega), Function.update_of_ne (by omega)]
    have hupper := h v hv (by omega)
    have hlower := h c (by omega) hn
    rw [hc] at hlower
    exact hupper.trans hlower

theorem Ordered.pop (h : Ordered key slots (n + 1)) : Ordered key slots n :=
  fun k hk hn => h k hk (by omega)

end HeapOrder
