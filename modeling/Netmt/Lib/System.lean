import Mathlib.Logic.Basic

/-!
# Systems of states

A system is a set of first states and a step relation. What the first states have
and every step keeps holds in all reachable states, and a system that follows
another one step by step reaches only what the other does.
-/
namespace Systems

structure System (σ : Type) where
  start : σ → Prop
  step : σ → σ → Prop

inductive System.Reachable {σ : Type} (M : System σ) : σ → Prop where
  | start {s : σ} : M.start s → M.Reachable s
  | step {s s' : σ} : M.Reachable s → M.step s s' → M.Reachable s'

/-- `P` holds at first and is kept by the steps from reachable states. -/
structure System.Keeps {σ : Type} (M : System σ) (P : σ → Prop) : Prop where
  start : ∀ s, M.start s → P s
  step : ∀ s s', M.Reachable s → P s → M.step s s' → P s'

theorem System.Keeps.reachable {σ : Type} {M : System σ} {P : σ → Prop} (h : M.Keeps P) {s : σ}
    (hs : M.Reachable s) : P s := by
  induction hs with
  | start hstart => exact h.start _ hstart
  | step hreach hstep ih => exact h.step _ _ hreach ih hstep

/-- Every step of `M` is a step of `N`, or none, on the states that `R` relates. -/
structure Refines {σ τ : Type} (M : System σ) (N : System τ) (R : σ → τ → Prop) : Prop where
  start : ∀ s, M.start s → ∃ t, N.start t ∧ R s t
  step : ∀ s s' t, M.Reachable s → M.step s s' → N.Reachable t → R s t →
    ∃ t', (t' = t ∨ N.step t t') ∧ R s' t'

theorem Refines.reachable {σ τ : Type} {M : System σ} {N : System τ} {R : σ → τ → Prop}
    (h : Refines M N R) {s : σ} (hs : M.Reachable s) : ∃ t, N.Reachable t ∧ R s t := by
  induction hs with
  | start hstart =>
    obtain ⟨t, ht, hr⟩ := h.start _ hstart
    exact ⟨t, .start ht, hr⟩
  | step hreach hstep ih =>
    obtain ⟨t, ht, hr⟩ := ih
    obtain ⟨t', rfl | hmove, hr'⟩ := h.step _ _ t hreach hstep ht hr
    · exact ⟨t', ht, hr'⟩
    · exact ⟨t', .step ht hmove, hr'⟩

end Systems
