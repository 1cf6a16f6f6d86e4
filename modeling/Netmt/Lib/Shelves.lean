import Netmt.Lib.Links
import Mathlib.Logic.Function.Basic

/-!
# Several lists in one heap

Every list has a head, a tail and a count of its own, and a node lies on one list at most.
A node that lies on none is loose: what its links say does not matter.
-/
namespace Shelves

open Links

variable {ι α : Type}

structure Ends where
  head : Option Nat
  tail : Option Nat
  count : Int
  deriving DecidableEq

/-- The ends of a list with these cells. -/
def endsOf (cells : List (Nat × α)) : Ends := ⟨first cells none, last none cells, cells.length⟩

theorem ends_eq {head tail : Option Nat} {count : Int} {cells : List (Nat × α)}
    (hhead : head = first cells none) (htail : tail = last none cells)
    (hcount : count = cells.length) : (⟨head, tail, count⟩ : Ends) = endsOf cells := by
  rw [endsOf, hhead, htail, hcount]

/-- The address is on no list. -/
def Loose (L : ι → List (Nat × α)) (p : Nat) : Prop := ∀ i, ∀ c ∈ L i, c.1 ≠ p

/-- The heap and the ends hold the lists `L`. -/
structure Has (h : Heap α) (ends : ι → Ends) (L : ι → List (Nat × α)) : Prop where
  segment : ∀ i, Segment h none (L i) none
  ends : ∀ i, ends i = endsOf (L i)
  apart : ∀ i, Apart (L i)
  cross : ∀ i j, i ≠ j → ∀ c ∈ L i, ∀ d ∈ L j, c.1 ≠ d.1

section Rules

variable {h h' : Heap α} {ends : ι → Ends} {L : ι → List (Nat × α)} {p : Nat}

theorem has_nil (h : Heap α) : Has h (fun _ : ι => ⟨none, none, 0⟩) (fun _ => []) where
  segment _ := trivial
  ends _ := rfl
  apart _ := List.nodup_nil
  cross _ _ _ _ hc := nomatch hc

/-- Only the nodes on the lists matter. -/
theorem Has.frame (H : Has h ends L) (hsame : ∀ i, ∀ c ∈ L i, read h' c.1 = read h c.1) :
    Has h' ends L where
  segment i := (H.segment i).frame (hsame i)
  ends := H.ends
  apart := H.apart
  cross := H.cross

/-- A loose node is written. -/
theorem Has.write (H : Has h ends L) (hp : Loose L p) (n : Node α) : Has (write p n h) ends L :=
  H.frame fun i c hc => read_write_other (hp i c hc).symm n h

/-- A new node is loose. -/
theorem Has.loose_new (H : Has h ends L) : Loose L h.length := by
  intro i c hc
  exact Nat.ne_of_lt ((H.segment i).addr_lt c hc)

theorem Has.alloc (H : Has h ends L) (n : Node α) : Has (alloc n h) ends L :=
  H.frame fun i c hc => read_alloc_other ((H.segment i).addr_lt c hc) n

variable [DecidableEq ι]

/-- A loose node is put between two parts of a list; the links that point at it are set in any
way that leads to the new segment. -/
theorem Has.insert (H : Has h ends L) {i : ι} {pre post : List (Nat × α)} {q : Nat} {x : α}
    (hL : L i = pre ++ post) (hq : Loose L q) (hseg : Segment h' none (pre ++ (q, x) :: post) none)
    (hsame : ∀ p, (∀ c ∈ pre ++ post, c.1 ≠ p) → q ≠ p → read h' p = read h p) :
    Has h' (Function.update ends i (endsOf (pre ++ (q, x) :: post)))
      (Function.update L i (pre ++ (q, x) :: post)) := by
  have hother : ∀ j, j ≠ i → ∀ c ∈ L j, (∀ d ∈ pre ++ post, d.1 ≠ c.1) ∧ q ≠ c.1 := by
    intro j hj c hc
    exact ⟨fun d hd => H.cross i j hj.symm d (hL ▸ hd) c hc, (hq j c hc).symm⟩
  refine ⟨fun j => ?_, fun j => ?_, fun j => ?_, fun j k hjk c hc d hd => ?_⟩
  · by_cases hj : j = i
    · subst hj
      rw [Function.update_self]
      exact hseg
    · rw [Function.update_of_ne hj]
      exact (H.segment j).frame fun c hc => hsame c.1 (hother j hj c hc).1 (hother j hj c hc).2
  · by_cases hj : j = i
    · subst hj
      rw [Function.update_self, Function.update_self]
    · rw [Function.update_of_ne hj, Function.update_of_ne hj]
      exact H.ends j
  · by_cases hj : j = i
    · subst hj
      rw [Function.update_self, apart_middle]
      exact ⟨fun d hd => hq j d (hL ▸ hd), hL ▸ H.apart j⟩
    · rw [Function.update_of_ne hj]
      exact H.apart j
  · -- the lists were apart, and the new node was on none of them
    have hcell : ∀ c, c ∈ pre ++ (q, x) :: post → c ∈ L i ∨ c.1 = q := by
      intro c hc
      rw [List.mem_append, List.mem_cons] at hc
      rw [hL, List.mem_append]
      rcases hc with hc | rfl | hc
      · exact .inl (.inl hc)
      · exact .inr rfl
      · exact .inl (.inr hc)
    by_cases hj : j = i
    · subst hj
      rw [Function.update_self] at hc
      rw [Function.update_of_ne hjk.symm] at hd
      cases hcell c hc with
      | inl hin => exact H.cross j k hjk c hin d hd
      | inr heq => exact heq ▸ (hq k d hd).symm
    · rw [Function.update_of_ne hj] at hc
      by_cases hk : k = i
      · subst hk
        rw [Function.update_self] at hd
        cases hcell d hd with
        | inl hin => exact H.cross j k hjk c hc d hin
        | inr heq => exact heq ▸ hq j c hc
      · rw [Function.update_of_ne hk] at hd
        exact H.cross j k hjk c hc d hd

/-- A node is taken off its list. -/
theorem Has.remove (H : Has h ends L) {i : ι} {pre post : List (Nat × α)} {c : Nat × α}
    (hL : L i = pre ++ c :: post) (hseg : Segment h' none (pre ++ post) none)
    (hsame : ∀ p, (∀ d ∈ pre ++ post, d.1 ≠ p) → p ≠ c.1 → read h' p = read h p) :
    Has h' (Function.update ends i (endsOf (pre ++ post))) (Function.update L i (pre ++ post)) ∧
      Loose (Function.update L i (pre ++ post)) c.1 := by
  have hapart := apart_middle.mp (hL ▸ H.apart i)
  have hin : ∀ d ∈ pre ++ post, d ∈ L i := by
    intro d hd
    rw [hL, List.mem_append, List.mem_cons]
    exact (List.mem_append.mp hd).imp_right .inr
  have hc : c ∈ L i := by
    rw [hL]
    exact List.mem_append_right _ List.mem_cons_self
  refine ⟨⟨fun j => ?_, fun j => ?_, fun j => ?_, fun j k hjk d hd e he => ?_⟩, fun j d hd => ?_⟩
  · by_cases hj : j = i
    · subst hj
      rw [Function.update_self]
      exact hseg
    · rw [Function.update_of_ne hj]
      exact (H.segment j).frame fun d hd =>
        hsame d.1 (fun e he => H.cross i j (Ne.symm hj) e (hin e he) d hd)
        (H.cross j i hj d hd c hc)
  · by_cases hj : j = i
    · subst hj
      rw [Function.update_self, Function.update_self]
    · rw [Function.update_of_ne hj, Function.update_of_ne hj]
      exact H.ends j
  · by_cases hj : j = i
    · subst hj
      rw [Function.update_self]
      exact hapart.2
    · rw [Function.update_of_ne hj]
      exact H.apart j
  · by_cases hj : j = i
    · subst hj
      rw [Function.update_self] at hd
      rw [Function.update_of_ne hjk.symm] at he
      exact H.cross j k hjk d (hin d hd) e he
    · rw [Function.update_of_ne hj] at hd
      by_cases hk : k = i
      · subst hk
        rw [Function.update_self] at he
        exact H.cross j k hjk d hd e (hin e he)
      · rw [Function.update_of_ne hk] at he
        exact H.cross j k hjk d hd e he
  · by_cases hj : j = i
    · subst hj
      rw [Function.update_self] at hd
      exact hapart.1 d hd
    · rw [Function.update_of_ne hj] at hd
      exact H.cross j i hj d hd c hc

/-- A node on a list gets another item. -/
theorem Has.set_item (H : Has h ends L) {i : ι} {pre post : List (Nat × α)} {c : Nat × α}
    (hL : L i = pre ++ c :: post) (x : α) :
    Has (Links.write c.1 ⟨last none pre, first post none, x⟩ h) ends
      (Function.update L i (pre ++ (c.1, x) :: post)) := by
  have hc : c ∈ L i := by
    rw [hL]
    exact List.mem_append_right _ List.mem_cons_self
  have haddr : ∀ j, (Function.update L i (pre ++ (c.1, x) :: post) j).map Prod.fst =
      (L j).map Prod.fst := by
    intro j
    by_cases hj : j = i
    · subst hj
      rw [Function.update_self, hL, List.map_append, List.map_append]
      rfl
    · rw [Function.update_of_ne hj]
  have hsource : ∀ j, ∀ d ∈ Function.update L i (pre ++ (c.1, x) :: post) j,
      ∃ e ∈ L j, e.1 = d.1 := by
    intro j d hd
    have hin : d.1 ∈ (L j).map Prod.fst := haddr j ▸ List.mem_map_of_mem hd
    exact List.mem_map.mp hin
  refine ⟨fun j => ?_, fun j => ?_, fun j => ?_, fun j k hjk d hd e he => ?_⟩
  · by_cases hj : j = i
    · subst hj
      rw [Function.update_self]
      exact (hL ▸ H.segment j).set_item x (hL ▸ H.apart j)
    · rw [Function.update_of_ne hj]
      exact (H.segment j).frame fun d hd =>
        read_write_other (H.cross i j (Ne.symm hj) c hc d hd) _ _
  · by_cases hj : j = i
    · subst hj
      rw [H.ends j, hL, Function.update_self]
      refine ends_eq ?_ ?_ (by simp)
      · rw [first_append, first_append]
        rfl
      · rw [last_append, last_append]
        rfl
    · rw [Function.update_of_ne hj]
      exact H.ends j
  · rw [Apart, haddr]
    exact H.apart j
  · obtain ⟨d', hd', heq⟩ := hsource j d hd
    obtain ⟨e', he', heq'⟩ := hsource k e he
    rw [← heq, ← heq']
    exact H.cross j k hjk d' hd' e' he'

end Rules

end Shelves
