import Mathlib.Data.List.Basic
import Mathlib.Data.List.Perm.Basic

/-!
# Selection

One pass of a selection sort takes the first of the smallest items out of the part
that is left and puts it behind those taken before. The order is given by a test
for "greater", and items of which neither is greater count as equal.
-/
namespace Selection

variable {α : Type} {gt : α → α → Bool}

/-- What is not greater is in a total preorder. -/
structure Preordered (gt : α → α → Bool) : Prop where
  total : ∀ a b, gt a b = false ∨ gt b a = false
  trans : ∀ a b c, gt a b = false → gt b c = false → gt a c = false

theorem Preordered.comap {β : Type} (hgt : Preordered gt) (key : β → α) :
    Preordered fun a b => gt (key a) (key b) :=
  ⟨fun a b => hgt.total (key a) (key b), fun a b c => hgt.trans (key a) (key b) (key c)⟩

namespace Preordered

theorem asymm (hgt : Preordered gt) {a b : α} (h : gt a b = true) : gt b a = false := by
  rcases hgt.total a b with hab | hba
  · rw [h] at hab
    cases hab
  · exact hba

theorem gt_of_not_of_gt {a b c : α} (hgt : Preordered gt) (hba : gt b a = false)
    (hbc : gt b c = true) : gt a c = true := by
  cases hac : gt a c with
  | true => rfl
  | false =>
    rw [hgt.trans b a c hba hac] at hbc
    cases hbc

end Preordered

/-- Neither is greater. -/
def same (gt : α → α → Bool) (a b : α) : Bool := !gt a b && !gt b a

theorem same_iff {a b : α} : same gt a b = true ↔ gt a b = false ∧ gt b a = false := by
  simp [same]

/-- `ys` is `xs` in order, and equal items follow each other as they did. -/
structure StableSort (gt : α → α → Bool) (xs ys : List α) : Prop where
  perm : ys.Perm xs
  sorted : ys.Pairwise fun a b => gt a b = false
  stable : ∀ a, ys.filter (same gt a) = xs.filter (same gt a)

/-! ## The first of the smallest -/

/-- The smaller one; the first unless it is greater. -/
def smaller (gt : α → α → Bool) (a b : α) : α := if gt a b then b else a

def least (gt : α → α → Bool) (a : α) (l : List α) : α := l.foldl (smaller gt) a

@[simp] theorem least_nil (a : α) : least gt a [] = a := rfl

@[simp] theorem least_cons (a b : α) (l : List α) :
    least gt a (b :: l) = least gt (smaller gt a b) l :=
  rfl

/-- All in front of `d` are greater, and none behind is less. -/
structure FirstLeast (gt : α → α → Bool) (xs : List α) (d : α) (ys : List α) : Prop where
  front : ∀ a ∈ xs, gt a d = true
  behind : ∀ a ∈ ys, gt d a = false

theorem FirstLeast.single (d : α) : FirstLeast gt [] d [] :=
  ⟨fun _ h => absurd h List.not_mem_nil, fun _ h => absurd h List.not_mem_nil⟩

theorem FirstLeast.keep {xs ys : List α} {d b : α} (F : FirstLeast gt xs d ys)
    (hd : gt d b = false) :
    FirstLeast gt xs d (ys ++ [b]) := by
  refine ⟨F.front, fun a ha => ?_⟩
  rcases List.mem_append.mp ha with ha | ha
  · exact F.behind a ha
  · rw [List.mem_singleton.mp ha]
    exact hd

theorem FirstLeast.replace {xs ys : List α} {d b : α} (hgt : Preordered gt)
    (F : FirstLeast gt xs d ys) (hd : gt d b = true) : FirstLeast gt (xs ++ d :: ys) b [] := by
  refine ⟨fun a ha => ?_, fun _ h => absurd h List.not_mem_nil⟩
  rcases List.mem_append.mp ha with ha | ha
  · exact hgt.gt_of_not_of_gt (hgt.asymm (F.front a ha)) hd
  · rcases List.mem_cons.mp ha with rfl | ha
    · exact hd
    · exact hgt.gt_of_not_of_gt (F.behind a ha) hd

/-- The scan over the rest, from the first of the smallest of what was passed. -/
theorem least_scan {xs ys : List α} {d : α} (l : List α)
    (F : Preordered gt → FirstLeast gt xs d ys) :
    ∃ xs' ys', xs ++ d :: (ys ++ l) = xs' ++ least gt d l :: ys' ∧
      (Preordered gt → FirstLeast gt xs' (least gt d l) ys') := by
  induction l generalizing xs d ys with
  | nil => exact ⟨xs, ys, by rw [List.append_nil, least_nil], F⟩
  | cons b l ih =>
    rw [least_cons]
    cases hd : gt d b with
    | true =>
      have Fb : Preordered gt → FirstLeast gt (xs ++ d :: ys) b [] :=
        fun hgt => (F hgt).replace hgt hd
      obtain ⟨xs', ys', hcut, F'⟩ := ih Fb
      have hsmall : smaller gt d b = b := if_pos hd
      rw [hsmall]
      exact ⟨xs', ys', by rw [← hcut]; simp, F'⟩
    | false =>
      have Fd : Preordered gt → FirstLeast gt xs d (ys ++ [b]) := fun hgt => (F hgt).keep hd
      obtain ⟨xs', ys', hcut, F'⟩ := ih Fd
      have hsmall : smaller gt d b = d := if_neg (by simp [hd])
      rw [hsmall]
      exact ⟨xs', ys', by rw [← hcut]; simp, F'⟩

/-- The list is cut at the item that the scan ends with. -/
theorem least_cut (gt : α → α → Bool) (a : α) (l : List α) :
    ∃ xs ys, a :: l = xs ++ least gt a l :: ys ∧
      (Preordered gt → FirstLeast gt xs (least gt a l) ys) := by
  have Fa : Preordered gt → FirstLeast gt [] a [] := fun _ => .single a
  obtain ⟨xs, ys, hcut, F⟩ := least_scan l Fa
  exact ⟨xs, ys, hcut, F⟩

/-! ## The passes -/

/-- `pre` was taken out of `all`, and `post` is left. -/
structure Selected (gt : α → α → Bool) (all pre post : List α) : Prop where
  perm : (pre ++ post).Perm all
  sorted : pre.Pairwise fun a b => gt a b = false
  low : ∀ a ∈ pre, ∀ b ∈ post, gt a b = false
  stable : ∀ a, (pre ++ post).filter (same gt a) = all.filter (same gt a)

theorem Selected.start (gt : α → α → Bool) (all : List α) : Selected gt all [] all :=
  ⟨.refl _, .nil, fun _ h => absurd h List.not_mem_nil, fun _ => rfl⟩

theorem Selected.finish {all pre : List α} (S : Selected gt all pre []) :
    StableSort gt all pre := by
  have hstable := S.stable
  rw [List.append_nil] at hstable
  exact ⟨by simpa using S.perm, S.sorted, hstable⟩

/-- An item goes past greater ones without passing an equal one. -/
theorem filter_pass {xs : List α} {d : α} (hgt : Preordered gt) (hfront : ∀ b ∈ xs, gt b d = true)
    (a : α) (ys : List α) :
    (d :: xs ++ ys).filter (same gt a) = (xs ++ d :: ys).filter (same gt a) := by
  cases hd : same gt a d with
  | false => simp [hd]
  | true =>
    have hnone : xs.filter (same gt a) = [] := by
      rw [List.filter_eq_nil_iff]
      intro b hb hab
      have had := (same_iff.mp hd).1
      have hbd := hgt.trans b a d (same_iff.mp hab).2 had
      rw [hfront b hb] at hbd
      cases hbd
    simp [List.filter_append, hd, hnone]

theorem perm_pass (pre xs ys : List α) (d : α) :
    (pre ++ [d] ++ (xs ++ ys)).Perm (pre ++ (xs ++ d :: ys)) := by
  have hmid : (d :: (xs ++ ys)).Perm (xs ++ d :: ys) := List.perm_middle.symm
  rw [List.append_assoc]
  exact hmid.append_left pre

theorem Selected.pass {all pre xs ys : List α} {d : α} (hgt : Preordered gt)
    (S : Selected gt all pre (xs ++ d :: ys)) (F : FirstLeast gt xs d ys) :
    Selected gt all (pre ++ [d]) (xs ++ ys) where
  perm := (perm_pass pre xs ys d).trans S.perm
  sorted := by
    rw [List.pairwise_append]
    refine ⟨S.sorted, List.pairwise_singleton _ _, fun a ha b hb => ?_⟩
    rw [List.mem_singleton.mp hb]
    exact S.low a ha d (by simp)
  low := by
    intro a ha b hb
    rcases List.mem_append.mp ha with ha | ha
    · refine S.low a ha b ?_
      rcases List.mem_append.mp hb with hb | hb
      · exact List.mem_append_left _ hb
      · exact List.mem_append_right _ (List.mem_cons_of_mem d hb)
    · rw [List.mem_singleton.mp ha]
      rcases List.mem_append.mp hb with hb | hb
      · exact hgt.asymm (F.front b hb)
      · exact F.behind b hb
  stable := by
    intro a
    rw [← S.stable a, List.append_assoc, List.filter_append pre, List.filter_append pre]
    exact congrArg _ (filter_pass hgt F.front a ys)

end Selection
