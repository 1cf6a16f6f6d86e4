import Mathlib.Data.List.Basic
import Mathlib.Data.List.Flatten
import Mathlib.Tactic.Ring

/-!
# Fixed-size framing of a stream

`blocks n s` are the complete blocks of `n` elements at the front of `s` and
`rest n s` is the incomplete block behind them. A receiver that keeps `rest`
and prepends it to what arrives next sees the blocks of the whole stream,
however the stream is cut; `chunks n s` is the cut a block reader makes.
-/
namespace Framing

variable {α : Type}

def blocks (n : Nat) (s : List α) : List (List α) :=
  if 0 < n ∧ n ≤ s.length then s.take n :: blocks n (s.drop n) else []
termination_by s.length
decreasing_by simp only [List.length_drop]; omega

def rest (n : Nat) (s : List α) : List α :=
  if 0 < n ∧ n ≤ s.length then rest n (s.drop n) else s
termination_by s.length
decreasing_by simp only [List.length_drop]; omega

theorem blocks_short {n : Nat} {s : List α} (h : s.length < n) : blocks n s = [] := by
  rw [blocks, if_neg (by omega)]

theorem rest_short {n : Nat} {s : List α} (h : s.length < n) : rest n s = s := by
  rw [rest, if_neg (by omega)]

theorem blocks_append {n : Nat} (hn : 0 < n) {f : List α} (hf : f.length = n) (s : List α) :
    blocks n (f ++ s) = f :: blocks n s := by
  rw [blocks, if_pos (by simp; omega), List.take_left' hf, List.drop_left' hf]

theorem rest_append {n : Nat} (hn : 0 < n) {f : List α} (hf : f.length = n) (s : List α) :
    rest n (f ++ s) = rest n s := by
  rw [rest, if_pos (by simp; omega), List.drop_left' hf]

/-- A stream that starts with whole blocks. -/
theorem blocks_flatten_append {n : Nat} (hn : 0 < n) (fs : List (List α))
    (hfs : ∀ f ∈ fs, f.length = n) (s : List α) :
    blocks n (fs.flatten ++ s) = fs ++ blocks n s := by
  induction fs with
  | nil => simp
  | cons f fs ih =>
    rw [List.flatten_cons, List.append_assoc, blocks_append hn (hfs f (by simp)),
      ih (fun g hg => hfs g (by simp [hg])), List.cons_append]

theorem rest_flatten_append {n : Nat} (hn : 0 < n) (fs : List (List α))
    (hfs : ∀ f ∈ fs, f.length = n) (s : List α) :
    rest n (fs.flatten ++ s) = rest n s := by
  induction fs with
  | nil => simp
  | cons f fs ih =>
    rw [List.flatten_cons, List.append_assoc, rest_append hn (hfs f (by simp)),
      ih (fun g hg => hfs g (by simp [hg]))]

/-- Every stream is its blocks followed by its rest. -/
theorem flatten_blocks_append_rest (n : Nat) (s : List α) :
    (blocks n s).flatten ++ rest n s = s := by
  induction s using blocks.induct n with
  | case1 s h ih =>
    rw [blocks, rest, if_pos h, if_pos h, List.flatten_cons, List.append_assoc, ih,
      List.take_append_drop]
  | case2 s h => rw [blocks, rest, if_neg h, if_neg h]; rfl

theorem length_of_mem_blocks {n : Nat} {s f : List α} (h : f ∈ blocks n s) : f.length = n := by
  induction s using blocks.induct n with
  | case1 s hs ih =>
    rw [blocks, if_pos hs] at h
    cases List.mem_cons.mp h with
    | inl h =>
      subst h; simp; omega
    | inr h =>
      exact ih h
  | case2 s hs => rw [blocks, if_neg hs] at h; simp at h

theorem length_rest_lt {n : Nat} (hn : 0 < n) (s : List α) : (rest n s).length < n := by
  induction s using rest.induct n with
  | case1 s h ih => rw [rest, if_pos h]; exact ih
  | case2 s h => rw [rest, if_neg h]; omega

/-- Cutting a stream does not move the block boundaries. -/
theorem blocks_cut {n : Nat} (hn : 0 < n) (s t : List α) :
    blocks n (s ++ t) = blocks n s ++ blocks n (rest n s ++ t) := by
  have h := blocks_flatten_append hn (blocks n s) (fun f hf => length_of_mem_blocks hf)
    (rest n s ++ t)
  rwa [← List.append_assoc, flatten_blocks_append_rest] at h

theorem rest_cut {n : Nat} (hn : 0 < n) (s t : List α) :
    rest n (s ++ t) = rest n (rest n s ++ t) := by
  have h := rest_flatten_append hn (blocks n s) (fun f hf => length_of_mem_blocks hf)
    (rest n s ++ t)
  rwa [← List.append_assoc, flatten_blocks_append_rest] at h

/-- Blocks and rest are determined by any splitting of that shape. -/
theorem blocks_eq {n : Nat} (hn : 0 < n) (fs : List (List α)) (hfs : ∀ f ∈ fs, f.length = n)
    (r : List α) (hr : r.length < n) : blocks n (fs.flatten ++ r) = fs := by
  rw [blocks_flatten_append hn fs hfs, blocks_short hr, List.append_nil]

theorem rest_eq {n : Nat} (hn : 0 < n) (fs : List (List α)) (hfs : ∀ f ∈ fs, f.length = n)
    (r : List α) (hr : r.length < n) : rest n (fs.flatten ++ r) = r := by
  rw [rest_flatten_append hn fs hfs, rest_short hr]

/-- The complete blocks of a part of a stream. -/
theorem blocks_take {n : Nat} (hn : 0 < n) (s : List α) (m : Nat) (hm : m ≤ s.length) :
    blocks n (s.take m) = (blocks n s).take (m / n) := by
  induction s using blocks.induct n generalizing m with
  | case1 s h ih =>
    by_cases hmn : m < n
    · rw [blocks_short (by simp; omega), Nat.div_eq_of_lt hmn, List.take_zero]
    · have hsplit : s.take m = s.take n ++ (s.drop n).take (m - n) := by
        rw [← List.take_add]
        congr 1
        omega
      have hdiv : m / n = (m - n) / n + 1 := by
        rw [Nat.div_eq_sub_div hn (by omega)]
      have hblocks : blocks n s = s.take n :: blocks n (s.drop n) := by rw [blocks, if_pos h]
      rw [hsplit, blocks_append hn (by simp; omega), ih (m - n) (by simp; omega), hblocks, hdiv,
        List.take_succ_cons]
  | case2 s h =>
    rw [blocks_short (by simp; omega), blocks_short (by omega), List.take_nil]

/-! ## Receiving in parts -/

/-- The blocks that each part of a stream completes, when `p` is left over from
before. -/
def received (n : Nat) : List α → List (List α) → List (List (List α))
  | _, [] => []
  | p, r :: rs => blocks n (p ++ r) :: received n (rest n (p ++ r)) rs

theorem flatten_received {n : Nat} (hn : 0 < n) (p : List α) (hp : p.length < n)
    (rs : List (List α)) : (received n p rs).flatten = blocks n (p ++ rs.flatten) := by
  induction rs generalizing p with
  | nil =>
    rw [List.flatten_nil, List.append_nil, blocks_short hp]
    rfl
  | cons r rs ih =>
    rw [received, List.flatten_cons, ih _ (length_rest_lt hn _), ← blocks_cut hn,
      List.flatten_cons, List.append_assoc]

theorem take_received (n : Nat) (p : List α) (rs : List (List α)) (k : Nat) :
    (received n p rs).take k = received n p (rs.take k) := by
  induction rs generalizing p k with
  | nil => simp [received]
  | cons r rs ih =>
    cases k with
    | zero => rfl
    | succ k => simp only [received, List.take_succ_cons, ih]

theorem length_received (n : Nat) (p : List α) (rs : List (List α)) :
    (received n p rs).length = rs.length := by
  induction rs generalizing p with
  | nil => rfl
  | cons r rs ih => simp [received, ih]

/-! ## Block reading -/

/-- What a reader gets that asks for `n` elements at a time until nothing is left. -/
def chunks (n : Nat) (s : List α) : List (List α) :=
  blocks n s ++ if rest n s = [] then [] else [rest n s]

theorem flatten_chunks (n : Nat) (s : List α) : (chunks n s).flatten = s := by
  have h := flatten_blocks_append_rest n s
  by_cases hr : rest n s = []
  · rw [hr] at h
    simpa [chunks, hr] using h
  · simpa [chunks, hr] using h

theorem length_of_mem_chunks {n : Nat} (hn : 0 < n) {s c : List α} (h : c ∈ chunks n s) :
    0 < c.length ∧ c.length ≤ n := by
  cases List.mem_append.mp h with
  | inl h =>
    have := length_of_mem_blocks h; omega
  | inr h =>
    have hlt := length_rest_lt hn s
    split at h
    · simp at h
    · next hr =>
      rw [List.mem_singleton] at h
      subst h
      have := List.length_pos_iff.mpr hr
      omega

end Framing
