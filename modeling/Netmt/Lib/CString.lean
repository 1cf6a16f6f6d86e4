import Mathlib.Data.List.TakeWhile
import Netmt.Lib.Region

/-!
# C strings

A `CString` is what lies in front of a NUL. Copies into a field of fixed size
and the comparisons of `string.h` are defined on it.
-/

/-- The bytes of a C string, without its NUL. -/
structure CString where
  bytes : List UInt8
  nul_free : (0 : UInt8) ∉ bytes
  deriving DecidableEq

namespace CString

/-- The string that starts a block of memory. -/
def ofField (b : List UInt8) : List UInt8 := b.takeWhile (· ≠ 0)

/-- `strncpy(field, s, n); field[n - 1] = 0`. -/
def toField (n : Nat) (s : CString) : List UInt8 :=
  s.bytes.take (n - 1) ++ List.replicate (n - (s.bytes.take (n - 1)).length) 0

/-- `strncmp(a, b, n) == 0`. -/
def sameFront (n : Nat) (a b : List UInt8) : Bool := (ofField a).take n = (ofField b).take n

/-- `strrchr`: where `c` lies last. -/
def strrchr (c : UInt8) : List UInt8 → Option Nat
  | [] => none
  | b :: bs =>
    match strrchr c bs with
    | some i => some (i + 1)
    | none => if b = c then some 0 else none

def isDigit (b : UInt8) : Bool := 48 ≤ b && b ≤ 57

/-- `isspace` in the C locale. -/
def isSpace (b : UInt8) : Bool := b = 32 || (9 ≤ b && b ≤ 13)

def digitsVal : List UInt8 → Nat → Nat
  | [], n => n
  | b :: bs, n => if isDigit b then digitsVal bs (10 * n + (b.toNat - 48)) else n

/-- `atoi`: `strtol`, which saturates, cut down to an `int`. -/
def atoi (s : CString) : Int :=
  let t := s.bytes.dropWhile isSpace
  let v : Int := match t with
    | 45 :: ds => -(digitsVal ds 0 : Int)
    | 43 :: ds => digitsVal ds 0
    | ds => digitsVal ds 0
  Region.wrap32 (max (-9223372036854775808) (min v 9223372036854775807))

theorem strrchr_absent {c : UInt8} {s : List UInt8} (h : c ∉ s) : strrchr c s = none := by
  induction s with
  | nil => rfl
  | cons b bs ih =>
    rw [List.mem_cons, not_or] at h
    rw [strrchr, ih h.2, if_neg (Ne.symm h.1)]

theorem strrchr_last {c : UInt8} (a : List UInt8) {b : List UInt8} (h : c ∉ b) :
    strrchr c (a ++ c :: b) = some a.length := by
  induction a with
  | nil => rw [List.nil_append, strrchr, strrchr_absent h, if_pos rfl, List.length_nil]
  | cons d a ih => rw [List.cons_append, strrchr, ih, List.length_cons]

/-- A string cut at its last `c`. -/
theorem exists_last {c : UInt8} {s : List UInt8} (h : c ∈ s) : ∃ a b, s = a ++ c :: b ∧ c ∉ b := by
  obtain ⟨b, a, hsplit, hb⟩ := List.eq_append_cons_of_mem (List.mem_reverse.mpr h)
  refine ⟨a.reverse, b.reverse, ?_, by simpa using hb⟩
  rw [← List.reverse_reverse s, hsplit]
  simp

/-- A block without NUL is all string. -/
theorem ofField_nul_free {s : List UInt8} (h : (0 : UInt8) ∉ s) : ofField s = s := by
  rw [ofField, List.takeWhile_eq_self_iff]
  intro b hb
  rw [decide_eq_true_iff]
  rintro rfl
  exact h hb

/-- There is room for the NUL behind the string. -/
theorem length_ofField_lt {b : List UInt8} (h : (0 : UInt8) ∈ b) :
    (ofField b).length < b.length := by
  rcases Nat.lt_or_ge (ofField b).length b.length with hlt | hge
  · exact hlt
  · have hall : ofField b = b := (List.takeWhile_prefix _).eq_of_length_le hge
    rw [ofField, List.takeWhile_eq_self_iff] at hall
    exact absurd (hall 0 h) (by decide)

theorem ofField_of_mem (b : List UInt8) (h : (0 : UInt8) ∈ b) (tail : List UInt8) :
    ofField (b ++ tail) = ofField b := by
  induction b with
  | nil => cases h
  | cons x xs ih =>
    simp only [ofField, List.cons_append, List.takeWhile_cons] at ih ⊢
    split
    · next hx =>
      have hne : x ≠ 0 := of_decide_eq_true hx
      rw [ih ((List.mem_cons.mp h).resolve_left (Ne.symm hne))]
    · rfl

theorem length_toField (n : Nat) (hn : 0 < n) (s : CString) : (s.toField n).length = n := by
  simp only [toField, List.length_append, List.length_replicate, List.length_take]
  omega

/-- A string followed by NUL bytes is read back, whatever comes behind. -/
theorem ofField_append (s : List UInt8) (hs : (0 : UInt8) ∉ s) (k : Nat) (hk : 0 < k)
    (tail : List UInt8) : ofField (s ++ List.replicate k 0 ++ tail) = s := by
  obtain ⟨k, rfl⟩ : ∃ j, k = j + 1 := ⟨k - 1, by omega⟩
  rw [ofField, List.append_assoc, List.replicate_succ, List.cons_append]
  have hall : ∀ b ∈ s, decide (b ≠ 0) = true := by
    intro b hb
    rw [decide_eq_true_iff]
    rintro rfl
    exact hs hb
  rw [List.takeWhile_append_of_pos hall]
  simp

theorem ofField_toField (n : Nat) (hn : 0 < n) (s : CString) (tail : List UInt8) :
    ofField (s.toField n ++ tail) = s.bytes.take (n - 1) := by
  apply ofField_append
  · exact fun h => s.nul_free (List.mem_of_mem_take h)
  · rw [List.length_take]
    omega

theorem nul_mem_toField (n : Nat) (hn : 0 < n) (s : CString) : (0 : UInt8) ∈ s.toField n := by
  apply List.mem_append_right
  rw [List.mem_replicate, List.length_take]
  exact ⟨by omega, rfl⟩

end CString
