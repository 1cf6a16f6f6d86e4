import Netmt.Lib.CString

/-!
# Strings in memory

A NUL-terminated text at an offset of a region, and `strcat` on it. The text runs on
to the next NUL, wherever an array inside the region is said to end; only the end of
the region itself stops it.
-/
namespace Region

variable {size : Nat}

theorem slice_add (off m n : Nat) (b : List UInt8) :
    slice off (m + n) b = slice off m b ++ slice (off + m) n b := by
  rw [slice, slice, slice, List.take_add, List.drop_drop]

/-- The text at `off`, if it ends in the region. -/
def textAt (r : Region size) (off : Nat) : Option (List UInt8) :=
  if (0 : UInt8) ∈ r.bytes.drop off then some (CString.ofField (r.bytes.drop off)) else none

/-- `strcpy(r + off, src)`. -/
def strcpy (r : Region size) (off : Nat) (src : List UInt8) : Option (Region size) :=
  if off + src.length < size then some (r.put off (src ++ [0])) else none

/-- `strcat(r + off, src)`: the copy starts at the NUL. -/
def strcat (r : Region size) (off : Nat) (src : List UInt8) : Option (Region size) :=
  (r.textAt off).bind fun s => r.strcpy (off + s.length) src

/-- `s` and its NUL lie at `off`. -/
structure Text (r : Region size) (off : Nat) (s : List UInt8) : Prop where
  nul_free : (0 : UInt8) ∉ s
  fits : off + s.length < size
  bytes : slice off (s.length + 1) r.bytes = s ++ [0]

theorem Text.split {r : Region size} {off : Nat} {s : List UInt8} (h : Text r off s) :
    r.bytes.drop off = s ++ List.replicate 1 0 ++ (r.bytes.drop off).drop (s.length + 1) := by
  have hbytes := h.bytes
  rw [slice] at hbytes
  calc r.bytes.drop off
      = (r.bytes.drop off).take (s.length + 1) ++ (r.bytes.drop off).drop (s.length + 1) :=
        (List.take_append_drop _ _).symm
    _ = s ++ List.replicate 1 0 ++ (r.bytes.drop off).drop (s.length + 1) := by rw [hbytes]; rfl

theorem Text.front {r : Region size} {off : Nat} {s : List UInt8} (h : Text r off s) :
    slice off s.length r.bytes = s := by
  rw [slice, h.split, List.append_assoc, List.take_append_of_le_length (le_refl _),
    List.take_length]

theorem Text.read {r : Region size} {off : Nat} {s : List UInt8} (h : Text r off s) :
    r.textAt off = some s := by
  rw [textAt, h.split, CString.ofField_append s h.nul_free 1 (by decide), if_pos (by simp)]

theorem text_zero {off : Nat} (h : off < size) : Text (zero size) off [] where
  nul_free := List.not_mem_nil
  fits := h
  bytes := by
    rw [slice_zero, List.length_nil, Nat.min_eq_left (by omega)]
    rfl

theorem text_of_split {r : Region size} (pre rest : List UInt8) {s : List UInt8}
    (hs : (0 : UInt8) ∉ s) (hsplit : r.bytes = pre ++ (s ++ 0 :: rest)) : Text r pre.length s where
  nul_free := hs
  fits := by
    have hlen := congrArg List.length hsplit
    simp only [length_bytes, List.length_append, List.length_cons] at hlen
    omega
  bytes := by
    have hcons : s ++ 0 :: rest = (s ++ [0]) ++ rest := by simp
    have hlen : (s ++ [0]).length = s.length + 1 := by simp
    rw [slice, hsplit, List.drop_left, hcons, ← hlen, List.take_left]

/-- What a copy that fits leaves. -/
theorem text_strcpy {r : Region size} {off : Nat} {src : List UInt8} (hsrc : (0 : UInt8) ∉ src)
    (hfit : off + src.length < size) :
    r.strcpy off src = some (r.put off (src ++ [0])) ∧ Text (r.put off (src ++ [0])) off src := by
  have hlen : (src ++ [0]).length = src.length + 1 := by simp
  refine ⟨if_pos hfit, hsrc, hfit, ?_⟩
  rw [slice_put_same _ _ _ _ (by omega) (by omega), ← hlen, List.take_length]

/-- A text and one copied to its end are one text. -/
theorem Text.append {r : Region size} {off : Nat} {s src : List UInt8} (hs : (0 : UInt8) ∉ s)
    (hfront : slice off s.length r.bytes = s) (h : Text r (off + s.length) src) :
    Text r off (s ++ src) where
  nul_free := by
    rw [List.mem_append]
    exact fun hmem => hmem.elim hs h.nul_free
  fits := by
    have hfits := h.fits
    rw [List.length_append]
    omega
  bytes := by rw [List.length_append, Nat.add_assoc, slice_add, hfront, h.bytes, List.append_assoc]

/-- A NUL inside a text ends it there. -/
theorem Text.cut {r : Region size} {off i : Nat} {s : List UInt8} (h : Text r off s)
    (hi : i ≤ s.length) :
    Text (r.put (off + i) [0]) off (s.take i) := by
  have hfits := h.fits
  have hfree : (0 : UInt8) ∉ s.take i := fun hmem => h.nul_free (List.mem_of_mem_take hmem)
  have hlen : (s.take i).length = i := List.length_take_of_le hi
  have hroom : off + i + ([] : List UInt8).length < size := by
    rw [List.length_nil]
    omega
  have hend : Text (r.put (off + i) ([] ++ [0])) (off + i) [] :=
    (text_strcpy List.not_mem_nil hroom).2
  rw [List.nil_append] at hend
  have hfront : slice off i (r.put (off + i) [0]).bytes = s.take i := by
    rw [slice_put_other _ _ _ _ _ (by simp only [List.length_singleton]; omega) (.inl (le_refl _)),
      ← h.front, slice, slice, List.take_take, Nat.min_eq_left hi]
  rw [← hlen] at hend hfront
  have hwhole := Text.append hfree (by simpa [hlen] using hfront) hend
  simpa [hlen] using hwhole

/-- A write behind a text leaves it. -/
theorem Text.put_behind {r : Region size} {off i : Nat} {s data : List UInt8} (h : Text r off s)
    (hi : off + s.length < i) (hfit : i + data.length ≤ size) : Text (r.put i data) off s where
  nul_free := h.nul_free
  fits := h.fits
  bytes := by
    rw [slice_put_other _ _ _ _ _ hfit (.inl (by omega))]
    exact h.bytes

/-- A text that fits is appended to. -/
theorem Text.strcat {r : Region size} {off : Nat} {s src : List UInt8} (h : Text r off s)
    (hsrc : (0 : UInt8) ∉ src) (hfit : off + s.length + src.length < size) :
    r.strcat off src = some (r.put (off + s.length) (src ++ [0])) ∧
      Text (r.put (off + s.length) (src ++ [0])) off (s ++ src) := by
  obtain ⟨hcopy, htext⟩ := text_strcpy (r := r) hsrc hfit
  have hlen : (src ++ [0]).length = src.length + 1 := by simp
  refine ⟨by rw [Region.strcat, h.read, Option.bind_some, hcopy], Text.append h.nul_free ?_ htext⟩
  rw [slice_put_other _ _ _ _ _ (by omega) (Or.inl (le_refl _))]
  exact h.front

/-- Any other does not. -/
theorem Text.strcat_overflow {r : Region size} {off : Nat} {s src : List UInt8} (h : Text r off s)
    (hfit : size ≤ off + s.length + src.length) : r.strcat off src = none := by
  rw [Region.strcat, h.read, Option.bind_some, strcpy, if_neg (by omega)]

/-- The text at a place is one text only. -/
theorem Text.unique {r : Region size} {off : Nat} {s s' : List UInt8} (h : Text r off s)
    (h' : Text r off s') : s = s' := by
  have hread := h.read
  rw [h'.read] at hread
  exact (Option.some.inj hread).symm

end Region
