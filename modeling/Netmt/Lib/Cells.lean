import Netmt.Lib.CString

/-!
# Bytes of a buffer

Memory that is nothing but its bytes; `none` stands for an access outside. A string
in it ends at its NUL.
-/
namespace Cells

/-- `mem[i] = c` -/
def writeAt (i : Nat) (c : UInt8) (mem : List UInt8) : Option (List UInt8) :=
  if i < mem.length then some (mem.set i c) else none

/-- Bytes copied to the front of a buffer. -/
def copyTo (data mem : List UInt8) : Option (List UInt8) :=
  if data.length ≤ mem.length then some (data ++ mem.drop data.length) else none

/-- `strlen(mem)`: where the NUL is. -/
def strlen (mem : List UInt8) : Option Nat :=
  if (0 : UInt8) ∈ mem then some (CString.ofField mem).length else none

/-- The byte behind `w` is overwritten. -/
theorem writeAt_append (w : List UInt8) (c d : UInt8) (rest : List UInt8) :
    writeAt w.length c (w ++ d :: rest) = some (w ++ c :: rest) := by
  rw [writeAt, if_pos (by simp), List.set_append_right _ _ (le_refl _), Nat.sub_self,
    List.set_cons_zero]

theorem getElem?_behind (w : List UInt8) (d : UInt8) (rest : List UInt8) :
    (w ++ d :: rest)[w.length]? = some d := by
  rw [List.getElem?_append_right (le_refl _), Nat.sub_self, List.getElem?_cons_zero]

theorem ofField_cut {w : List UInt8} (hw : (0 : UInt8) ∉ w) (rest : List UInt8) :
    CString.ofField (w ++ 0 :: rest) = w := by
  have htext := CString.ofField_append w hw 1 (by decide) rest
  simpa using htext

theorem strlen_append {w : List UInt8} (hw : (0 : UInt8) ∉ w) (rest : List UInt8) :
    strlen (w ++ 0 :: rest) = some w.length := by
  rw [strlen, if_pos (by simp), ofField_cut hw]

theorem copyTo_append (data mem : List UInt8) (h : data.length ≤ mem.length) :
    ∃ rest, copyTo data mem = some (data ++ rest) ∧ rest.length = mem.length - data.length :=
  ⟨mem.drop data.length, if_pos h, List.length_drop⟩

end Cells
