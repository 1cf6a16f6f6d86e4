import Mathlib.Data.List.Basic
import Mathlib.Data.Int.Init
import Mathlib.Tactic.NormNum
import Mathlib.Tactic.Ring

/-!
# Fixed-size memory regions

A region is a list of bytes whose length is part of its type. Reads and writes
at a run-time offset are checked: an access that leaves the region is `none`.
Reads and writes of the fields of a record, whose offsets are constants, are
total. Integers are little-endian; a signed 32-bit value is an `Int` reduced
with `bmod`.
-/
namespace Region

/-- The `n` bytes from offset `off`. -/
def slice (off n : Nat) (b : List UInt8) : List UInt8 := (b.drop off).take n

/-- Overwrite from offset `off`; what would fall behind the end is cut off. -/
def patch (off : Nat) (data b : List UInt8) : List UInt8 :=
  (b.take off ++ data ++ b.drop (off + data.length)).take b.length

@[simp] theorem length_patch (off : Nat) (data b : List UInt8) :
    (patch off data b).length = b.length := by
  simp only [patch, List.length_take, List.length_append, List.length_drop]
  omega

@[simp] theorem length_slice (off n : Nat) (b : List UInt8) :
    (slice off n b).length = min n (b.length - off) := by
  simp [slice]

theorem patch_eq (off : Nat) (data b : List UInt8) (h : off + data.length ≤ b.length) :
    patch off data b = b.take off ++ data ++ b.drop (off + data.length) := by
  apply List.take_of_length_le
  simp only [List.length_append, List.length_take, List.length_drop]
  omega

theorem getElem?_patch (off : Nat) (data b : List UInt8) (h : off + data.length ≤ b.length)
    (i : Nat) : (patch off data b)[i]? =
      if i < off then b[i]? else if i < off + data.length then data[i - off]? else b[i]? := by
  rw [patch_eq off data b h, List.append_assoc, List.getElem?_append]
  have hlen : (b.take off).length = off := by simp; omega
  rw [hlen]
  by_cases hi : i < off
  · simp [hi]
  · rw [if_neg hi, if_neg hi, List.getElem?_append]
    by_cases hd : i - off < data.length
    · have : i < off + data.length := by omega
      simp [hd, this]
    · have hge : ¬ i < off + data.length := by omega
      rw [if_neg hd, if_neg hge, List.getElem?_drop]
      congr 1
      omega

theorem getElem?_slice (off n : Nat) (b : List UInt8) (i : Nat) :
    (slice off n b)[i]? = if i < n then b[off + i]? else none := by
  simp [slice, List.getElem?_take]

/-- What was written is read back. -/
theorem slice_patch_same (off n : Nat) (data b : List UInt8) (h : off + data.length ≤ b.length)
    (hn : n ≤ data.length) : slice off n (patch off data b) = data.take n := by
  apply List.ext_getElem?
  intro i
  rw [getElem?_slice, getElem?_patch off data b h, List.getElem?_take]
  by_cases hi : i < n
  · have h₁ : ¬ off + i < off := by omega
    have h₂ : off + i < off + data.length := by omega
    have h₃ : off + i - off = i := by omega
    rw [if_pos hi, if_neg h₁, if_pos h₂, h₃, if_pos hi]
  · rw [if_neg hi, if_neg hi]

/-- A write leaves every disjoint range alone. -/
theorem slice_patch_other (off off' n : Nat) (data b : List UInt8)
    (h : off + data.length ≤ b.length) (hd : off' + n ≤ off ∨ off + data.length ≤ off') :
    slice off' n (patch off data b) = slice off' n b := by
  apply List.ext_getElem?
  intro i
  rw [getElem?_slice, getElem?_slice, getElem?_patch off data b h]
  by_cases hi : i < n
  · rw [if_pos hi, if_pos hi]
    cases hd with
    | inl hd =>
      rw [if_pos (by omega)]
    | inr hd =>
      rw [if_neg (by omega), if_neg (by omega)]
  · rw [if_neg hi, if_neg hi]

/-! ## Integers -/

/-- Little-endian value of a list of bytes. -/
def leNat : List UInt8 → Nat
  | [] => 0
  | b :: bs => b.toNat + 256 * leNat bs

/-- The `n` low bytes of a number, low byte first. -/
def leBytes : Nat → Nat → List UInt8
  | 0, _ => []
  | n + 1, v => UInt8.ofNat (v % 256) :: leBytes n (v / 256)

@[simp] theorem length_leBytes (n v : Nat) : (leBytes n v).length = n := by
  induction n generalizing v with
  | zero => rfl
  | succ n ih => simp [leBytes, ih]

theorem leNat_leBytes (n v : Nat) : leNat (leBytes n v) = v % 256 ^ n := by
  induction n generalizing v with
  | zero => simp [leBytes, leNat, Nat.mod_one]
  | succ n ih =>
    have hb : (UInt8.ofNat (v % 256)).toNat = v % 256 := by simp
    rw [leBytes, leNat, ih, hb, Nat.pow_succ', Nat.mod_mul]

theorem leNat_lt (b : List UInt8) : leNat b < 256 ^ b.length := by
  induction b with
  | nil => simp [leNat]
  | cons x xs ih =>
    have hx := x.toNat_lt
    rw [leNat, List.length_cons, Nat.pow_succ]
    omega

theorem leBytes_leNat (b : List UInt8) : leBytes b.length (leNat b) = b := by
  induction b with
  | nil => rfl
  | cons x xs ih =>
    have hx := x.toNat_lt
    have hmod : (x.toNat + 256 * leNat xs) % 256 = x.toNat := by omega
    have hdiv : (x.toNat + 256 * leNat xs) / 256 = leNat xs := by omega
    rw [List.length_cons, leNat, leBytes, hmod, hdiv, ih, UInt8.ofNat_toNat]

/-- Two's complement reduction to a C `int`. -/
def wrap32 (v : Int) : Int := v.bmod 4294967296

theorem wrap32_of_range {v : Int} (hl : -2147483648 ≤ v) (hh : v < 2147483648) : wrap32 v = v := by
  rw [wrap32, Int.bmod_def]
  split <;> omega

theorem wrap32_bounds (v : Int) : -2147483648 ≤ wrap32 v ∧ wrap32 v < 2147483648 := by
  rw [wrap32, Int.bmod_def]
  split <;> omega

@[simp] theorem wrap32_wrap32 (v : Int) : wrap32 (wrap32 v) = wrap32 v :=
  wrap32_of_range (wrap32_bounds v).1 (wrap32_bounds v).2

@[simp] theorem wrap32_add_wrap32 (a b : Int) : wrap32 (wrap32 a + b) = wrap32 (a + b) := by
  simp [wrap32]

/-- Equal `int`s are equal modulo `2 ^ 32`, and conversely. -/
theorem wrap32_eq_iff (a b : Int) : wrap32 a = wrap32 b ↔ (4294967296 : Int) ∣ a - b := by
  constructor
  · intro h
    have ha : (a - wrap32 a) % 4294967296 = 0 := by
      rw [wrap32, Int.bmod_def]; split <;> omega
    have hb : (b - wrap32 b) % 4294967296 = 0 := by
      rw [wrap32, Int.bmod_def]; split <;> omega
    omega
  · intro h
    rw [wrap32, wrap32, Int.bmod_def, Int.bmod_def]
    split <;> split <;> omega

def bytesI32 (v : Int) : List UInt8 := leBytes 4 (v % 4294967296).toNat

@[simp] theorem length_bytesI32 (v : Int) : (bytesI32 v).length = 4 := by simp [bytesI32]

def i32OfBytes (b : List UInt8) : Int := wrap32 (leNat b)

@[simp] theorem i32OfBytes_bytesI32 (v : Int) : i32OfBytes (bytesI32 v) = wrap32 v := by
  rw [i32OfBytes, bytesI32, leNat_leBytes, wrap32_eq_iff]
  omega

end Region

/-- A block of memory of `size` bytes. -/
@[ext] structure Region (size : Nat) where
  bytes : List UInt8
  length_bytes : bytes.length = size

namespace Region

attribute [simp] Region.length_bytes

variable {size : Nat}

instance : DecidableEq (Region size) := fun a b =>
  decidable_of_iff (a.bytes = b.bytes) ⟨Region.ext, fun h => h ▸ rfl⟩

/-- A zeroed region, as `calloc` or `bzero` leaves it. -/
def zero (size : Nat) : Region size := ⟨List.replicate size 0, by simp⟩

instance : Inhabited (Region size) := ⟨zero size⟩

/-! ## Checked access at a run-time offset -/

def load (r : Region size) (off : Int) (n : Nat) : Option (List UInt8) :=
  if 0 ≤ off ∧ off + n ≤ size then some (slice off.toNat n r.bytes) else none

def store (r : Region size) (off : Int) (data : List UInt8) : Option (Region size) :=
  if 0 ≤ off ∧ off + data.length ≤ size then
    some ⟨patch off.toNat data r.bytes, by simp⟩
  else none

/-- `memmove` to the front of the region; a negative length becomes a huge `size_t`. -/
def moveToFront (r : Region size) (off n : Int) : Option (Region size) :=
  if n < 0 then none else (r.load off n.toNat).bind (r.store 0)

def loadI32 (r : Region size) (off : Int) : Option Int := (r.load off 4).map i32OfBytes

theorem load_eq (r : Region size) (off n : Nat) (h : off + n ≤ size) :
    r.load (off : Int) n = some (slice off n r.bytes) := by
  rw [load, if_pos (by omega)]
  simp

theorem store_eq (r : Region size) (off : Nat) (data : List UInt8)
    (h : off + data.length ≤ size) :
    r.store (off : Int) data = some ⟨patch off data r.bytes, by simp⟩ := by
  rw [store, if_pos (by omega)]
  simp

/-! ## Fields at constant offsets -/

def i32 (r : Region size) (off : Nat) : Int := i32OfBytes (slice off 4 r.bytes)
def u32 (r : Region size) (off : Nat) : Nat := leNat (slice off 4 r.bytes)
def u64 (r : Region size) (off : Nat) : Nat := leNat (slice off 8 r.bytes)
def str (r : Region size) (off n : Nat) : List UInt8 := (slice off n r.bytes).takeWhile (· ≠ 0)

def put (r : Region size) (off : Nat) (data : List UInt8) : Region size :=
  ⟨patch off data r.bytes, by simp⟩

abbrev putI32 (r : Region size) (off : Nat) (v : Int) : Region size := r.put off (bytesI32 v)
abbrev putU32 (r : Region size) (off : Nat) (v : Nat) : Region size := r.put off (leBytes 4 v)
abbrev putU64 (r : Region size) (off : Nat) (v : Nat) : Region size := r.put off (leBytes 8 v)

/-- `bzero` of a part of the region. -/
abbrev bzero (r : Region size) (off n : Nat) : Region size := r.put off (List.replicate n 0)

theorem slice_put_same (r : Region size) (off n : Nat) (data : List UInt8)
    (h : off + data.length ≤ size) (hn : n ≤ data.length) :
    slice off n (r.put off data).bytes = data.take n :=
  slice_patch_same off n data r.bytes (by simpa using h) hn

theorem slice_put_other (r : Region size) (off off' n : Nat) (data : List UInt8)
    (h : off + data.length ≤ size) (hd : off' + n ≤ off ∨ off + data.length ≤ off') :
    slice off' n (r.put off data).bytes = slice off' n r.bytes :=
  slice_patch_other off off' n data r.bytes (by simpa using h) hd

/-- The later of two writes to one place stays. -/
theorem put_put (r : Region size) (off : Nat) {data data' : List UInt8}
    (hl : data.length = data'.length) (h : off + data'.length ≤ size) :
    (r.put off data).put off data' = r.put off data' := by
  have hlen := r.length_bytes
  apply Region.ext
  apply List.ext_getElem?
  intro i
  change (patch off data' (patch off data r.bytes))[i]? = (patch off data' r.bytes)[i]?
  rw [getElem?_patch _ _ _ (by rw [length_patch]; omega), getElem?_patch _ _ _ (by omega),
    getElem?_patch _ _ _ (by omega), hl]
  by_cases hi : i < off
  · simp only [if_pos hi]
  · by_cases hd : i < off + data'.length
    · simp only [if_neg hi, if_pos hd]
    · simp only [if_neg hi, if_neg hd]

@[simp] theorem i32_put_same (r : Region size) (off : Nat) (v : Int) (h : off + 4 ≤ size) :
    (r.put off (bytesI32 v)).i32 off = wrap32 v := by
  rw [i32, slice_put_same _ _ _ _ (by simpa using h) (by simp)]
  simp [List.take_of_length_le]

@[simp] theorem u32_put_same (r : Region size) (off v : Nat) (h : off + 4 ≤ size) :
    (r.put off (leBytes 4 v)).u32 off = v % 4294967296 := by
  rw [u32, slice_put_same _ _ _ _ (by simpa using h) (by simp),
    List.take_of_length_le (by simp), leNat_leBytes]
  norm_num

@[simp] theorem u64_put_same (r : Region size) (off v : Nat) (h : off + 8 ≤ size) :
    (r.put off (leBytes 8 v)).u64 off = v % 18446744073709551616 := by
  rw [u64, slice_put_same _ _ _ _ (by simpa using h) (by simp),
    List.take_of_length_le (by simp), leNat_leBytes]
  norm_num

@[simp] theorem i32_put_other (r : Region size) (off off' : Nat) (data : List UInt8)
    (h : off + data.length ≤ size) (hd : off' + 4 ≤ off ∨ off + data.length ≤ off') :
    (r.put off data).i32 off' = r.i32 off' := by
  rw [i32, slice_put_other _ _ _ _ _ h hd, i32]

@[simp] theorem u32_put_other (r : Region size) (off off' : Nat) (data : List UInt8)
    (h : off + data.length ≤ size) (hd : off' + 4 ≤ off ∨ off + data.length ≤ off') :
    (r.put off data).u32 off' = r.u32 off' := by
  rw [u32, slice_put_other _ _ _ _ _ h hd, u32]

@[simp] theorem u64_put_other (r : Region size) (off off' : Nat) (data : List UInt8)
    (h : off + data.length ≤ size) (hd : off' + 8 ≤ off ∨ off + data.length ≤ off') :
    (r.put off data).u64 off' = r.u64 off' := by
  rw [u64, slice_put_other _ _ _ _ _ h hd, u64]

theorem leNat_replicate_zero (n : Nat) : leNat (List.replicate n 0) = 0 := by
  induction n with
  | zero => rfl
  | succ n ih => simp [List.replicate_succ, leNat, ih]

theorem slice_zero (off n : Nat) :
    slice off n (zero size).bytes = List.replicate (min n (size - off)) 0 := by
  simp [slice, zero, List.take_replicate]

@[simp] theorem default_eq : (default : Region size) = zero size := rfl

@[simp] theorem i32_zero (off : Nat) : (zero size).i32 off = 0 := by
  rw [i32, slice_zero, i32OfBytes, leNat_replicate_zero]
  rfl

@[simp] theorem u32_zero (off : Nat) : (zero size).u32 off = 0 := by
  rw [u32, slice_zero, leNat_replicate_zero]

@[simp] theorem u64_zero (off : Nat) : (zero size).u64 off = 0 := by
  rw [u64, slice_zero, leNat_replicate_zero]

end Region
