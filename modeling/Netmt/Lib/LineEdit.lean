import Mathlib.Data.List.GetD
import Netmt.Lib.Cells

/-!
# A line that is edited

The text in front of the cursor, nearest character first, and the text from it on. The
bytes of a buffer that hold such a line, and a row of a terminal that shows it.
-/

structure Zipper (α : Type) where
  before : List α
  after : List α
  deriving DecidableEq

namespace Zipper

variable {α : Type}

def text (z : Zipper α) : List α := z.before.reverse ++ z.after

def insert (c : α) (z : Zipper α) : Zipper α := ⟨c :: z.before, z.after⟩

def forward (z : Zipper α) : Zipper α :=
  match z.after with
  | [] => z
  | c :: after => ⟨c :: z.before, after⟩

def backward (z : Zipper α) : Zipper α :=
  match z.before with
  | [] => z
  | c :: before => ⟨before, c :: z.after⟩

def delete (z : Zipper α) : Zipper α := ⟨z.before, z.after.tail⟩

def rub (z : Zipper α) : Zipper α := ⟨z.before.tail, z.after⟩

def kill (z : Zipper α) : Zipper α := ⟨z.before, []⟩

def home (z : Zipper α) : Zipper α := ⟨[], z.text⟩

/-- The cursor behind a text. -/
def behind (t : List α) : Zipper α := ⟨t.reverse, []⟩

def forwardWhile (p : α → Bool) (z : Zipper α) : Zipper α :=
  ⟨(z.after.takeWhile p).reverse ++ z.before, z.after.dropWhile p⟩

def backwardWhile (p : α → Bool) (z : Zipper α) : Zipper α :=
  ⟨z.before.dropWhile p, (z.before.takeWhile p).reverse ++ z.after⟩

def deleteWhile (p : α → Bool) (z : Zipper α) : Zipper α := ⟨z.before, z.after.dropWhile p⟩

def rubWhile (p : α → Bool) (z : Zipper α) : Zipper α := ⟨z.before.dropWhile p, z.after⟩

/-- `next` as long as the line goes on. -/
def repeatWhile (goes : Zipper α → Bool) (next : Zipper α → Zipper α) : Nat → Zipper α → Zipper α
  | 0, z => z
  | fuel + 1, z => if goes z then repeatWhile goes next fuel (next z) else z

/-- The two characters around the cursor, or the last two when it is behind the line. -/
def transpose (z : Zipper α) : Zipper α :=
  match z.before, z.after with
  | b :: before, c :: after => ⟨b :: c :: before, after⟩
  | b :: c :: before, [] => ⟨c :: b :: before, []⟩
  | _, _ => z

@[simp] theorem text_behind (t : List α) : (behind t).text = t := by simp [behind, text]
@[simp] theorem text_home (z : Zipper α) : z.home.text = z.text := rfl
@[simp] theorem length_behind (t : List α) : (behind t).before.length = t.length :=
  List.length_reverse

theorem length_text (z : Zipper α) : z.text.length = z.before.length + z.after.length := by
  simp [text]

theorem text_forward (z : Zipper α) : z.forward.text = z.text := by
  rw [forward]
  split
  · rfl
  · next c after h => simp [text, h]

theorem text_backward (z : Zipper α) : z.backward.text = z.text := by
  rw [backward]
  split
  · rfl
  · next c before h => simp [text, h]

theorem text_forwardWhile (p : α → Bool) (z : Zipper α) : (z.forwardWhile p).text = z.text := by
  simp [forwardWhile, text, List.takeWhile_append_dropWhile]

theorem text_backwardWhile (p : α → Bool) (z : Zipper α) : (z.backwardWhile p).text = z.text := by
  have hsplit : (z.before.dropWhile p).reverse ++ (z.before.takeWhile p).reverse =
      z.before.reverse := by
    rw [← List.reverse_append, List.takeWhile_append_dropWhile]
  simp only [backwardWhile, text, ← List.append_assoc, hsplit]

theorem repeat_forward (p : α → Bool) (fuel : Nat) : ∀ z : Zipper α, z.after.length < fuel →
    repeatWhile (fun z => z.after.head?.any p) forward fuel z = z.forwardWhile p := by
  induction fuel with
  | zero => exact fun z h => absurd h (Nat.not_lt_zero _)
  | succ fuel ih =>
    rintro ⟨before, after⟩ hfuel
    cases after with
    | nil => rfl
    | cons c after =>
      by_cases hc : p c = true
      · have hstep : repeatWhile (fun z => z.after.head?.any p) forward (fuel + 1)
          ⟨before, c :: after⟩ =
            repeatWhile (fun z => z.after.head?.any p) forward fuel ⟨c :: before, after⟩ := by
          simp [repeatWhile, forward, hc]
        rw [hstep, ih _ (Nat.lt_of_succ_lt_succ hfuel)]
        simp [forwardWhile, hc]
      · simp [repeatWhile, forwardWhile, hc]

theorem repeat_backward (p : α → Bool) (fuel : Nat) : ∀ z : Zipper α, z.before.length < fuel →
    repeatWhile (fun z => z.before.head?.any p) backward fuel z = z.backwardWhile p := by
  induction fuel with
  | zero => exact fun z h => absurd h (Nat.not_lt_zero _)
  | succ fuel ih =>
    rintro ⟨before, after⟩ hfuel
    cases before with
    | nil => rfl
    | cons c before =>
      by_cases hc : p c = true
      · have hstep : repeatWhile (fun z => z.before.head?.any p) backward (fuel + 1)
          ⟨c :: before, after⟩ =
            repeatWhile (fun z => z.before.head?.any p) backward fuel ⟨before, c :: after⟩ := by
          simp [repeatWhile, backward, hc]
        rw [hstep, ih _ (Nat.lt_of_succ_lt_succ hfuel)]
        simp [backwardWhile, hc]
      · simp [repeatWhile, backwardWhile, hc]

theorem repeat_delete (p : α → Bool) (fuel : Nat) : ∀ z : Zipper α, z.after.length < fuel →
    repeatWhile (fun z => z.after.head?.any p) delete fuel z = z.deleteWhile p := by
  induction fuel with
  | zero => exact fun z h => absurd h (Nat.not_lt_zero _)
  | succ fuel ih =>
    rintro ⟨before, after⟩ hfuel
    cases after with
    | nil => rfl
    | cons c after =>
      by_cases hc : p c = true
      · have hstep : repeatWhile (fun z => z.after.head?.any p) delete (fuel + 1)
          ⟨before, c :: after⟩ =
            repeatWhile (fun z => z.after.head?.any p) delete fuel ⟨before, after⟩ := by
          simp [repeatWhile, delete, hc]
        rw [hstep, ih _ (Nat.lt_of_succ_lt_succ hfuel)]
        simp [deleteWhile, hc]
      · simp [repeatWhile, deleteWhile, hc]

theorem repeat_rub (p : α → Bool) (fuel : Nat) : ∀ z : Zipper α, z.before.length < fuel →
    repeatWhile (fun z => z.before.head?.any p) rub fuel z = z.rubWhile p := by
  induction fuel with
  | zero => exact fun z h => absurd h (Nat.not_lt_zero _)
  | succ fuel ih =>
    rintro ⟨before, after⟩ hfuel
    cases before with
    | nil => rfl
    | cons c before =>
      by_cases hc : p c = true
      · have hstep : repeatWhile (fun z => z.before.head?.any p) rub (fuel + 1)
          ⟨c :: before, after⟩ =
            repeatWhile (fun z => z.before.head?.any p) rub fuel ⟨before, after⟩ := by
          simp [repeatWhile, rub, hc]
        rw [hstep, ih _ (Nat.lt_of_succ_lt_succ hfuel)]
        simp [rubWhile, hc]
      · simp [repeatWhile, rubWhile, hc]

/-- The cursor goes to where it is behind the line. -/
theorem forwardWhile_all (z : Zipper α) : z.forwardWhile (fun _ => true) = behind z.text := by
  simp [forwardWhile, behind, text, List.takeWhile_eq_self_iff.mpr, List.dropWhile_eq_nil_iff.mpr]

theorem backwardWhile_all (z : Zipper α) : z.backwardWhile (fun _ => true) = z.home := by
  simp [backwardWhile, home, text, List.takeWhile_eq_self_iff.mpr, List.dropWhile_eq_nil_iff.mpr]

end Zipper

/-! ## The bytes of a buffer -/

namespace Cells

open Region (slice patch)

/-- `memmove(&mem[dst], &mem[src], n)` -/
def memmove (dst src n : Nat) (mem : List UInt8) : Option (List UInt8) :=
  if dst + n ≤ mem.length ∧ src + n ≤ mem.length then
    some (patch dst (slice src n mem) mem) else none

/-- `memset(&mem[off], 0, n)` -/
def memset (off n : Nat) (mem : List UInt8) : Option (List UInt8) :=
  if off + n ≤ mem.length then some (patch off (List.replicate n 0) mem) else none

/-- `strcpy(&mem[off], s)` -/
def strcpy (off : Nat) (s mem : List UInt8) : Option (List UInt8) :=
  if off + (s.length + 1) ≤ mem.length then some (patch off (s ++ [0]) mem) else none

/-- The `n` bytes at an offset. -/
def readAt (off n : Nat) (mem : List UInt8) : Option (List UInt8) :=
  if off + n ≤ mem.length then some (slice off n mem) else none

theorem patch_middle (a old data r : List UInt8) (h : old.length = data.length) :
    patch a.length data (a ++ old ++ r) = a ++ data ++ r := by
  have hfront : (a ++ old ++ r).take a.length = a := by rw [List.append_assoc, List.take_left]
  rw [Region.patch_eq _ _ _ (by simp; omega), hfront, ← h, ← List.length_append, List.drop_left]

theorem slice_middle (a b r : List UInt8) : slice a.length b.length (a ++ b ++ r) = b := by
  rw [slice, List.append_assoc, List.drop_left, List.take_left]

theorem readAt_middle (a b r : List UInt8) : readAt a.length b.length (a ++ b ++ r) = some b := by
  rw [readAt, if_pos (by simp), slice_middle]

/-- A place is made for a character, which pushes what is behind it over the next byte. -/
theorem insert_middle (a b r : List UInt8) (c x : UInt8) :
    ((memmove (a.length + 1) a.length b.length (a ++ b ++ x :: r)).bind (writeAt a.length c)) =
      some (a ++ c :: b ++ r) := by
  have hfirst : ∃ y mid, b ++ [x] = y :: mid ∧ mid.length = b.length := by
    cases b with
    | nil => exact ⟨x, [], rfl, rfl⟩
    | cons y b => exact ⟨y, b ++ [x], rfl, by simp⟩
  obtain ⟨y, mid, hmid, hlength⟩ := hfirst
  have hmem : a ++ b ++ x :: r = (a ++ [y]) ++ mid ++ r := by
    rw [List.append_assoc a [y] mid, List.singleton_append, ← hmid]
    simp
  have hmoved : memmove (a.length + 1) a.length b.length (a ++ b ++ x :: r) =
      some (a ++ y :: b ++ r) := by
    rw [memmove, if_pos (by simp; omega), slice_middle, hmem, ← List.length_singleton (a := y),
      ← List.length_append,
      patch_middle _ _ _ _ hlength]
    simp
  rw [hmoved, Option.bind_some, List.append_assoc, List.cons_append, writeAt_append,
    List.append_assoc, List.cons_append]

/-- What is behind a character comes over it, and the byte that gets free is zeroed. -/
theorem delete_middle (a b r : List UInt8) (y : UInt8) :
    ((memmove a.length (a.length + 1) b.length (a ++ y :: b ++ r)).bind
      (writeAt (a.length + b.length) 0)) =
      some (a ++ b ++ 0 :: r) := by
  have hlast : ∃ mid z, y :: b = mid ++ [z] ∧ mid.length = b.length := by
    refine ⟨(y :: b).dropLast, (y :: b).getLast (List.cons_ne_nil y b),
      (List.dropLast_append_getLast _).symm, ?_⟩
    simp
  obtain ⟨mid, z, hmid, hlength⟩ := hlast
  have hmoved : memmove a.length (a.length + 1) b.length (a ++ y :: b ++ r) =
      some (a ++ b ++ z :: r) := by
    have hread : slice (a.length + 1) b.length (a ++ y :: b ++ r) = b := by
      have hcut := slice_middle (a ++ [y]) b r
      simpa using hcut
    rw [memmove, if_pos (by simp; omega), hread, hmid, ← List.append_assoc,
      List.append_assoc (a ++ mid),
      patch_middle _ _ _ _ hlength]
    rfl
  rw [hmoved, Option.bind_some, ← List.length_append, writeAt_append]

theorem memset_middle (a b r : List UInt8) :
    memset a.length b.length (a ++ b ++ r) = some (a ++ List.replicate b.length 0 ++ r) := by
  rw [memset, if_pos (by simp), patch_middle _ _ _ _ (by simp)]

theorem strcpy_middle (a old s r : List UInt8) (h : old.length = s.length + 1) :
    strcpy a.length s (a ++ old ++ r) = some (a ++ s ++ 0 :: r) := by
  rw [strcpy, if_pos (by simp; omega), patch_middle _ _ _ _ (by simpa using h)]
  simp

end Cells

/-! ## A row of a terminal -/

/-- The cells of a row, without an end, and the column of the cursor. -/
structure Row where
  cells : Nat → UInt8
  col : Nat

namespace Row

/-- A backspace moves the cursor, any other byte is put where it stands. -/
def put (r : Row) (b : UInt8) : Row :=
  if b = 8 then ⟨r.cells, r.col - 1⟩ else ⟨Function.update r.cells r.col b, r.col + 1⟩

def write (w : List UInt8) (r : Row) : Row := w.foldl put r

/-- A text with the cursor at `k`, and blanks behind it. -/
def holding (t : List UInt8) (k : Nat) : Row := ⟨fun i => t.getD i 32, k⟩

def blank : Row := holding [] 0

def showing (z : Zipper UInt8) : Row := holding z.text z.before.length

theorem write_append (u v : List UInt8) (r : Row) : write (u ++ v) r = write v (write u r) :=
  List.foldl_append

theorem write_back (n : Nat) :
    ∀ (t : List UInt8) (k : Nat), write (List.replicate n 8) (holding t k) = holding t (k - n) := by
  induction n with
  | zero => exact fun t k => rfl
  | succ n ih =>
    intro t k
    have hstep : write (List.replicate (n + 1) 8) (holding t k) = write (List.replicate n 8)
        (holding t (k - 1)) := rfl
    rw [hstep, ih, Nat.sub_sub, Nat.add_comm 1 n]

theorem holding_pad (t : List UInt8) (n k : Nat) :
    holding (t ++ List.replicate n 32) k = holding t k := by
  rw [holding, holding, Row.mk.injEq]
  refine ⟨?_, rfl⟩
  funext i
  by_cases hi : i < t.length
  · rw [List.getD_append _ _ _ _ hi]
  · rw [List.getD_append_right _ _ _ _ (Nat.le_of_not_lt hi),
      List.getD_eq_default t 32 (Nat.le_of_not_lt hi)]
    by_cases hn : i - t.length < n
    · exact List.getD_replicate 32 hn
    · exact List.getD_eq_default _ _ (by simpa using hn)

theorem put_middle (a r : List UInt8) (x : UInt8) {c : UInt8} (hc : c ≠ 8) :
    put (holding (a ++ x :: r) a.length) c = holding (a ++ c :: r) (a.length + 1) := by
  rw [put, if_neg hc, holding, holding, Row.mk.injEq]
  refine ⟨?_, rfl⟩
  funext i
  by_cases hi : i = a.length
  · rw [hi, Function.update_self]
    simp
  · rw [Function.update_of_ne hi]
    simp only [List.getD_eq_getElem?_getD]
    congr 1
    rcases Nat.lt_or_gt_of_ne hi with hlt | hgt
    · rw [List.getElem?_append_left hlt, List.getElem?_append_left hlt]
    · rw [List.getElem?_append_right (Nat.le_of_lt hgt),
        List.getElem?_append_right (Nat.le_of_lt hgt)]
      obtain ⟨d, hd⟩ := Nat.exists_eq_add_of_lt (Nat.sub_pos_of_lt hgt)
      rw [hd]
      simp

/-- A text comes over one of its length. -/
theorem write_middle (w : List UInt8) :
    ∀ (a old r : List UInt8), old.length = w.length → (8 : UInt8) ∉ w →
    write w (holding (a ++ old ++ r) a.length) = holding (a ++ w ++ r) (a.length + w.length) := by
  induction w with
  | nil =>
    intro a old r hlength _
    obtain rfl := List.length_eq_zero_iff.mp hlength
    rfl
  | cons c w ih =>
    intro a old r hlength hplain
    obtain ⟨x, old, rfl⟩ := List.exists_cons_of_length_eq_add_one hlength
    rw [List.mem_cons, not_or] at hplain
    have hstep : write (c :: w) (holding (a ++ x :: old ++ r) a.length) =
        write w (holding ((a ++ [c]) ++ old ++ r) (a ++ [c]).length) := by
      have hput := put_middle a (old ++ r) x (Ne.symm hplain.1)
      rw [write, List.foldl_cons, List.append_assoc, List.cons_append, hput]
      simp [write]
    rw [hstep, ih (a ++ [c]) old r (Nat.succ.inj hlength) hplain.2]
    simp [Nat.add_assoc, Nat.add_comm 1]

/-- A text comes behind another one. -/
theorem write_behind (a w : List UInt8) (hw : (8 : UInt8) ∉ w) :
    write w (holding a a.length) = holding (a ++ w) (a.length + w.length) := by
  have hwrite := write_middle w a (List.replicate w.length 32) [] List.length_replicate hw
  rwa [List.append_nil, List.append_nil, holding_pad] at hwrite

/-! The bytes for each edit. -/

variable {z : Zipper UInt8}

theorem showing_insert {c : UInt8} (hc : c ≠ 8) (hz : (8 : UInt8) ∉ z.after) :
    write (c :: z.after ++ List.replicate z.after.length 8) (showing z) = showing (z.insert c) := by
  have hplain : (8 : UInt8) ∉ c :: z.after := by
    rw [List.mem_cons, not_or]
    exact ⟨Ne.symm hc, hz⟩
  have hwrite := write_middle (c :: z.after) z.before.reverse (z.after ++ List.replicate 1 32) []
    (by simp) hplain
  rw [List.append_nil, List.append_nil, ← List.append_assoc, holding_pad,
    List.length_reverse] at hwrite
  have hshow : showing z = holding (z.before.reverse ++ z.after) z.before.length := rfl
  rw [hshow, write_append, hwrite, write_back, showing]
  congr 1
  · simp [Zipper.insert, Zipper.text]
  · simp only [Zipper.insert, List.length_cons]
    omega

theorem showing_delete {y : UInt8} {b : List UInt8} (hz : z.after = y :: b) (hb : (8 : UInt8) ∉ b) :
    write (b ++ 32 :: List.replicate (b.length + 1) 8) (showing z) = showing z.delete := by
  have hplain : (8 : UInt8) ∉ b ++ [32] := by
    rw [List.mem_append, not_or]
    exact ⟨hb, by decide⟩
  have hwrite := write_middle (b ++ [32]) z.before.reverse (y :: b) [] (by simp) hplain
  have hpad := holding_pad (z.before.reverse ++ b) 1 (z.before.length + (b.length + 1))
  rw [List.append_nil, List.append_nil, List.length_reverse, ← List.append_assoc,
    List.length_append, List.length_singleton] at hwrite
  have hshow : showing z = holding (z.before.reverse ++ y :: b) z.before.length := by rw [← hz]; rfl
  have hbytes : b ++ 32 :: List.replicate (b.length + 1) 8 = (b ++ [32]) ++ List.replicate
      (b.length + 1) 8 := by simp
  rw [hshow, hbytes, write_append, hwrite]
  change write _ (holding (z.before.reverse ++ b ++ List.replicate 1 32) _) = _
  rw [hpad, write_back, showing, Zipper.delete, Zipper.text, hz, Nat.add_sub_cancel]
  rfl

theorem showing_kill :
    write (List.replicate z.after.length 32 ++ List.replicate z.after.length 8) (showing z) =
      showing z.kill := by
  have hplain : (8 : UInt8) ∉ List.replicate z.after.length 32 := fun h => by
    have heq := List.eq_of_mem_replicate h
    revert heq
    decide
  have hwrite :=
    write_middle (List.replicate z.after.length 32) z.before.reverse z.after [] (by simp) hplain
  rw [List.append_nil, List.append_nil, holding_pad, List.length_reverse,
    List.length_replicate] at hwrite
  have hshow : showing z = holding (z.before.reverse ++ z.after) z.before.length := rfl
  rw [hshow, write_append, hwrite, write_back, showing, Zipper.kill, Zipper.text, List.append_nil,
    Nat.add_sub_cancel]

/-- A character comes over the one at the cursor. -/
theorem showing_overwrite {y c : UInt8} {after : List UInt8}
    (hz : z.after = y :: after) (hc : c ≠ 8) :
    write [c] (showing z) = showing ⟨c :: z.before, after⟩ := by
  have hput := put_middle z.before.reverse after y hc
  have hshow : showing z = holding (z.before.reverse ++ y :: after) z.before.length := by
    rw [← hz]; rfl
  rw [List.length_reverse] at hput
  rw [hshow]
  change put _ c = _
  rw [hput]
  simp [showing, Zipper.text]

theorem showing_forward {c : UInt8} {after : List UInt8} (hz : z.after = c :: after) (hc : c ≠ 8) :
    write [c] (showing z) = showing z.forward := by
  rw [showing_overwrite hz hc, Zipper.forward, hz]

theorem showing_backward {c : UInt8} {before : List UInt8} (hz : z.before = c :: before) :
    write [8] (showing z) = showing z.backward := by
  have hback := write_back 1 z.text z.before.length
  rw [showing]
  change write (List.replicate 1 8) _ = _
  rw [hback, showing, Zipper.text_backward, Zipper.backward, hz]
  rfl

theorem showing_behind {t : List UInt8} (ht : (8 : UInt8) ∉ t) :
    write t blank = showing (.behind t) := by
  have hwrite := write_behind [] t ht
  rw [blank, showing, Zipper.text_behind, Zipper.length_behind]
  simpa using hwrite

end Row
