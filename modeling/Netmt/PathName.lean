import Mathlib.Data.List.DropRight
import Mathlib.Data.List.Induction
import Netmt.Lib.Strcat

/-!
# Paths of files

`GetAbsPath` of `cmd_main.c`. The path is put together in the caller's buffer of
`nBufLen` bytes: `readlink` writes no NUL, `strncpy` none if the name fills the
buffer, and the last byte is cleared in the end. `none` stands for an access outside
the buffer, which is also where a text without a NUL is read on.
-/
namespace NetmtPathName

open Region

def slash : UInt8 := 47
def backslash : UInt8 := 92

/-- What `/proc/self/exe` points at. -/
structure ExePath where
  path : List UInt8
  nul_free : (0 : UInt8) ∉ path
  rooted : slash ∈ path

variable {nBufLen : Nat}

/-- `readlink` on a buffer: as much of the path as goes in. -/
def readlink (exe : ExePath) (buf : Region nBufLen) : Region nBufLen :=
  buf.put 0 (exe.path.take nBufLen)

/-- `strncpy` of as many bytes as the buffer has. -/
def strncpy (src : List UInt8) (buf : Region nBufLen) : Region nBufLen :=
  buf.put 0 (src.take nBufLen ++ List.replicate (nBufLen - src.length) 0)

/-- `GetModulePathName`; without an `exe` the link cannot be read. -/
def getModulePathName (exe : Option ExePath) (nSizeFullName : Nat) :
    Option (Bool × Region nSizeFullName) :=
  let fullName := Region.zero nSizeFullName
  match exe with
  | none => some (false, fullName)
  | some exe =>
    let fullName := readlink exe fullName
    (fullName.textAt 0).map fun name =>
      match CString.strrchr slash name with
      | some pos => (true, fullName.put pos [0])
      | none => (true, fullName)

/-- `szFile[0] == '/' || szFile[0] == '\\'` -/
def absolute (szFile : List UInt8) : Bool :=
  szFile.head? = some slash || szFile.head? = some backslash

/-- The end of `GetAbsPath`: `stat` tells whether there is such a file. -/
def checkPath (stat : List UInt8 → Bool) (szOutPath : Region nBufLen) :
    Option (Bool × Region nBufLen) :=
  (szOutPath.store ((nBufLen : Int) - 1) [0]).bind fun szOutPath =>
    (szOutPath.textAt 0).map fun path => (stat path, szOutPath)

/-- `GetAbsPath` -/
def getAbsPath (stat : List UInt8 → Bool) (exe : Option ExePath) (szFile : List UInt8)
    (szOutPath : Region nBufLen) : Option (Bool × Region nBufLen) :=
  if absolute szFile then checkPath stat (strncpy szFile szOutPath)
  else
    (getModulePathName exe nBufLen).bind fun r =>
      if r.1 then
        (r.2.textAt 0).bind fun path =>
          if szFile.length + path.length + 1 ≥ nBufLen then some (false, r.2)
          else
            (r.2.strcat 0 [slash]).bind fun szOutPath =>
              (szOutPath.strcat 0 szFile).bind (checkPath stat)
      else some r

/-! ## What is looked for -/

/-- The directory of the executable, without the last slash. -/
def ExePath.directory (exe : ExePath) : List UInt8 :=
  (exe.path.rdropWhile fun b => b ≠ slash).dropLast

/-- The path that a name stands for. -/
def target (exe : Option ExePath) (szFile : List UInt8) : Option (List UInt8) :=
  if absolute szFile then some szFile else exe.map fun exe => exe.directory ++ slash :: szFile

/-- The buffer was not left, and the file is there, with its whole path in the buffer,
just where `TRUE` is returned. -/
def Resolves (stat : List UInt8 → Bool) (exe : Option ExePath) (szFile : List UInt8)
    (r : Option (Bool × Region nBufLen)) : Prop :=
  ∃ found szOutPath, r = some (found, szOutPath) ∧
    (found = true → ∃ path, target exe szFile = some path ∧ Text szOutPath 0 path ∧
      stat path = true) ∧
    (found = false → ∀ path, target exe szFile = some path → path.length < nBufLen →
      stat path = false)

/-- The last byte is not needed: the name or the path of the executable leaves room
for a NUL, or what is left of the name is no file. -/
def Roomy (stat : List UInt8 → Bool) (exe : Option ExePath) (szFile : List UInt8)
    (nBufLen : Nat) : Prop :=
  if absolute szFile then szFile.length < nBufLen ∨ stat (szFile.take (nBufLen - 1)) = false
  else ∀ e, exe = some e → e.path.length < nBufLen

section Steps

variable {buf : Region nBufLen} {stat : List UInt8 → Bool} {exe : Option ExePath}
  {szFile : List UInt8}

theorem bytes_put_all {data : List UInt8} (hlen : data.length = nBufLen) :
    (buf.put 0 data).bytes = data := by
  have hall : slice 0 nBufLen (buf.put 0 data).bytes = data.take nBufLen :=
    slice_put_same buf 0 nBufLen data (by omega) (by omega)
  rw [slice, List.drop_zero, List.take_of_length_le (by rw [length_bytes]),
    List.take_of_length_le (by omega)] at hall
  exact hall

/-- A directory and the name behind it. -/
theorem exePath_split (exe : ExePath) : ∃ name, exe.path = exe.directory ++ slash :: name ∧
    slash ∉ name := by
  obtain ⟨dir, name, hsplit, hname⟩ := CString.exists_last exe.rooted
  refine ⟨name, ?_, hname⟩
  have hdrop : ∀ l : List UInt8, slash ∉ l →
      (dir ++ slash :: l).rdropWhile (fun b => b ≠ slash) = dir ++ [slash] := by
    intro l hl
    induction l using List.reverseRecOn with
    | nil => exact List.rdropWhile_concat_neg _ _ _ (by simp)
    | append_singleton l b ih =>
      rw [List.mem_append, List.mem_singleton, not_or] at hl
      have hcut : dir ++ slash :: (l ++ [b]) = (dir ++ slash :: l) ++ [b] := by simp
      rw [hcut, List.rdropWhile_concat_pos _ _ _ (by simpa using Ne.symm hl.2)]
      exact ih hl.1
  have hdir : exe.directory = dir := by
    rw [ExePath.directory, hsplit, hdrop name hname, List.dropLast_concat]
  rw [hdir]
  exact hsplit

theorem text_readlink {e : ExePath} (h : e.path.length < nBufLen) :
    Text (readlink e (Region.zero nBufLen)) 0 e.path := by
  refine text_of_split [] (List.replicate (nBufLen - e.path.length - 1) 0) e.nul_free ?_
  have hroom : nBufLen - e.path.length = (nBufLen - e.path.length - 1) + 1 := by omega
  have hpatch : patch 0 e.path (List.replicate nBufLen 0) =
      e.path ++ List.replicate (nBufLen - e.path.length) 0 := by
    rw [patch_eq _ _ _ (by simp only [List.length_replicate]; omega), List.take_zero,
      List.nil_append, Nat.zero_add, List.drop_replicate]
  rw [readlink, List.take_of_length_le (by omega)]
  change patch 0 e.path (List.replicate nBufLen 0) = _
  rw [hpatch, hroom, List.replicate_succ]
  rfl

/-- A longer path fills the buffer. -/
theorem readlink_full {e : ExePath} (h : nBufLen ≤ e.path.length) :
    (readlink e (Region.zero nBufLen)).textAt 0 = none := by
  rw [textAt, readlink, List.drop_zero, bytes_put_all (List.length_take_of_le h)]
  exact if_neg fun hmem => e.nul_free (List.mem_of_mem_take hmem)

theorem getModulePathName_fits {e : ExePath} (h : e.path.length < nBufLen) :
    ∃ fullName, getModulePathName (some e) nBufLen = some (true, fullName) ∧
    Text fullName 0 e.directory := by
  have htext := text_readlink h
  obtain ⟨name, hsplit, hname⟩ := exePath_split e
  have hlast : CString.strrchr slash e.path = some e.directory.length := by
    rw [hsplit]
    exact CString.strrchr_last e.directory hname
  have hcut := htext.cut (i := e.directory.length) (by
    rw [hsplit]
    simp)
  have hdir : e.path.take e.directory.length = e.directory := by
    rw [hsplit]
    exact List.take_left
  rw [hdir, Nat.zero_add] at hcut
  refine ⟨_, ?_, hcut⟩
  simp only [getModulePathName, htext.read, Option.map_some, hlast]

theorem getModulePathName_full {e : ExePath} (h : nBufLen ≤ e.path.length) :
    getModulePathName (some e) nBufLen = none := by
  simp only [getModulePathName, readlink_full h, Option.map_none]

/-- The last byte of the buffer is cleared, and the file looked for. -/
theorem checkPath_eq (hpos : 0 < nBufLen) : checkPath stat buf =
    ((buf.put (nBufLen - 1) [0]).textAt 0).map fun path =>
      (stat path, buf.put (nBufLen - 1) [0]) := by
  have hlast : (nBufLen : Int) - 1 = ((nBufLen - 1 : Nat) : Int) := by omega
  have hstore := store_eq buf (nBufLen - 1) [0] (by simp only [List.length_singleton]; omega)
  rw [checkPath, hlast, hstore]
  rfl

theorem checkPath_text (stat : List UInt8 → Bool) {path : List UInt8} (h : Text buf 0 path) :
    ∃ szOutPath, checkPath stat buf = some (stat path, szOutPath) ∧ Text szOutPath 0 path := by
  have hfits := h.fits
  rw [Nat.zero_add] at hfits
  have htext : Text (buf.put (nBufLen - 1) [0]) 0 path := by
    rcases Nat.lt_or_eq_of_le (Nat.le_sub_one_of_lt hfits) with hlt | heq
    · exact h.put_behind (by omega) (by simp only [List.length_singleton]; omega)
    · have hcut := h.cut (le_refl path.length)
      rw [List.take_length, Nat.zero_add, heq] at hcut
      exact hcut
  exact ⟨_, by rw [checkPath_eq (by omega), htext.read]; rfl, htext⟩

theorem text_strncpy (buf : Region nBufLen) (hfile : (0 : UInt8) ∉ szFile)
    (h : szFile.length < nBufLen) :
    Text (strncpy szFile buf) 0 szFile := by
  refine text_of_split [] (List.replicate (nBufLen - szFile.length - 1) 0) hfile ?_
  have hroom : nBufLen - szFile.length = (nBufLen - szFile.length - 1) + 1 := by omega
  rw [strncpy, bytes_put_all (by
      rw [List.length_append, List.length_take, List.length_replicate]
      omega), List.take_of_length_le (by omega), hroom, List.replicate_succ]
  rfl

/-- A name that fills the buffer is cut by the NUL in its end. -/
theorem text_strncpy_full (buf : Region nBufLen) (hpos : 0 < nBufLen) (hfile : (0 : UInt8) ∉ szFile)
    (h : nBufLen ≤ szFile.length) :
    Text ((strncpy szFile buf).put (nBufLen - 1) [0]) 0 (szFile.take (nBufLen - 1)) := by
  have hfree : (0 : UInt8) ∉ szFile.take (nBufLen - 1) :=
    fun hmem => hfile (List.mem_of_mem_take hmem)
  have hall : (strncpy szFile buf).bytes = szFile.take nBufLen := by
    rw [strncpy, Nat.sub_eq_zero_of_le h, List.replicate_zero, List.append_nil]
    exact bytes_put_all (List.length_take_of_le h)
  refine text_of_split [] [] hfree ?_
  change patch (nBufLen - 1) [0] (strncpy szFile buf).bytes = _
  rw [patch_eq _ _ _ (by simp only [length_bytes, List.length_singleton]; omega), hall,
    List.take_take, List.drop_of_length_le (by
      rw [List.length_take_of_le h, List.length_singleton]
      omega), Nat.min_eq_left (by omega)]
  simp

end Steps

/-! ## Both branches -/

section Branches

variable {stat : List UInt8 → Bool} {exe : Option ExePath} {szFile : List UInt8}

theorem resolves_absolute (hpos : 0 < nBufLen) (hfile : (0 : UInt8) ∉ szFile)
    (habs : absolute szFile = true) (szOutPath : Region nBufLen) :
    Resolves stat exe szFile (getAbsPath stat exe szFile szOutPath) ↔
      szFile.length < nBufLen ∨ stat (szFile.take (nBufLen - 1)) = false := by
  have htarget : target exe szFile = some szFile := if_pos habs
  rw [getAbsPath, if_pos habs]
  rcases Nat.lt_or_ge szFile.length nBufLen with hfits | hfull
  · obtain ⟨out, hrun, htext⟩ := checkPath_text stat (text_strncpy szOutPath hfile hfits)
    refine iff_of_true ⟨stat szFile, out, hrun, fun h => ⟨szFile, htarget, htext, h⟩,
      fun h path hpath _ => ?_⟩
      (.inl hfits)
    rw [← Option.some.inj (htarget.symm.trans hpath)]
    exact h
  · have htext := text_strncpy_full szOutPath hpos hfile hfull
    rw [checkPath_eq hpos, htext.read, Option.map_some]
    constructor
    · rintro ⟨found, out, hrun, htrue, -⟩
      obtain ⟨rfl, rfl⟩ := Prod.mk.inj (Option.some.inj hrun)
      refine .inr (Bool.eq_false_of_not_eq_true fun hstat => ?_)
      obtain ⟨path, hpath, hout, -⟩ := htrue hstat
      rw [← Option.some.inj (htarget.symm.trans hpath)] at hout
      have hlong := hout.fits
      omega
    · rintro (hfits | hstat)
      · omega
      · refine ⟨_, _, rfl, fun h => ?_, fun _ path hpath hlen => ?_⟩
        · rw [hstat] at h
          cases h
        · rw [← Option.some.inj (htarget.symm.trans hpath)] at hlen
          omega

theorem resolves_relative (hfile : (0 : UInt8) ∉ szFile) (habs : absolute szFile = false)
    (szOutPath : Region nBufLen) : Resolves stat exe szFile (getAbsPath stat exe szFile szOutPath) ↔
      ∀ e, exe = some e → e.path.length < nBufLen := by
  have htarget : target exe szFile = exe.map fun exe => exe.directory ++ slash :: szFile :=
    if_neg (by simp [habs])
  rw [getAbsPath, if_neg (by simp [habs])]
  cases exe with
  | none =>
    refine iff_of_true ⟨false, _, rfl, fun h => (nomatch h), fun _ path hpath => ?_⟩
      (fun e h => (nomatch h))
    rw [htarget] at hpath
    cases hpath
  | some e =>
    rcases Nat.lt_or_ge e.path.length nBufLen with hfits | hfull
    · refine iff_of_true ?_ fun e' he => by
        rw [← Option.some.inj he]
        exact hfits
      have hpath : target (some e) szFile = some (e.directory ++ slash :: szFile) := htarget
      obtain ⟨fullName, hname, htext⟩ := getModulePathName_fits hfits
      rw [hname, Option.bind_some, if_pos rfl, htext.read, Option.bind_some]
      by_cases hlong : szFile.length + e.directory.length + 1 ≥ nBufLen
      · rw [if_pos hlong]
        refine ⟨false, fullName, rfl, fun h => (nomatch h), fun _ path hp hlen => ?_⟩
        rw [← Option.some.inj (hpath.symm.trans hp), List.length_append, List.length_cons] at hlen
        omega
      · rw [if_neg hlong]
        have hslash : (0 : UInt8) ∉ [slash] := by decide
        obtain ⟨hcat, htext₁⟩ := htext.strcat hslash (by
          rw [List.length_singleton]
          omega)
        obtain ⟨hcat', htext₂⟩ := htext₁.strcat hfile (by
          rw [List.length_append, List.length_singleton]
          omega)
        have hjoin : e.directory ++ [slash] ++ szFile = e.directory ++ slash :: szFile := by simp
        rw [hjoin] at htext₂
        obtain ⟨out, hrun, hout⟩ := checkPath_text stat htext₂
        rw [hcat, Option.bind_some, hcat', Option.bind_some, hrun]
        refine ⟨_, out, rfl, fun h => ⟨_, hpath, hout, h⟩, fun h path hp _ => ?_⟩
        rw [← Option.some.inj (hpath.symm.trans hp)]
        exact h
    · refine iff_of_false ?_ fun hall => Nat.not_lt.mpr hfull (hall e rfl)
      rw [getModulePathName_full hfull, Option.bind_none]
      rintro ⟨found, out, hrun, -⟩
      cases hrun

end Branches

/-- The path is resolved exactly, and without a byte outside the buffer, just where
there is room. -/
theorem getAbsPath_resolves_iff (stat : List UInt8 → Bool) (exe : Option ExePath)
    (szFile : List UInt8) (nBufLen : Nat) (szOutPath : Region nBufLen) (hpos : 0 < nBufLen)
    (hfile : (0 : UInt8) ∉ szFile) :
    Resolves stat exe szFile (getAbsPath stat exe szFile szOutPath) ↔
    Roomy stat exe szFile nBufLen := by
  cases habs : absolute szFile with
  | true => rw [resolves_absolute hpos hfile habs, Roomy, if_pos habs]
  | false => rw [resolves_relative hfile habs, Roomy, if_neg (by simp [habs])]

/-- `/b/x` -/
def shortExe : ExePath := ⟨[47, 98, 47, 120], by decide, by decide⟩

/-- `a`, beside `/b/x`, in 8 bytes. -/
theorem getAbsPath_beside :
    Resolves (fun path => path = [47, 98, 47, 97]) (some shortExe) [97]
      (getAbsPath (fun path => path = [47, 98, 47, 97]) (some shortExe) [97] (Region.zero 8)) ↔
      Roomy (fun path => path = [47, 98, 47, 97]) (some shortExe) [97] 8 :=
  getAbsPath_resolves_iff (fun path => path = [47, 98, 47, 97])
    (some shortExe) [97] 8 (Region.zero 8)
    (by decide) (by decide)

/-- In 4 bytes `/etc` becomes `/et`; where that is a file, it is the answer. A path of
an executable of 4 bytes is read on behind the buffer. -/
theorem getAbsPath_truncates :
    (getAbsPath (fun path => path = [47, 101, 116]) none [47, 101, 116, 99] (Region.zero 4)).map
      (fun r => (r.1, r.2.bytes)) = some (true, [47, 101, 116, 0]) ∧
    getAbsPath (fun _ => true) (some shortExe) [97] (Region.zero 4) = none ∧
    ¬ Resolves (fun path => path = [47, 101, 116]) none [47, 101, 116, 99]
      (getAbsPath (fun path => path = [47, 101, 116]) none [47, 101, 116, 99] (Region.zero 4)) ∧
    ¬ Resolves (fun _ => true) (some shortExe) [97]
      (getAbsPath (fun _ => true) (some shortExe) [97] (Region.zero 4)) := by
  have hshort : getAbsPath (fun _ => true) (some shortExe) [97] (Region.zero 4) = none := by rfl
  refine ⟨by decide, hshort, ?_, ?_⟩
  · rw [resolves_absolute (by decide) (by decide) (by decide)]
    decide
  · rw [hshort]
    rintro ⟨found, out, hrun, -⟩
    cases hrun

end NetmtPathName
