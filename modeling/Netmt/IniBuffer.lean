import Netmt.IniLookup
import Netmt.Lib.Cells

/-!
# The configuration parser's strings in memory

`RightTrim`, both `Format` functions and `SeperateByFirstDelimiter` of
`inistropt.cpp` on the bytes of their buffers. The loops that go back have no bound
of their own: in front of a buffer there is nothing to read.
-/
namespace NetmtIniBuffer

open NetmtIniStr NetmtIniLookup Cells

/-! ## The functions -/

/-- `while( IS_DELIMITER(*p) ) p--;` from `p = string + k - 1`, and `p + 1` then. -/
def trimBack (string : List UInt8) : Nat → Option Nat
  | 0 => none
  | k + 1 => string[k]?.bind fun c => if isDelimiter c then trimBack string k else some (k + 1)

/-- `RightTrim` -/
def rightTrimIn (string : List UInt8) : Option (List UInt8) :=
  (strlen string).bind fun n => (trimBack string n).bind fun k => writeAt k 0 string

/-- `while( IS_DELIMITER(*p) ) p++;` -/
def skipFrom (string : List UInt8) : Nat → Nat → Option Nat
  | 0, _ => none
  | fuel + 1, p => string[p]?.bind fun c =>
    if isDelimiter c then skipFrom string fuel (p + 1) else some p

section Loop

variable {σ : Type} (get : σ → Nat → Option UInt8) (put : Nat → UInt8 → σ → Option σ)

/-- The loop of both `Format` functions: it reads at `p` and writes at `q`, which is
returned. -/
def formatLoop : Nat → Bool → Nat → Nat → σ → Option (Nat × σ)
  | 0, _, _, _, _ => none
  | fuel + 1, nFlag, p, q, s =>
    (get s p).bind fun c =>
      if c = 0 then some (q, s)
      else if isDelimiter c && nFlag then formatLoop fuel nFlag (p + 1) q s
      else (put q c s).bind fun s => formatLoop fuel (isDelimiter c) (p + 1) (q + 1) s

end Loop

/-- `Format(char *)`: what is read is what is written to. -/
def formatIn (string : List UInt8) : Option (List UInt8) :=
  (rightTrimIn string).bind fun string => (skipFrom string string.length 0).bind fun p =>
    (formatLoop (fun mem p => mem[p]?) writeAt string.length false p 0 string).bind fun r =>
      writeAt r.1 0 r.2

/-- `Format(const char *, char *)` -/
def formatInto (string result : List UInt8) : Option (List UInt8) :=
  string[0]?.bind fun c =>
    if c = 0 then some result
    else
      (skipFrom string string.length 0).bind fun p =>
        (formatLoop (fun _ p => string[p]?) writeAt string.length false p 0 result).bind fun r =>
          (trimBack r.2 r.1).bind fun k => writeAt k 0 r.2

/-- `SeperateByFirstDelimiter`: the return value, `first` and `second`. -/
def separateInto (src first second : List UInt8) (delimiter : UInt8) :
    Option (Int × List UInt8 × List UInt8) :=
  src[0]?.bind fun c =>
    if c = 0 ∨ delimiter = 0 then some (0, first, second)
    else
      (writeAt 0 0 second).bind fun second => (writeAt 0 0 first).bind fun first =>
        let text := CString.ofField src
        if delimiter ∈ text then
          let n := (text.takeWhile (· ≠ delimiter)).length
          (copyTo (text.take n) first).bind fun first => (writeAt n 0 first).bind fun first =>
            (copyTo (text.drop (n + 1) ++ [0]) second).bind fun second =>
              (formatIn first).bind fun first => (formatIn second).map fun second =>
                (1, first, second)
        else
          (copyTo (text ++ [0]) first).bind fun first => (formatIn first).bind fun first =>
            (writeAt 0 0 second).map fun second => (1, first, second)

/-! ## The loops -/

/-- The scan back ends behind the last valid character, if there is one. -/
theorem trimBack_eq (s rest : List UInt8) :
    (Blank s → trimBack (s ++ rest) s.length = none) ∧
      (¬ Blank s → trimBack (s ++ rest) s.length = some (rightTrim s).length) := by
  induction s using List.reverseRecOn generalizing rest with
  | nil => exact ⟨fun _ => rfl, fun h => absurd blank_nil h⟩
  | append_singleton s c ih =>
    have hread : (s ++ [c] ++ rest)[s.length]? = some c := by
      rw [List.append_assoc]
      exact getElem?_behind s c rest
    have hstep : trimBack (s ++ [c] ++ rest) (s ++ [c]).length =
        if isDelimiter c then trimBack (s ++ [c] ++ rest) s.length else some (s.length + 1) := by
      rw [List.length_append, List.length_singleton, trimBack, hread, Option.bind_some]
    rw [hstep]
    cases hc : isDelimiter c with
    | false =>
      refine ⟨fun hblank => ?_, fun _ => ?_⟩
      · exact absurd List.mem_concat_self (hblank.not_mem hc)
      · rw [rightTrim_concat hc, List.length_append, List.length_singleton]
        rfl
    | true =>
      have hpad := blank_singleton hc
      rw [if_pos rfl, List.append_assoc, rightTrim_pad hpad]
      obtain ⟨hnone, hsome⟩ := ih ([c] ++ rest)
      refine ⟨fun hblank => hnone fun d hd => hblank d (List.mem_append_left _ hd), fun hnot =>
        hsome ?_⟩
      exact fun hblank => hnot (hblank.append hpad)

theorem skipFrom_eq (pre rest : List UInt8) {s : List UInt8} (hs : (0 : UInt8) ∉ s) (fuel : Nat)
    (hfuel : s.length < fuel) : skipFrom (pre ++ (s ++ 0 :: rest)) fuel pre.length =
      some (pre.length + (s.takeWhile isDelimiter).length) := by
  induction s generalizing pre fuel with
  | nil =>
    obtain ⟨fuel, rfl⟩ := Nat.exists_eq_add_one_of_ne_zero (Nat.ne_of_gt hfuel)
    rw [List.nil_append, skipFrom, getElem?_behind, Option.bind_some]
    rfl
  | cons c s ih =>
    obtain ⟨fuel, rfl⟩ := Nat.exists_eq_add_one_of_ne_zero (Nat.ne_of_gt (Nat.lt_of_le_of_lt
      (Nat.zero_le _) hfuel))
    rw [List.cons_append, skipFrom, getElem?_behind, Option.bind_some]
    cases hc : isDelimiter c with
    | false =>
      rw [List.takeWhile_cons_of_neg (by simp [hc])]
      rfl
    | true =>
      have hnext := ih (pre ++ [c]) (fun hmem => hs (List.mem_cons_of_mem c hmem)) fuel
        (Nat.lt_of_succ_lt_succ hfuel)
      rw [List.append_assoc, List.singleton_append, List.length_append,
        List.length_singleton] at hnext
      rw [if_pos rfl, hnext, List.takeWhile_cons_of_pos hc, List.length_cons]
      congr 1
      omega

theorem squeeze_keep {c : UInt8} {nFlag : Bool} (hkeep : (isDelimiter c && nFlag) = false)
    (t : List UInt8) :
    squeeze nFlag (c :: t) = c :: squeeze (isDelimiter c) t := by
  cases hc : isDelimiter c with
  | false => rw [squeeze_cons hc]
  | true =>
    rw [hc, Bool.true_and] at hkeep
    rw [squeeze, if_pos hc, if_neg (by simp [hkeep])]

section Run

variable {σ : Type} {get : σ → Nat → Option UInt8} {put : Nat → UInt8 → σ → Option σ}

/-- In the state `View nFlag p q t w s` the text `t` lies at `p`, and `w` in front of
`q`; reading, skipping and writing keep it so. -/
structure Cursor (get : σ → Nat → Option UInt8) (put : Nat → UInt8 → σ → Option σ)
    (View : Bool → Nat → Nat → List UInt8 → List UInt8 → σ → Prop) : Prop where
  get : ∀ {nFlag p q t w s}, View nFlag p q t w s → get s p = some (t.headD 0)
  skip : ∀ {p q c t w s}, isDelimiter c = true → View true p q (c :: t) w s →
    View true (p + 1) q t w s
  put : ∀ {nFlag p q c t w s}, (isDelimiter c && nFlag) = false → View nFlag p q (c :: t) w s →
    ∃ s', put q c s = some s' ∧ View (isDelimiter c) (p + 1) (q + 1) t (w ++ [c]) s'

/-- The loop writes the squeezed text behind what is there. -/
theorem formatLoop_run {View : Bool → Nat → Nat → List UInt8 → List UInt8 → σ → Prop}
    (C : Cursor get put View) {t w : List UInt8} (ht : (0 : UInt8) ∉ t) {nFlag : Bool} {p q : Nat}
    {s : σ} (h : View nFlag p q t w s) (fuel : Nat) (hfuel : t.length < fuel) :
    ∃ nFlag' p' q' s', formatLoop get put fuel nFlag p q s = some (q', s') ∧
      View nFlag' p' q' [] (w ++ squeeze nFlag t) s' := by
  induction fuel generalizing t w nFlag p q s with
  | zero => exact absurd hfuel (Nat.not_lt_zero _)
  | succ fuel ih =>
    have hget := C.get h
    cases t with
    | nil =>
      refine ⟨nFlag, p, q, s, ?_, by simpa [squeeze] using h⟩
      rw [formatLoop, hget, Option.bind_some]
      exact if_pos rfl
    | cons c t =>
      rw [List.mem_cons, not_or] at ht
      have hfuel' : t.length < fuel := Nat.lt_of_succ_lt_succ hfuel
      rw [formatLoop, hget, Option.bind_some, List.headD_cons, if_neg (Ne.symm ht.1)]
      cases hskip : isDelimiter c && nFlag with
      | true =>
        obtain ⟨hc, rfl⟩ := Bool.and_eq_true_iff.mp hskip
        obtain ⟨nFlag', p', q', s', hrun, hview⟩ := ih ht.2 (C.skip hc h) hfuel'
        refine ⟨nFlag', p', q', s', by rw [if_pos rfl, hrun], ?_⟩
        rwa [squeeze, if_pos hc, if_pos rfl]
      | false =>
        obtain ⟨s₁, hput, h₁⟩ := C.put hskip h
        obtain ⟨nFlag', p', q', s', hrun, hview⟩ := ih ht.2 h₁ hfuel'
        refine ⟨nFlag', p', q', s', ?_, ?_⟩
        · rw [if_neg Bool.false_ne_true, hput, Option.bind_some, hrun]
        · rw [squeeze_keep hskip]
          simpa using hview

end Run

/-- One buffer: the text is on its way to the front. -/
def InPlace (_ : Bool) (p q : Nat) (t w mem : List UInt8) : Prop :=
  w.length = q ∧ ∃ gap rest, mem = w ++ (gap ++ (t ++ 0 :: rest)) ∧ w.length + gap.length = p

theorem cursor_inPlace : Cursor (fun mem p => mem[p]?) writeAt InPlace where
  get := by
    rintro nFlag p q t w mem ⟨-, gap, rest, rfl, rfl⟩
    rw [← List.append_assoc, ← List.length_append]
    cases t with
    | nil => exact getElem?_behind (w ++ gap) 0 rest
    | cons c t => exact getElem?_behind (w ++ gap) c (t ++ 0 :: rest)
  skip := by
    rintro p q c t w mem - ⟨hq, gap, rest, rfl, rfl⟩
    refine ⟨hq, gap ++ [c], rest, by simp, ?_⟩
    rw [List.length_append, List.length_singleton, Nat.add_assoc]
  put := by
    rintro nFlag p q c t w mem - ⟨rfl, gap, rest, rfl, rfl⟩
    cases gap with
    | nil =>
      refine ⟨w ++ c :: (t ++ 0 :: rest),
        writeAt_append w c c (t ++ 0 :: rest), by simp, [], rest, ?_, by simp⟩
      simp
    | cons d gap =>
      refine ⟨w ++ c :: (gap ++ (c :: t ++ 0 :: rest)),
        writeAt_append w c d _, by simp, gap ++ [c], rest, ?_, ?_⟩
      · simp
      · simp only [List.length_append, List.length_cons, List.length_nil]
        omega

/-- Two buffers: `string` is read only, and the other, of `n` bytes, has room for what
is to come. -/
def Across (string : List UInt8) (n : Nat) (nFlag : Bool) (p q : Nat)
    (t w result : List UInt8) : Prop :=
  w.length = q ∧ (∃ pre rest, string = pre ++ (t ++ 0 :: rest) ∧ pre.length = p) ∧
    ∃ room, result = w ++ room ∧ result.length = n ∧ (squeeze nFlag t).length ≤ room.length

theorem cursor_across (string : List UInt8) (n : Nat) :
    Cursor (fun _ p => string[p]?) writeAt (Across string n) where
  get := by
    rintro nFlag p q t w result ⟨-, ⟨pre, rest, rfl, rfl⟩, -⟩
    cases t with
    | nil => exact getElem?_behind pre 0 rest
    | cons c t => exact getElem?_behind pre c (t ++ 0 :: rest)
  skip := by
    rintro p q c t w result hc ⟨hq, ⟨pre, rest, rfl, rfl⟩, room, hresult, hlen, hroom⟩
    refine ⟨hq, ⟨pre ++ [c], rest, by simp, by simp⟩, room, hresult, hlen, ?_⟩
    rwa [squeeze, if_pos hc, if_pos rfl] at hroom
  put := by
    rintro nFlag p q c t w result hkeep ⟨rfl, ⟨pre, rest, rfl, rfl⟩, room, rfl, hlen, hroom⟩
    rw [squeeze_keep hkeep, List.length_cons] at hroom
    cases room with
    | nil => exact absurd hroom (Nat.not_succ_le_zero _)
    | cons d room =>
      refine ⟨w ++ c :: room,
        writeAt_append w c d room, by simp, ⟨pre ++ [c], rest, by simp, by simp⟩, room,
        by simp, ?_, Nat.le_of_succ_le_succ hroom⟩
      rw [← hlen]
      simp

/-! ## What the functions leave -/

section Functions

variable {s : List UInt8}

/-- A NUL behind a part of the buffer. -/
theorem writeAt_end (w : List UInt8) {tail : List UInt8} (h : tail ≠ []) :
    ∃ rest, writeAt w.length 0 (w ++ tail) = some (w ++ 0 :: rest) := by
  obtain ⟨d, rest, rfl⟩ := List.exists_cons_of_ne_nil h
  exact ⟨rest, writeAt_append w 0 d rest⟩

/-- A part in front is cut off. -/
theorem writeAt_trim (w tail : List UInt8) (h : (rightTrim w).length < (w ++ tail).length) :
    ∃ rest, writeAt (rightTrim w).length 0 (w ++ tail) = some (rightTrim w ++ 0 :: rest) := by
  obtain ⟨post, hsplit⟩ := List.rdropWhile_prefix isDelimiter (l := w)
  have hw : w ++ tail = rightTrim w ++ (post ++ tail) := by
    rw [← List.append_assoc, rightTrim, hsplit]
  have hne : post ++ tail ≠ [] := by
    intro hnil
    rw [hw, hnil, List.append_nil] at h
    exact absurd h (Nat.lt_irrefl _)
  rw [hw]
  exact writeAt_end _ hne

theorem rightTrim_nul_free (hs : (0 : UInt8) ∉ s) : (0 : UInt8) ∉ rightTrim s :=
  fun hmem => hs ((List.rdropWhile_prefix isDelimiter s).subset hmem)

theorem format_nul_free (hs : (0 : UInt8) ∉ s) : (0 : UInt8) ∉ format s :=
  fun hmem => hs (mem_format hmem)

theorem rightTrimIn_blank (hs : (0 : UInt8) ∉ s) (h : Blank s) (rest : List UInt8) :
    rightTrimIn (s ++ 0 :: rest) = none := by
  rw [rightTrimIn, strlen_append hs, Option.bind_some, (trimBack_eq s (0 :: rest)).1 h,
    Option.bind_none]

theorem rightTrimIn_eq (hs : (0 : UInt8) ∉ s) (h : ¬ Blank s) (rest : List UInt8) :
    ∃ rest', rightTrimIn (s ++ 0 :: rest) = some (rightTrim s ++ 0 :: rest') := by
  have hprefix := (List.rdropWhile_prefix isDelimiter s).length_le
  obtain ⟨rest', hwrite⟩ := writeAt_trim s (0 :: rest) (by
    rw [List.length_append, List.length_cons, rightTrim]
    omega)
  refine ⟨rest', ?_⟩
  rw [rightTrimIn, strlen_append hs, Option.bind_some, (trimBack_eq s (0 :: rest)).2 h,
    Option.bind_some, hwrite]

theorem formatIn_blank (hs : (0 : UInt8) ∉ s) (h : Blank s) (rest : List UInt8) :
    formatIn (s ++ 0 :: rest) = none := by
  rw [formatIn, rightTrimIn_blank hs h, Option.bind_none]

/-- The skip and the loop, on a text and what is behind its NUL. -/
theorem format_front {t : List UInt8} (ht : (0 : UInt8) ∉ t) (rest : List UInt8) :
    ∃ p rest', skipFrom (t ++ 0 :: rest) (t ++ 0 :: rest).length 0 = some p ∧
      ((formatLoop (fun mem p => mem[p]?) writeAt (t ++ 0 :: rest).length false p 0
        (t ++ 0 :: rest)).bind
        fun r => writeAt r.1 0 r.2) = some (squeeze false (leftTrim t) ++ 0 :: rest') := by
  have hlen : t.length < (t ++ 0 :: rest).length := by
    rw [List.length_append, List.length_cons]
    omega
  have hskip := skipFrom_eq [] rest ht _ hlen
  have hsplit : t.takeWhile isDelimiter ++ leftTrim t = t := List.takeWhile_append_dropWhile
  have hfree : (0 : UInt8) ∉ leftTrim t := fun hmem => ht ((List.dropWhile_suffix _).subset hmem)
  have hview : InPlace false (t.takeWhile isDelimiter).length 0 (leftTrim t) []
      (t ++ 0 :: rest) := by
    refine ⟨rfl, t.takeWhile isDelimiter, rest, ?_, by simp⟩
    rw [List.nil_append, ← List.append_assoc, hsplit]
  obtain ⟨-, -, q, mem, hrun, hq, gap, rest₁, rfl, -⟩ := formatLoop_run cursor_inPlace hfree hview
    (t ++ 0 :: rest).length (Nat.lt_of_le_of_lt (List.dropWhile_suffix _).length_le hlen)
  obtain ⟨rest', hwrite⟩ := writeAt_end ([] ++ squeeze false (leftTrim t))
    (List.append_ne_nil_of_right_ne_nil gap (List.cons_ne_nil 0 rest₁))
  rw [hq, List.nil_append] at hwrite
  refine ⟨_, rest', by simpa using hskip, ?_⟩
  rw [hrun, Option.bind_some]
  exact hwrite

theorem formatIn_eq (hs : (0 : UInt8) ∉ s) (h : ¬ Blank s) (rest : List UInt8) :
    ∃ rest', formatIn (s ++ 0 :: rest) = some (format s ++ 0 :: rest') := by
  obtain ⟨rest₁, htrim⟩ := rightTrimIn_eq hs h rest
  obtain ⟨p, rest', hskip, hloop⟩ := format_front (rightTrim_nul_free hs) rest₁
  refine ⟨rest', ?_⟩
  rw [formatIn, htrim, Option.bind_some, hskip, Option.bind_some]
  exact hloop

/-- At most one delimiter is written that is taken back. -/
theorem length_squeeze_blank {post : List UInt8} (h : Blank post) (nFlag : Bool) :
    (squeeze nFlag post).length ≤ 1 := by
  have htrue : ∀ t : List UInt8, Blank t → squeeze true t = [] := by
    intro t ht
    rw [squeeze_leftTrim, leftTrim_blank ht]
    rfl
  cases post with
  | nil => exact Nat.zero_le 1
  | cons c t =>
    have hc := h c List.mem_cons_self
    have ht : Blank t := fun d hd => h d (List.mem_cons_of_mem c hd)
    rw [squeeze, if_pos hc, htrue t ht]
    split <;> simp

theorem length_squeeze_le (s : List UInt8) :
    (squeeze false (leftTrim s)).length ≤ (format s).length + 1 := by
  obtain ⟨pre, core, post, rfl, hpre, hcore, hpost⟩ := exists_trimmed s
  rw [format_pad hpre hcore hpost, List.append_assoc, leftTrim_pad hpre]
  by_cases hnil : core = []
  · rw [hnil, List.nil_append, leftTrim_blank hpost]
    exact Nat.zero_le _
  · obtain ⟨⟨c, t, rfl, hc⟩, -⟩ := hcore.ends hnil
    obtain ⟨nFlag, hsqueeze⟩ := squeeze_append false (c :: t) post
    rw [List.cons_append, leftTrim_cons hc, ← List.cons_append, hsqueeze, List.length_append]
    have hone := length_squeeze_blank hpost nFlag
    omega

/-- The second `Format` for a text that is not empty, but for the way back. -/
theorem formatInto_loop (hs : (0 : UInt8) ∉ s) (hne : s ≠ []) {result : List UInt8}
    (hroom : (format s).length < result.length) : ∃ room,
      formatInto (s ++ [0]) result =
        (trimBack (squeeze false (leftTrim s) ++ room) (squeeze false (leftTrim s)).length).bind
          (fun k => writeAt k 0 (squeeze false (leftTrim s) ++ room)) ∧
      (squeeze false (leftTrim s) ++ room).length = result.length := by
  have hlen : s.length < (s ++ [0]).length := by simp
  have hskip := skipFrom_eq [] [] hs _ hlen
  have hsplit : s.takeWhile isDelimiter ++ leftTrim s = s := List.takeWhile_append_dropWhile
  have hfree : (0 : UInt8) ∉ leftTrim s := fun hmem => hs ((List.dropWhile_suffix _).subset hmem)
  have hfits : (squeeze false (leftTrim s)).length ≤ result.length :=
    (length_squeeze_le s).trans hroom
  have hview : Across (s ++ [0]) result.length false (s.takeWhile isDelimiter).length 0
      (leftTrim s) [] result := by
    refine ⟨rfl, ⟨s.takeWhile isDelimiter, [], ?_, rfl⟩, result, rfl, rfl, hfits⟩
    rw [← List.append_assoc, hsplit]
  obtain ⟨-, -, q, mem, hrun, hq, -, room, rfl, hsame, -⟩ :=
    formatLoop_run (cursor_across (s ++ [0]) result.length)
    hfree hview (s ++ [0]).length (Nat.lt_of_le_of_lt (List.dropWhile_suffix _).length_le hlen)
  rw [List.nil_append] at hrun hq hsame
  refine ⟨room, ?_, hsame⟩
  obtain ⟨c, t, rfl⟩ := List.exists_cons_of_ne_nil hne
  have hc : c ≠ 0 := fun h => hs (h ▸ List.mem_cons_self)
  rw [List.nil_append, List.length_nil, Nat.zero_add] at hskip
  have hfirst : (c :: t ++ [0])[0]? = some c := rfl
  rw [formatInto, hfirst, Option.bind_some, if_neg hc, hskip, Option.bind_some, hrun,
    Option.bind_some, ← hq]

/-- What is written is blank only where the text was. -/
theorem blank_squeeze (h : Blank (squeeze false (leftTrim s))) : Blank s := by
  have hnil : formatTo s = [] := rightTrim_blank h
  rw [formatTo_eq] at hnil
  exact format_eq_nil.mp hnil

theorem formatInto_blank (hs : (0 : UInt8) ∉ s) (hne : s ≠ []) (h : Blank s) {result : List UInt8}
    (hroom : 0 < result.length) : formatInto (s ++ [0]) result = none := by
  have hfits : (format s).length < result.length := by
    rw [format_eq_nil.mpr h]
    exact hroom
  obtain ⟨room, hrun, -⟩ := formatInto_loop hs hne hfits
  have hblank : Blank (squeeze false (leftTrim s)) := by
    rw [leftTrim_blank h]
    exact blank_nil
  rw [hrun, (trimBack_eq _ room).1 hblank, Option.bind_none]

theorem formatInto_eq (hs : (0 : UInt8) ∉ s) (h : ¬ Blank s) {result : List UInt8}
    (hroom : (format s).length < result.length) :
    ∃ rest, formatInto (s ++ [0]) result = some (format s ++ 0 :: rest) := by
  have hne : s ≠ [] := by
    rintro rfl
    exact h blank_nil
  obtain ⟨room, hrun, hlen⟩ := formatInto_loop hs hne hroom
  have htrim : rightTrim (squeeze false (leftTrim s)) = format s := formatTo_eq s
  obtain ⟨rest, hwrite⟩ := writeAt_trim (squeeze false (leftTrim s)) room (by
    rw [htrim, hlen]
    exact hroom)
  rw [htrim] at hwrite
  refine ⟨rest, ?_⟩
  rw [hrun, (trimBack_eq _ room).2 fun hblank => h (blank_squeeze hblank),
    Option.bind_some, htrim, hwrite]

end Functions

/-! ## One result -/

/-- The call keeps to its buffers and leaves the text `t`. -/
def Leaves (r : Option (List UInt8)) (t : List UInt8) : Prop :=
  ∃ mem, r = some mem ∧ CString.ofField mem = t

theorem leaves_cut {r : Option (List UInt8)} {t : List UInt8} (ht : (0 : UInt8) ∉ t)
    (h : ∃ rest, r = some (t ++ 0 :: rest)) : Leaves r t := by
  obtain ⟨rest, hr⟩ := h
  exact ⟨_, hr, ofField_cut ht rest⟩

theorem format_format (s : List UInt8) : format (format s) = format s := by
  have hpad := (formatted_format s).format_pad blank_nil blank_nil
  simpa using hpad

theorem not_blank_format {s : List UInt8} (h : ¬ Blank s) : ¬ Blank (format s) := by
  intro hblank
  have hnil := format_eq_nil.mpr hblank
  rw [format_format] at hnil
  exact h (format_eq_nil.mp hnil)

/-- Both functions leave the same text, and leave it as it is. -/
theorem formats_agree (s : CString) (result result' : List UInt8)
    (hvalid : ∃ c ∈ s.bytes, isDelimiter c = false)
    (hroom : (normalise s.bytes).length < result.length)
    (hroom' : (normalise s.bytes).length < result'.length) :
    Leaves (formatIn (s.bytes ++ [0])) (normalise s.bytes) ∧
      Leaves (formatInto (s.bytes ++ [0]) result) (normalise s.bytes) ∧
      Leaves (formatIn (normalise s.bytes ++ [0])) (normalise s.bytes) ∧
      Leaves (formatInto (normalise s.bytes ++ [0]) result') (normalise s.bytes) := by
  obtain ⟨c, hmem, hc⟩ := hvalid
  have hnot : ¬ Blank s.bytes := fun hblank => hblank.not_mem hc hmem
  have hnot' := not_blank_format hnot
  have hfree := format_nul_free s.nul_free
  rw [normalise_eq] at hroom hroom' ⊢
  refine ⟨leaves_cut hfree (formatIn_eq s.nul_free hnot []),
    leaves_cut hfree (formatInto_eq s.nul_free hnot hroom),
    leaves_cut hfree ?_, leaves_cut hfree ?_⟩
  · obtain ⟨rest, hrun⟩ := formatIn_eq hfree hnot' []
    rw [format_format] at hrun
    exact ⟨rest, hrun⟩
  · have hroom₁ : (format (format s.bytes)).length < result'.length := by
      rw [format_format]
      exact hroom'
    obtain ⟨rest, hrun⟩ := formatInto_eq hfree hnot' hroom₁
    rw [format_format] at hrun
    exact ⟨rest, hrun⟩

/-- `" a  b "`, into four bytes: `"a b"`. -/
theorem formats_agree_padded :
    Leaves (formatIn ([32, 97, 32, 32, 98, 32] ++ [0])) (normalise [32, 97, 32, 32, 98, 32]) ∧
      Leaves (formatInto ([32, 97, 32, 32, 98, 32] ++ [0]) [1, 2, 3, 4])
        (normalise [32, 97, 32, 32, 98, 32]) ∧
      Leaves (formatIn (normalise [32, 97, 32, 32, 98, 32] ++ [0]))
        (normalise [32, 97, 32, 32, 98, 32]) ∧
      Leaves (formatInto (normalise [32, 97, 32, 32, 98, 32] ++ [0]) [1, 2, 3, 4])
        (normalise [32, 97, 32, 32, 98, 32]) :=
  formats_agree ⟨[32, 97, 32, 32, 98, 32], by decide⟩ [1, 2, 3, 4] [1, 2, 3, 4]
    ⟨97, by decide, by decide⟩
    (by decide) (by decide)

/-! ## Inside the buffers -/

/-- A call of one of the four functions; the strings lie in buffers that their NUL
ends, the results in buffers of their own. -/
inductive Call where
  | rightTrim : CString → Call
  | format : CString → Call
  | formatTo : CString → List UInt8 → Call
  | separate : CString → List UInt8 → List UInt8 → UInt8 → Call

/-- What stands in front of the delimiter, or all. -/
def firstPart (src : List UInt8) (delimiter : UInt8) : List UInt8 := src.takeWhile (· ≠ delimiter)

/-- What stands behind the delimiter. -/
def secondPart (src : List UInt8) (delimiter : UInt8) : List UInt8 :=
  (src.dropWhile (· ≠ delimiter)).drop 1

/-- The result buffers go as far as the NUL of what is stored there. -/
def Call.Roomy : Call → Prop
  | .rightTrim _ | .format _ => True
  | .formatTo string result => (NetmtIniStr.format string.bytes).length < result.length
  | .separate src first second delimiter =>
    (firstPart src.bytes delimiter).length < first.length ∧
      (secondPart src.bytes delimiter).length < second.length

/-- The call reads and writes nothing outside the buffers, and a blank argument of
`RightTrim` or of the first `Format` becomes the empty string. -/
def Call.Inside : Call → Prop
  | .rightTrim string => ∃ mem, rightTrimIn (string.bytes ++ [0]) = some mem ∧
      (Blank string.bytes → CString.ofField mem = [])
  | .format string => ∃ mem, formatIn (string.bytes ++ [0]) = some mem ∧
      (Blank string.bytes → CString.ofField mem = [])
  | .formatTo string result => ∃ mem, formatInto (string.bytes ++ [0]) result = some mem
  | .separate src first second delimiter =>
    ∃ r, separateInto (src.bytes ++ [0]) first second delimiter = some r

/-- There is a character for the way back to stop at. -/
def Call.Guarded : Call → Prop
  | .rightTrim string | .format string => ¬ Blank string.bytes
  | .formatTo string _ => string.bytes = [] ∨ ¬ Blank string.bytes
  | .separate src _ _ delimiter => src.bytes = [] ∨ delimiter = 0 ∨
      ¬ Blank (firstPart src.bytes delimiter) ∧
        (delimiter ∈ src.bytes → ¬ Blank (secondPart src.bytes delimiter))

theorem rightTrimIn_runs_iff {s : List UInt8} (hs : (0 : UInt8) ∉ s) (rest : List UInt8) :
    (∃ mem, rightTrimIn (s ++ 0 :: rest) = some mem) ↔ ¬ Blank s := by
  constructor
  · rintro ⟨mem, hrun⟩ hblank
    rw [rightTrimIn_blank hs hblank] at hrun
    cases hrun
  · intro hnot
    obtain ⟨rest', hrun⟩ := rightTrimIn_eq hs hnot rest
    exact ⟨_, hrun⟩

theorem formatIn_runs_iff {s : List UInt8} (hs : (0 : UInt8) ∉ s) (rest : List UInt8) :
    (∃ mem, formatIn (s ++ 0 :: rest) = some mem) ↔ ¬ Blank s := by
  constructor
  · rintro ⟨mem, hrun⟩ hblank
    rw [formatIn_blank hs hblank] at hrun
    cases hrun
  · intro hnot
    obtain ⟨rest', hrun⟩ := formatIn_eq hs hnot rest
    exact ⟨_, hrun⟩

theorem formatInto_runs_iff {s result : List UInt8} (hs : (0 : UInt8) ∉ s)
    (hroom : (format s).length < result.length) :
    (∃ mem, formatInto (s ++ [0]) result = some mem) ↔ s = [] ∨ ¬ Blank s := by
  by_cases hne : s = []
  · rw [hne]
    exact iff_of_true ⟨result, rfl⟩ (.inl rfl)
  · constructor
    · rintro ⟨mem, hrun⟩
      refine .inr fun hblank => ?_
      rw [formatInto_blank hs hne hblank (Nat.zero_lt_of_lt hroom)] at hrun
      cases hrun
    · rintro (hnil | hnot)
      · exact absurd hnil hne
      · obtain ⟨rest, hrun⟩ := formatInto_eq hs hnot hroom
        exact ⟨_, hrun⟩

section Separate

variable {s first second : List UInt8} {delimiter : UInt8}

theorem take_firstPart (s : List UInt8) (delimiter : UInt8) :
    s.take (firstPart s delimiter).length = firstPart s delimiter :=
  (List.prefix_iff_eq_take.mp (List.takeWhile_prefix _)).symm

theorem drop_firstPart (s : List UInt8) (delimiter : UInt8) :
    s.drop ((firstPart s delimiter).length + 1) = secondPart s delimiter := by
  have hsplit : firstPart s delimiter ++ s.dropWhile (· ≠ delimiter) = s :=
    List.takeWhile_append_dropWhile
  rw [← List.drop_drop, secondPart]
  congr 1
  calc s.drop (firstPart s delimiter).length
      = (firstPart s delimiter ++ s.dropWhile (· ≠ delimiter)).drop
        (firstPart s delimiter).length := by
        rw [hsplit]
    _ = s.dropWhile (· ≠ delimiter) := List.drop_left

theorem parts_nul_free (hs : (0 : UInt8) ∉ s) (delimiter : UInt8) :
    (0 : UInt8) ∉ firstPart s delimiter ∧ (0 : UInt8) ∉ secondPart s delimiter :=
  ⟨fun hmem => hs ((List.takeWhile_prefix _).subset hmem),
    fun hmem => hs ((List.dropWhile_suffix _).subset (List.mem_of_mem_drop hmem))⟩

/-- Clearing the first byte. -/
theorem writeAt_zero (first : List UInt8) (h : 0 < first.length) :
    ∃ mem, writeAt 0 0 first = some mem ∧ mem.length = first.length :=
  ⟨first.set 0 0, if_pos h, List.length_set⟩

/-- A string and its NUL are copied. -/
theorem copyTo_string (s first : List UInt8) (h : s.length < first.length) :
    ∃ rest, copyTo (s ++ [0]) first = some (s ++ 0 :: rest) := by
  obtain ⟨rest, hcopy, -⟩ := copyTo_append (s ++ [0]) first (by
    rw [List.length_append, List.length_singleton]
    exact h)
  exact ⟨rest, by rw [hcopy, List.append_assoc, List.singleton_append]⟩

/-- The tests in front, passed. -/
theorem separateInto_parts (hs : (0 : UInt8) ∉ s) (hne : s ≠ []) (hdelimiter : delimiter ≠ 0)
    (hfirst : (firstPart s delimiter).length < first.length)
    (hsecond : (secondPart s delimiter).length < second.length) :
    (delimiter ∈ s → ∃ rest rest₂, separateInto (s ++ [0]) first second delimiter =
      (formatIn (firstPart s delimiter ++ 0 :: rest)).bind fun first =>
        (formatIn (secondPart s delimiter ++ 0 :: rest₂)).map fun second => (1, first, second)) ∧
      (delimiter ∉ s → ∃ rest rest₂, separateInto (s ++ [0]) first second delimiter =
        (formatIn (s ++ 0 :: rest)).map fun first => (1, first, 0 :: rest₂)) := by
  obtain ⟨c, hc, hread⟩ : ∃ c : UInt8, c ≠ 0 ∧ (s ++ [(0 : UInt8)])[0]? = some c := by
    cases s with
    | nil => exact absurd rfl hne
    | cons c t => exact ⟨c, fun h => hs (h ▸ List.mem_cons_self), rfl⟩
  obtain ⟨second₁, hclear, hlen₂⟩ := writeAt_zero second (Nat.zero_lt_of_lt hsecond)
  obtain ⟨first₁, hclear', hlen₁⟩ := writeAt_zero first (Nat.zero_lt_of_lt hfirst)
  rw [separateInto, hread, Option.bind_some, if_neg (by tauto), hclear, Option.bind_some, hclear',
    Option.bind_some]
  simp only [ofField_cut hs]
  constructor
  · intro hmem
    rw [if_pos hmem]
    have hfold : firstPart s delimiter = s.takeWhile (· ≠ delimiter) := rfl
    simp only [← hfold, take_firstPart, drop_firstPart]
    obtain ⟨rest, hcopy, hlen⟩ := copyTo_append (firstPart s delimiter) first₁ (by omega)
    have hbehind : rest ≠ [] := by
      rintro rfl
      rw [List.length_nil] at hlen
      omega
    obtain ⟨rest₁, hend⟩ := writeAt_end (firstPart s delimiter) hbehind
    obtain ⟨rest₂, hcopy₂⟩ := copyTo_string (secondPart s delimiter) second₁ (by omega)
    refine ⟨rest₁, rest₂, ?_⟩
    rw [hcopy, Option.bind_some, hend, Option.bind_some, hcopy₂, Option.bind_some]
  · intro hmem
    rw [if_neg hmem]
    have hall : firstPart s delimiter = s := List.takeWhile_eq_self_iff.mpr (scan_ne hmem)
    rw [hall] at hfirst
    obtain ⟨rest, hcopy⟩ := copyTo_string s first₁ (by omega)
    have hbehind : second₁ ≠ [] := by
      rintro rfl
      rw [List.length_nil] at hlen₂
      omega
    obtain ⟨rest₂, hclear₂⟩ := writeAt_end [] hbehind
    rw [List.nil_append, List.length_nil] at hclear₂
    refine ⟨rest, rest₂, ?_⟩
    rw [hcopy, Option.bind_some, hclear₂]
    cases formatIn (s ++ 0 :: rest) <;> rfl

/-- `SeperateByFirstDelimiter` runs where it can format its parts. -/
theorem separateInto_runs_iff (hs : (0 : UInt8) ∉ s) (hne : s ≠ []) (hdelimiter : delimiter ≠ 0)
    (hfirst : (firstPart s delimiter).length < first.length)
    (hsecond : (secondPart s delimiter).length < second.length) :
    (∃ r, separateInto (s ++ [0]) first second delimiter = some r) ↔
      ¬ Blank (firstPart s delimiter) ∧ (delimiter ∈ s → ¬ Blank (secondPart s delimiter)) := by
  obtain ⟨hcut, hwhole⟩ := separateInto_parts hs hne hdelimiter hfirst hsecond
  obtain ⟨hfree, hfree₂⟩ := parts_nul_free hs delimiter
  by_cases hmem : delimiter ∈ s
  · obtain ⟨rest, rest₂, hrun⟩ := hcut hmem
    rw [hrun, ← formatIn_runs_iff hfree rest, ← formatIn_runs_iff hfree₂ rest₂]
    constructor
    · rintro ⟨r, hr⟩
      obtain ⟨mem, hfirst, hr₂⟩ := Option.bind_eq_some_iff.mp hr
      obtain ⟨mem₂, hsecond, -⟩ := Option.map_eq_some_iff.mp hr₂
      exact ⟨⟨mem, hfirst⟩, fun _ => ⟨mem₂, hsecond⟩⟩
    · rintro ⟨⟨mem, hfirst⟩, hsecond⟩
      obtain ⟨mem₂, hsecond⟩ := hsecond hmem
      exact ⟨(1, mem, mem₂), by rw [hfirst, Option.bind_some, hsecond]; rfl⟩
  · obtain ⟨rest, rest₂, hrun⟩ := hwhole hmem
    have hall : firstPart s delimiter = s := List.takeWhile_eq_self_iff.mpr (scan_ne hmem)
    rw [hrun, hall, ← formatIn_runs_iff hs rest]
    constructor
    · rintro ⟨r, hr⟩
      obtain ⟨mem, hfirst, -⟩ := Option.map_eq_some_iff.mp hr
      exact ⟨⟨mem, hfirst⟩, fun h => absurd h hmem⟩
    · rintro ⟨⟨mem, hfirst⟩, -⟩
      exact ⟨(1, mem, 0 :: rest₂), by rw [hfirst]; rfl⟩

end Separate

/-- Where only what is not blank can be worked on, nothing is left to be emptied. -/
theorem runs_emptied_iff {r : Option (List UInt8)} {s : List UInt8}
    (hruns : (∃ mem, r = some mem) ↔ ¬ Blank s) :
    (∃ mem, r = some mem ∧ (Blank s → CString.ofField mem = [])) ↔ ¬ Blank s := by
  constructor
  · rintro ⟨mem, hr, -⟩
    exact hruns.mp ⟨mem, hr⟩
  · intro hnot
    obtain ⟨mem, hr⟩ := hruns.mpr hnot
    exact ⟨mem, hr, fun hblank => absurd hblank hnot⟩

/-- A call stays inside just where the way back meets a valid character. -/
theorem call_inside_iff (call : Call) (hroom : call.Roomy) : call.Inside ↔ call.Guarded := by
  cases call with
  | rightTrim string => exact runs_emptied_iff (rightTrimIn_runs_iff string.nul_free [])
  | format string => exact runs_emptied_iff (formatIn_runs_iff string.nul_free [])
  | formatTo string result => exact formatInto_runs_iff string.nul_free hroom
  | separate src first second delimiter =>
    rw [Call.Inside, Call.Guarded]
    by_cases hne : src.bytes = []
    · rw [hne]
      exact iff_of_true ⟨(0, first, second), rfl⟩ (.inl rfl)
    · by_cases hdelimiter : delimiter = 0
      · have hzero : separateInto (src.bytes ++ [0]) first second delimiter =
            some (0, first, second) := by
          rw [hdelimiter]
          cases hsrc : src.bytes with
          | nil => exact absurd hsrc hne
          | cons c t => exact if_pos (.inr rfl)
        exact iff_of_true ⟨_, hzero⟩ (.inr (.inl hdelimiter))
      · rw [separateInto_runs_iff src.nul_free hne hdelimiter hroom.1 hroom.2]
        exact ⟨fun h => .inr (.inr h), fun h => (h.resolve_left hne).resolve_left hdelimiter⟩

/-- `"k=v"` -/
theorem call_inside_assignment :
    (Call.separate ⟨[107, 61, 118], by decide⟩ [9, 9] [9, 9] 61).Inside ↔
      (Call.separate ⟨[107, 61, 118], by decide⟩ [9, 9] [9, 9] 61).Guarded :=
  call_inside_iff (.separate ⟨[107, 61, 118], by decide⟩ [9, 9] [9, 9] 61) ⟨by decide, by decide⟩

/-- The line `"k=\n"` is separated at `=`, and the name of the header `"[ ]"` is formatted:
the way back goes on in front of the buffers. -/
theorem blank_leaves_buffer :
    ¬ (Call.separate ⟨[107, 61, 10], by decide⟩ [9, 9] [9, 9] 61).Inside ∧
    ¬ (Call.format ⟨[32, 32], by decide⟩).Inside ∧ ¬ (Call.rightTrim ⟨[], by decide⟩).Inside := by
  have hseparate : separateInto [107, 61, 10, 0] [9, 9] [9, 9] 61 = none := by decide
  have hformat : formatIn [32, 32, 0] = none := by decide
  have htrim : rightTrimIn [0] = none := by decide
  refine ⟨?_, ?_, ?_⟩
  · rintro ⟨r, hr⟩
    cases hseparate.symm.trans hr
  · rintro ⟨mem, hrun, -⟩
    cases hformat.symm.trans hrun
  · rintro ⟨mem, hrun, -⟩
    cases htrim.symm.trans hrun

end NetmtIniBuffer
