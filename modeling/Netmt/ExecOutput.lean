import Netmt.Transfer
import Netmt.Lib.Outcome
import Netmt.Lib.Schedule
import Netmt.Lib.Strcat

/-!
# The output of a command

`exec_command_with_return` collects in `tmpbuffer` what `fgets` delivers, a line and a CR
at a time, and looks at the length only behind both.
-/
namespace NetmtExecOutput

open NetmtCommand NetmtTcpRecv NetmtTransfer

/-- `char tmpbuffer[POPEN_SIZE]`. -/
abbrev Buffer := Region 4096

/-- A line as `fgets(buff, POPEN_SIZE, fstream)` leaves it in `buff`. -/
structure FgetsLine (line : List UInt8) : Prop where
  nonempty : line ≠ []
  fits : line.length ≤ POPEN_SIZE - 1

/-- The loop at its end. -/
structure Collected where
  tmpbuffer : Buffer
  /-- `tmpbuffer` after every `strcat` -/
  appended : List Buffer
  /-- the lines read -/
  read : List (List UInt8)

/-- What one pass adds in front of what the rest of the loop does. -/
def Collected.after (t t' : Buffer) (line : List UInt8) (r : Collected) : Collected :=
  ⟨r.tmpbuffer, t :: t' :: r.appended, line :: r.read⟩

/-- `strcat(tmpbuffer, src)`. -/
def strcat (src : List UInt8) (tmpbuffer : Buffer) : Except Fault Buffer :=
  match tmpbuffer.strcat 0 src with
  | none => .error .localBuffer
  | some t => .ok t

def strlen (tmpbuffer : Buffer) : Except Fault Nat :=
  match tmpbuffer.textAt 0 with
  | none => .error .localBuffer
  | some s => .ok s.length

/-- `while (fgets(...) != NULL)`. -/
def collectLines : List (List UInt8) → Buffer → Except Fault Collected
  | [], tmpbuffer => .ok ⟨tmpbuffer, [], []⟩
  | line :: lines, tmpbuffer =>
    let buff := CString.ofField line
    -- `buff[strlen(buff) - 1]`
    if buff = [] then .error .localBuffer
    else
      (strcat buff tmpbuffer).bind fun t =>
        (strcat [13] t).bind fun t' =>
          (strlen t').bind fun n =>
            if POPEN_SIZE - 10 < n then .ok (Collected.after t t' line ⟨t', [], []⟩)
            else (collectLines lines t').map (Collected.after t t' line)

/-- `strcpy(tmp_cmd.total_result, tmpbuffer)` and the head of the answer. -/
def answer (tmpbuffer : Buffer) : Except Fault Frame :=
  match (tmpbuffer.textAt 0).bind ((default : Frame).strcpy totalResult) with
  | none => .error .localBuffer
  | some f => .ok ((setLen ((f.putU32 commonid NETMT_EXEC).putU32 subcommonid
      NETMT_EXEC_SHELL_RESULT)).putI32 flag 1)

/-- The loop and the frame that is sent. -/
def execCommandWithReturn (lines : List (List UInt8)) : Except Fault (Collected × Frame) :=
  (collectLines lines (Region.zero 4096)).bind fun r => (answer r.tmpbuffer).map fun f => (r, f)

/-- Each line followed by CR. -/
def joined (lines : List (List UInt8)) : List UInt8 := lines.flatMap fun line => line ++ [13]

/-- Nothing leaves `tmpbuffer` or the frame, and the text sent is that of the lines read. -/
def OutputFits (lines : List (List UInt8)) : Prop :=
  ∃ r f, execCommandWithReturn lines = .ok (r, f) ∧ r.read <+: lines ∧
    (∀ t ∈ r.appended, ∃ s, t.Text 0 s ∧ s.length ≤ POPEN_SIZE - 1) ∧
    r.tmpbuffer.Text 0 (joined r.read) ∧ f.Text totalResult (joined r.read)

/-- No line that is read holds a NUL or outgrows what is free with its CR. -/
def Leaves (free : Nat) (lines : List (List UInt8)) : Prop :=
  ∀ pre line post, lines = pre ++ line :: post → (joined pre).length + 9 ≤ free →
    (0 : UInt8) ∉ line ∧ (joined pre).length + line.length + 1 ≤ free

/-! ## One pass -/

@[simp] theorem joined_nil : joined [] = [] := rfl

@[simp] theorem joined_cons (line : List UInt8) (lines : List (List UInt8)) :
    joined (line :: lines) = line ++ 13 :: joined lines := by
  simp [joined]

theorem nul_mem_joined {line : List UInt8} {lines : List (List UInt8)} (h : line ∈ lines)
    (hnul : (0 : UInt8) ∈ line) : (0 : UInt8) ∈ joined lines :=
  List.mem_flatMap.mpr ⟨line, h, List.mem_append_left _ hnul⟩

theorem strcat_fits {t : Buffer} {s src : List UInt8} (h : t.Text 0 s) (hsrc : (0 : UInt8) ∉ src)
    (hfit : s.length + src.length ≤ 4095) :
    ∃ t', strcat src t = .ok t' ∧ t'.Text 0 (s ++ src) := by
  obtain ⟨hcat, htext⟩ := h.strcat hsrc (by omega)
  exact ⟨_, by rw [strcat, hcat], htext⟩

theorem strcat_overflows {t : Buffer} {s src : List UInt8} (h : t.Text 0 s)
    (hfit : 4095 < s.length + src.length) : strcat src t = .error .localBuffer := by
  rw [strcat, h.strcat_overflow (by omega)]

theorem strlen_text {t : Buffer} {s : List UInt8} (h : t.Text 0 s) : strlen t = .ok s.length := by
  rw [strlen, h.read]

/-- A pass whose line and CR fit. -/
theorem collectLines_cons {t : Buffer} {s line : List UInt8} (h : t.Text 0 s) (hline : line ≠ [])
    (hnul : (0 : UInt8) ∉ line) (hfit : s.length + line.length + 1 ≤ 4095)
    (lines : List (List UInt8)) :
    ∃ t₁ t₂ : Buffer, t₁.Text 0 (s ++ line) ∧ t₂.Text 0 (s ++ line ++ [13]) ∧
      collectLines (line :: lines) t =
        if 4086 < s.length + line.length + 1 then .ok (Collected.after t₁ t₂ line ⟨t₂, [], []⟩)
        else (collectLines lines t₂).map (Collected.after t₁ t₂ line) := by
  obtain ⟨t₁, hcat₁, htext₁⟩ := strcat_fits h hnul (by omega)
  have hcr : (0 : UInt8) ∉ [13] := by decide
  obtain ⟨t₂, hcat₂, htext₂⟩ := strcat_fits htext₁ hcr
    (by simp only [List.length_append, List.length_singleton]; omega)
  refine ⟨t₁, t₂, htext₁, htext₂, ?_⟩
  have hlen : (s ++ line ++ [13]).length = s.length + line.length + 1 := by simp [Nat.add_assoc]
  have hlimit : POPEN_SIZE - 10 = 4086 := rfl
  simp only [collectLines, CString.ofField_nul_free hnul, if_neg hline, hcat₁, hcat₂,
    strlen_text htext₂,
    hlen, hlimit, Except.bind]

/-- A pass whose line or CR does not. -/
theorem collectLines_overflow {t : Buffer} {s line : List UInt8} (h : t.Text 0 s)
    (hline : line ≠ []) (hnul : (0 : UInt8) ∉ line) (hfit : 4095 < s.length + line.length + 1)
    (lines : List (List UInt8)) : collectLines (line :: lines) t = .error .localBuffer := by
  simp only [collectLines, CString.ofField_nul_free hnul, if_neg hline]
  by_cases hfit₁ : s.length + line.length ≤ 4095
  · obtain ⟨t₁, hcat₁, htext₁⟩ := strcat_fits h hnul hfit₁
    have hover : strcat [13] t₁ = .error .localBuffer :=
      strcat_overflows htext₁ (by simp only [List.length_append, List.length_singleton]; omega)
    simp only [hcat₁, hover, Except.bind]
  · rw [strcat_overflows h (by omega)]
    rfl

/-! ## The loop -/

theorem leaves_nil (free : Nat) : Leaves free [] := by
  intro pre line post hsplit
  simp at hsplit

/-- Nothing is read once less than ten bytes are free. -/
theorem leaves_full {free : Nat} (h : free < 9) (lines : List (List UInt8)) : Leaves free lines :=
  fun _ _ _ _ hroom => absurd hroom (by omega)

theorem leaves_cons {free : Nat} (h : 9 ≤ free) (line : List UInt8) (lines : List (List UInt8)) :
    Leaves free (line :: lines) ↔ ((0 : UInt8) ∉ line ∧ line.length + 1 ≤ free) ∧
      Leaves (free - (line.length + 1)) lines := by
  rw [Leaves, Schedule.forall_split_cons]
  refine and_congr ?_ (forall_congr' fun pre => forall_congr' fun l => forall_congr' fun post => ?_)
  · simp [h]
  · refine imp_congr_right fun _ => ?_
    simp only [joined_cons, List.length_append, List.length_cons]
    refine imp_congr_ctx (by omega) fun hroom => and_congr_right fun _ => ?_
    omega

/-- The loop from a buffer that holds `s`. -/
structure Collects (lines : List (List UInt8)) (t : Buffer) (s : List UInt8)
    (r : Collected) : Prop where
  run : collectLines lines t = .ok r
  read : r.read <+: lines
  appended : ∀ t' ∈ r.appended, ∃ s', t'.Text 0 s' ∧ s'.length ≤ POPEN_SIZE - 1
  text : r.tmpbuffer.Text 0 (s ++ joined r.read)

theorem collectLines_read {t : Buffer} {line : List UInt8} {lines : List (List UInt8)}
    {r : Collected} (h : collectLines (line :: lines) t = .ok r) : line ∈ r.read := by
  simp only [collectLines] at h
  split at h
  · cases h
  · obtain ⟨t₁, -, h⟩ := Outcome.bind_eq_ok.mp h
    obtain ⟨t₂, -, h⟩ := Outcome.bind_eq_ok.mp h
    obtain ⟨n, -, h⟩ := Outcome.bind_eq_ok.mp h
    split at h
    · cases h
      exact List.mem_singleton_self line
    · obtain ⟨r', -, rfl⟩ := Outcome.map_eq_ok.mp h
      exact List.mem_cons_self

/-- What a pass leaves is within bounds. -/
theorem appended_fits {t₁ t₂ : Buffer} {s₁ s₂ : List UInt8} (h₁ : t₁.Text 0 s₁) (h₂ : t₂.Text 0 s₂)
    {appended : List Buffer} (h : ∀ t ∈ appended, ∃ s, t.Text 0 s ∧ s.length ≤ POPEN_SIZE - 1) :
    ∀ t ∈ t₁ :: t₂ :: appended, ∃ s, t.Text 0 s ∧ s.length ≤ POPEN_SIZE - 1 := by
  have hlt₁ := h₁.fits
  have hlt₂ := h₂.fits
  intro t ht
  rcases List.mem_cons.mp ht with rfl | ht
  · exact ⟨s₁, h₁, by simp only [POPEN_SIZE]; omega⟩
  · rcases List.mem_cons.mp ht with rfl | ht
    · exact ⟨s₂, h₂, by simp only [POPEN_SIZE]; omega⟩
    · exact h t ht

/-- The last pass. -/
theorem collects_last {t t₁ t₂ : Buffer} {s line : List UInt8} {lines : List (List UInt8)}
    (h₁ : t₁.Text 0 (s ++ line)) (h₂ : t₂.Text 0 (s ++ line ++ [13]))
    (hrun : collectLines (line :: lines) t = .ok (Collected.after t₁ t₂ line ⟨t₂, [], []⟩)) :
    Collects (line :: lines) t s (Collected.after t₁ t₂ line ⟨t₂, [], []⟩) where
  run := hrun
  read := ⟨lines, rfl⟩
  appended := appended_fits h₁ h₂ (fun _ h => absurd h List.not_mem_nil)
  text := by
    change t₂.Text 0 (s ++ joined [line])
    rw [joined_cons, joined_nil, ← List.append_assoc]
    exact h₂

/-- A pass that is followed by others. -/
theorem collects_after {t t₁ t₂ : Buffer} {s line : List UInt8} {lines : List (List UInt8)}
    (h₁ : t₁.Text 0 (s ++ line)) (h₂ : t₂.Text 0 (s ++ line ++ [13]))
    (hrun : collectLines (line :: lines) t = (collectLines lines t₂).map
      (Collected.after t₁ t₂ line)) :
    (∃ r, Collects (line :: lines) t s r) ↔ ∃ r, Collects lines t₂ (s ++ line ++ [13]) r := by
  have hjoin : ∀ read, s ++ joined (line :: read) = s ++ line ++ [13] ++ joined read := by
    intro read
    rw [joined_cons, List.append_assoc, List.append_assoc, List.singleton_append]
  constructor
  · rintro ⟨r, hr⟩
    have hok := hr.run
    rw [hrun] at hok
    cases hrest : collectLines lines t₂ with
    | error e =>
      rw [hrest] at hok
      cases hok
    | ok r' =>
      rw [hrest] at hok
      cases hok
      obtain ⟨-, hread, happended, htext⟩ := hr
      refine ⟨r', hrest, (List.cons_prefix_cons.mp hread).2, fun t' ht' => ?_,
        hjoin r'.read ▸ htext⟩
      exact happended t' (List.mem_cons_of_mem _ (List.mem_cons_of_mem _ ht'))
  · rintro ⟨r, hok, hread, happended, htext⟩
    refine ⟨Collected.after t₁ t₂ line r, ?_, ?_, appended_fits h₁ h₂ happended, ?_⟩
    · rw [hrun, hok]
      rfl
    · exact List.cons_prefix_cons.mpr ⟨rfl, hread⟩
    · change r.tmpbuffer.Text 0 (s ++ joined (line :: r.read))
      rw [hjoin]
      exact htext

/-- From a buffer that holds `s` all is well exactly when the lines leave room behind `s`. -/
theorem collects_iff {lines : List (List UInt8)} (hlines : ∀ line ∈ lines, FgetsLine line)
    {t : Buffer} {s : List UInt8} (h : t.Text 0 s) (hs : s.length ≤ 4086) :
    (∃ r, Collects lines t s r) ↔ Leaves (4095 - s.length) lines := by
  induction lines generalizing t s with
  | nil =>
    refine iff_of_true ⟨⟨t, [], []⟩, rfl, List.prefix_refl _,
      fun _ h => absurd h List.not_mem_nil, ?_⟩
      (leaves_nil _)
    rw [joined_nil, List.append_nil]
    exact h
  | cons line lines ih =>
    have hline := (hlines line List.mem_cons_self).nonempty
    rw [leaves_cons (by omega)]
    by_cases hnul : (0 : UInt8) ∈ line
    · refine iff_of_false ?_ (fun hall => hall.1.1 hnul)
      rintro ⟨r, hr⟩
      exact hr.text.nul_free
        (List.mem_append_right _ (nul_mem_joined (collectLines_read hr.run) hnul))
    · by_cases hfit : s.length + line.length + 1 ≤ 4095
      · obtain ⟨t₁, t₂, h₁, h₂, hrun⟩ := collectLines_cons h hline hnul hfit lines
        have hroom : 4095 - (s ++ line ++ [13]).length = 4095 - s.length - (line.length + 1) := by
          simp only [List.length_append, List.length_singleton]
          omega
        rw [and_iff_right ⟨hnul, by omega⟩, ← hroom]
        by_cases hfull : 4086 < s.length + line.length + 1
        · rw [if_pos hfull] at hrun
          exact iff_of_true ⟨_, collects_last h₁ h₂ hrun⟩ (leaves_full (by omega) lines)
        · rw [if_neg hfull] at hrun
          have hnext := ih (fun l hl => hlines l (List.mem_cons_of_mem _ hl)) h₂
            (by simp only [List.length_append, List.length_singleton]; omega)
          exact (collects_after h₁ h₂ hrun).trans hnext
      · refine iff_of_false ?_ (fun hall => by omega)
        rintro ⟨r, hr⟩
        have hok := hr.run
        rw [collectLines_overflow h hline hnul (by omega)] at hok
        cases hok

/-! ## The answer -/

/-- What `tmpbuffer` holds fits the frame, and its head lies in front of it. -/
theorem answer_text {t : Buffer} {s : List UInt8} (h : t.Text 0 s) :
    ∃ f, answer t = .ok f ∧ f.Text totalResult s := by
  have hfits := h.fits
  have hfit : totalResult + s.length < 5168 := by
    simp only [totalResult]
    omega
  obtain ⟨hcopy, htext⟩ := Region.text_strcpy (r := (default : Frame)) h.nul_free hfit
  refine ⟨_, by rw [answer, h.read, Option.bind_some, hcopy], ?_⟩
  refine ⟨htext.nul_free, htext.fits, ?_⟩
  rw [Region.slice_put_other _ _ _ _ _ (by simp) (Or.inr (by simp)),
    Region.slice_put_other _ _ _ _ _ (by simp) (Or.inr (by simp)),
    Region.slice_put_other _ _ _ _ _ (by simp) (Or.inr (by simp)),
    Region.slice_put_other _ _ _ _ _ (by simp) (Or.inr (by simp))]
  exact htext.bytes

theorem outputFits_iff_collects (lines : List (List UInt8)) :
    OutputFits lines ↔ ∃ r, Collects lines (Region.zero 4096) [] r := by
  constructor
  · rintro ⟨r, f, hok, hread, happended, htext, -⟩
    refine ⟨r, ?_, hread, happended, htext⟩
    rw [execCommandWithReturn] at hok
    obtain ⟨r', hrun, hok⟩ := Outcome.bind_eq_ok.mp hok
    obtain ⟨f', -, hpair⟩ := Outcome.map_eq_ok.mp hok
    cases hpair
    exact hrun
  · rintro ⟨r, hrun, hread, happended, htext⟩
    obtain ⟨f, hans, hf⟩ := answer_text htext
    refine ⟨r, f, ?_, hread, happended, htext, hf⟩
    rw [execCommandWithReturn, hrun, Except.bind, hans]
    rfl

theorem empty_text : (Region.zero 4096).Text 0 [] := Region.text_zero (by decide)

/-- The output of a command is collected and sent as it should exactly when every line that is
read, those in front of it and a CR behind each are at most `POPEN_SIZE - 1` bytes without NUL.
A line is read when what lies in front of it leaves nine bytes of these. -/
theorem output_fits_iff (lines : List (List UInt8)) (hlines : ∀ line ∈ lines, FgetsLine line) :
    OutputFits lines ↔ Leaves (POPEN_SIZE - 1) lines := by
  rw [outputFits_iff_collects]
  exact collects_iff hlines empty_text (Nat.zero_le _)

/-- `hi` and a newline. -/
def shortLine : List UInt8 := [104, 105, 10]

theorem short_output_fits : OutputFits [shortLine] := by
  refine (output_fits_iff [shortLine] ?_).mpr
    ((leaves_cons (by decide) _ _).mpr ⟨by decide, leaves_nil _⟩)
  intro line hline
  obtain rfl := List.mem_singleton.mp hline
  exact ⟨by decide, by decide⟩

/-- A line of output that fills `buff` leaves no room for the CR. -/
theorem long_line_overflows :
    ¬ ∀ lines : List (List UInt8), (∀ line ∈ lines, FgetsLine line) → OutputFits lines := by
  intro h
  have hline : FgetsLine (List.replicate 4095 97) :=
    ⟨by rw [Ne, List.replicate_eq_nil_iff]; decide, by rw [List.length_replicate]; decide⟩
  have hfits := h [List.replicate 4095 97] fun line hl => List.mem_singleton.mp hl ▸ hline
  obtain ⟨r, hr⟩ := (outputFits_iff_collects _).mp hfits
  have hnul : (0 : UInt8) ∉ List.replicate 4095 (97 : UInt8) :=
    fun hmem => absurd (List.eq_of_mem_replicate hmem) (by decide)
  have hrun := hr.run
  rw [collectLines_overflow empty_text hline.nonempty hnul
    (by rw [List.length_replicate]; decide)] at hrun
  cases hrun

/-! ## Faults -/

theorem strcat_error {src : List UInt8} {t : Buffer} {x : Fault} (h : strcat src t = .error x) :
    x = .localBuffer := by
  rw [strcat] at h
  split at h <;> cases h
  rfl

theorem strlen_error {t : Buffer} {x : Fault} (h : strlen t = .error x) : x = .localBuffer := by
  rw [strlen] at h
  split at h <;> cases h
  rfl

/-- Only local arrays are left. -/
theorem collectLines_error {lines : List (List UInt8)} {t : Buffer} {x : Fault}
    (h : collectLines lines t = .error x) : x = .localBuffer := by
  induction lines generalizing t with
  | nil => cases h
  | cons line lines ih =>
    simp only [collectLines] at h
    split at h
    · cases h
      rfl
    · rcases Outcome.bind_eq_error.mp h with hcat | ⟨t₁, -, h⟩
      · exact strcat_error hcat
      · rcases Outcome.bind_eq_error.mp h with hcat | ⟨t₂, -, h⟩
        · exact strcat_error hcat
        · rcases Outcome.bind_eq_error.mp h with hlen | ⟨n, -, h⟩
          · exact strlen_error hlen
          · split at h
            · cases h
            · exact ih (Outcome.map_eq_error.mp h)

theorem execCommandWithReturn_error {lines : List (List UInt8)} {x : Fault}
    (h : execCommandWithReturn lines = .error x) : x = .localBuffer := by
  rcases Outcome.bind_eq_error.mp h with hloop | ⟨r, -, h⟩
  · exact collectLines_error hloop
  · have hanswer := Outcome.map_eq_error.mp h
    rw [answer] at hanswer
    split at hanswer <;> cases hanswer
    rfl

end NetmtExecOutput
