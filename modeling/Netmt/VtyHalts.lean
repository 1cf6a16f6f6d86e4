import Netmt.VtyTyping

/-!
# Bytes that stop a terminal

Which bytes the code does not survive, where there is memory and the commands that Enter runs
return: the end of an option that holds nothing, and the key that deletes a word where a
password is asked for.
-/
namespace NetmtVtyHalts

open NetmtVty NetmtVtyEdit NetmtVtyGood NetmtVtyWords NetmtVtyRuns NetmtVtyTyping

/-- `ESC d` inside of a password: its loops delete nothing. -/
def Hangs (c : UInt8) (vty : Vty) : Prop :=
  c = 100 ∧ Keys vty ∧ vty.escape = .VTY_PRE_ESCAPE ∧ inAuth vty.node = true ∧ vty.cp ≠ vty.length

/-- `IAC SE` right behind `IAC SB`: the buffer of the option has no first block. -/
def Breaks (c : UInt8) (vty : Vty) : Prop :=
  c = SE ∧ vty.iac = true ∧ vty.iac_sb_in_progress = true ∧ vty.sb_buffer = []

section Halts

variable {z : Zipper UInt8} {vty : Vty} {env : Env} {c : UInt8} {next : Option UInt8}

theorem hangs_endless (h : Good z vty) (hhangs : Hangs c vty) :
    readByte env c next vty = .error .endless := by
  obtain ⟨rfl, hkeys, hescape, hauth, hinside⟩ := hhangs
  obtain ⟨n, hn⟩ := h.held
  have hafter : z.after ≠ [] := by
    intro hnil
    have hlength := z.length_text
    rw [hnil, List.length_nil, Nat.add_zero] at hlength
    exact hinside (h.cp.trans (hlength.symm.trans h.length.symm))
  have hloop : vtyForwardKillWord (vty.length + 1) vty = .error .endless := by
    have hendless : vtyForwardKillWord (vty.length + 1) (line z n vty) = .error .endless :=
      forwardKillWord_endless hauth hafter _
    rwa [hn] at hendless
  rw [readByte_key hkeys env (by decide), if_neg (by rw [hescape]; exact Escape.noConfusion),
    if_pos hescape, preEscapeByte,
    if_neg (by decide), if_neg (by decide), if_neg (by decide), if_pos rfl, hloop]
  rfl

theorem breaks_fault (hbreaks : Breaks c vty) : readByte env c next vty = .error .fault := by
  obtain ⟨rfl, hiac, hsub, hempty⟩ := hbreaks
  have hset : ¬ (vty.iac_sb_in_progress = true ∧ vty.iac = false) := by
    rw [hiac]
    exact fun hboth => Bool.noConfusion hboth.2
  have hother : ¬ SE = IAC := by decide
  rw [readByte, if_neg (fun hboth => hother hboth.1), if_neg hother]
  simp only
  rw [if_neg hset, if_pos hiac, vtyTelnetOption, if_neg (by decide), if_pos rfl, hsub, hempty]
  rfl

/-- Ctrl-Z runs, whatever it leaves on the screen. -/
theorem leave_runs (env : Env) (next : Option UInt8) (vty : Vty) :
    ∃ r, readByte env (control 90) next vty = .ok r := by
  have hother : ¬ control 90 = IAC := by decide
  rw [readByte, if_neg (fun hboth => hother hboth.1), if_neg hother]
  simp only
  split
  · exact ⟨_, rfl⟩
  · split
    · exact ⟨_, rfl⟩
    · split
      · exact ⟨_, rfl⟩
      · split
        · exact ⟨_, rfl⟩
        · split
          · exact ⟨_, rfl⟩
          · exact ⟨_, rfl⟩

/-- Where there is memory for what is typed and commands return, these two are all: no other
byte faults or hangs, in any terminal in order. -/
theorem halts_exact (z : Zipper UInt8) (vty : Vty) (h : Good z vty) (env : Env) (c : UInt8)
    (next : Option UInt8) (hroom : Inserts c vty → Room env.grown vty)
    (htab : c = 9 → Fitting env vty) (e : Halt) :
    readByte env c next vty = .error e ↔ e = .endless ∧ Hangs c vty ∨ e = .fault ∧
    Breaks c vty := by
  constructor
  · intro hrun
    by_cases hhangs : Hangs c vty
    · rw [hangs_endless h hhangs] at hrun
      exact .inl ⟨(Except.error.inj hrun).symm, hhangs⟩
    by_cases hbreaks : Breaks c vty
    · rw [breaks_fault hbreaks] at hrun
      exact .inr ⟨(Except.error.inj hrun).symm, hbreaks⟩
    by_cases hleave : c = control 90
    · obtain ⟨r, hok⟩ := leave_runs env next vty
      rw [hleave, hok] at hrun
      cases hrun
    · have hc : Permitted env c vty := by
        refine ⟨hroom, htab, fun hword hkeys hescape hauth => ?_, fun hend hiac hsub hempty => ?_,
          fun heq => absurd heq hleave⟩
        · exact Decidable.by_contra fun hne => hhangs ⟨hword, hkeys, hescape, hauth, hne⟩
        · exact hbreaks ⟨hend, hiac, hsub, hempty⟩
      obtain ⟨skip, v, z', hok, -⟩ := byte_kept h hc next
      rw [hok] at hrun
      cases hrun
  · rintro (⟨rfl, hhangs⟩ | ⟨rfl, hbreaks⟩)
    · exact hangs_endless h hhangs
    · exact breaks_fault hbreaks

theorem halts_exact_new : ∃ vty, vtyCreate bareEnv false 24 [] false = some vty ∧
    (readByte bareEnv 100 none vty = .error .endless ↔
      Halt.endless = .endless ∧ Hangs 100 vty ∨ Halt.endless = .fault ∧ Breaks 100 vty) := by
  obtain ⟨vty, hcreate⟩ : ∃ vty, vtyCreate bareEnv false 24 [] false = some vty := ⟨_, rfl⟩
  exact ⟨vty, hcreate, halts_exact (.behind []) vty (create_good hcreate) bareEnv 100 none
    (fun _ => .inr fun _ => rfl)
    (fun htab => absurd htab (by decide)) .endless⟩

end Halts

end NetmtVtyHalts
