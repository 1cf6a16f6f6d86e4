import Netmt.Server
import Netmt.Lib.Schedule

/-!
# Results of remote commands

A result that a client sends back is copied to the buffer of its entry, the entry is
flagged, and a command prints the buffers of flagged entries and clears them. These
are three critical sections, and the last one is not under the mutex of the others.
-/
namespace NetmtExecResults

open NetmtCommand NetmtTcpRecv NetmtTransfer NetmtServer Schedule

/-! ## The critical sections -/

def saveResultInfoToBuffer (text : List UInt8) (conn : IoT) : IoT :=
  { conn with buffer := if conn.bufferCurrentSize < conn.bufferMaxSize - 4 then text
    else conn.buffer }

def handleEndflag (conn : IoT) : IoT := { conn with flag := 1 }

/-- `print_info_using_vty_format(string, '\r', pvty)`: the text is cut at every
carriage return but the last. -/
def vtyLines : List UInt8 → List UInt8 → List (List UInt8)
  | [], tmp => [tmp]
  | ch :: string, tmp =>
    if ch = 13 ∧ 13 ∈ string then tmp :: vtyLines string [] else vtyLines string (tmp ++ [ch])

/-- What is printed for one client. -/
structure Report where
  id : Int
  area : List UInt8
  type : List UInt8
  buffer : List UInt8

/-- `vty_out(pvty, "%s\r", tmp)` for every line. -/
def Report.printed (r : Report) : List UInt8 :=
  (vtyLines r.buffer []).flatMap fun line => line ++ [13]

def reportOf (conn : IoT) : Report where
  id := conn.netmtclient.i32 clientId
  area := conn.netmtclient.str clientArea LEN
  type := conn.netmtclient.str clientType LEN
  buffer := conn.buffer

/-- The entry after it was printed. -/
def cleared (conn : IoT) : IoT := { conn with buffer := [], flag := 0, bufferCurrentSize := 0 }

/-- `print_all_client_return_info`, with the reports in the order of the walk. -/
def printAllClientReturnInfo (clients : List IoT) : List IoT × List Report :=
  (clients.map fun conn => if conn.flag = 1 then cleared conn else conn,
    (clients.filter fun conn => conn.flag = 1).map reportOf)

/-- Nothing of the buffer is left out. -/
theorem printed_eq (r : Report) : r.printed = r.buffer ++ [13] := by
  have h : ∀ string tmp, (vtyLines string tmp).flatMap (fun line => line ++ [13]) =
      tmp ++ string ++ [13] := by
    intro string
    induction string with
    | nil =>
      intro tmp
      simp [vtyLines]
    | cons ch string ih =>
      intro tmp
      rw [vtyLines]
      split
      · next hcut =>
        rw [List.flatMap_cons, ih, hcut.1]
        simp
      · rw [ih]
        simp
  rw [Report.printed, h, List.nil_append]

/-- The handler of a result is the first two sections in a row. -/
theorem onExec_sections {io : Hio} {f : Frame} {tail : List UInt8} {s s' : Server}
    (hsub : f.u32 subcommonid = NETMT_EXEC_SHELL_RESULT) (h : onExec io f tail s = .next s') :
    ∃ text, cstrAt f tail totalResult = some text ∧ s'.clients = s.clients.map fun conn =>
      if conn.io = io then handleEndflag (saveResultInfoToBuffer text conn) else conn := by
  rw [onExec, if_pos hsub] at h
  split at h
  · cases h
  · split at h
    · cases h
    · split at h
      · cases h
      · next text htext =>
        cases h
        exact ⟨text, htext, rfl⟩

/-! ## Runs of the sections -/

/-- One section, for a result or for an entry of the walk. -/
inductive Event (ρ : Type) where
  | save : ρ → Event ρ
  | endflag : ρ → Event ρ
  | print : Hio → Event ρ
  deriving DecidableEq

/-- An entry, with the result that its buffer holds and what was printed of it. -/
structure Slot (ρ : Type) where
  conn : IoT
  origin : Option ρ
  reports : List (Option ρ × Report)

/-- Every result is saved once, and flagged once and later. -/
structure Proper {ρ : Type} (es : List (Event ρ)) : Prop where
  save : ∀ r, Once (.save r) es
  endflag : ∀ r, Once (.endflag r) es
  order : ∀ r pre post, es = pre ++ .endflag r :: post → .save r ∈ pre

/-- An entry as `netmt_accept` makes it. -/
structure Accepted (conn : IoT) : Prop where
  buffer : conn.buffer = []
  maxSize : conn.bufferMaxSize = DATABUF
  currentSize : conn.bufferCurrentSize = 0
  flag : conn.flag = 0

def Slot.new (ρ : Type) (conn : IoT) : Slot ρ := ⟨conn, none, []⟩

def Slot.save {ρ : Type} (text : List UInt8) (r : ρ) (x : Slot ρ) : Slot ρ :=
  { x with
    conn := saveResultInfoToBuffer text x.conn
    origin := if x.conn.bufferCurrentSize < x.conn.bufferMaxSize - 4 then some r else x.origin }

def Slot.endflag {ρ : Type} (x : Slot ρ) : Slot ρ := { x with conn := handleEndflag x.conn }

def Slot.print {ρ : Type} (x : Slot ρ) : Slot ρ :=
  if x.conn.flag = 1 then ⟨cleared x.conn, none, x.reports ++ [(x.origin, reportOf x.conn)]⟩ else x

section Runs

variable {ρ : Type} (owner : ρ → Hio) (text : ρ → List UInt8)

def step : Event ρ → Slot ρ → Slot ρ
  | .save r, x => if x.conn.io = owner r then x.save (text r) r else x
  | .endflag r, x => if x.conn.io = owner r then x.endflag else x
  | .print io, x => if x.conn.io = io then x.print else x

/-- A run over the client list. -/
def run (es : List (Event ρ)) (xs : List (Slot ρ)) : List (Slot ρ) :=
  es.foldl (fun xs e => xs.map (step owner text e)) xs

/-- The same run as one entry sees it. -/
def runSlot (es : List (Event ρ)) (x : Slot ρ) : Slot ρ :=
  es.foldl (fun x e => step owner text e x) x

/-- A result of the connection is saved. -/
def SavesTo (io : Hio) (e : Event ρ) : Prop := ∃ r, owner r = io ∧ e = .save r

/-- Whenever the entry is printed, every result that was flagged since it was printed
last is the one saved last, and has a text. -/
def Undisturbed (io : Hio) (es : List (Event ρ)) : Prop :=
  ∀ pre post, es = pre ++ .print io :: post → ∀ r, owner r = io →
    Since (· = .print io) (.endflag r) pre → text r ≠ [] ∧ Since (SavesTo owner io) (.save r) pre

/-- No result was lost or repeated, and no empty or printed buffer was printed. -/
structure Reported [DecidableEq ρ] (es : List (Event ρ)) (x : Slot ρ) : Prop where
  once : ∀ r, owner r = x.conn.io → Then (.endflag r) (.print x.conn.io) es →
    (x.reports.map Prod.fst).count (some r) = 1
  notEmpty : ∀ p ∈ x.reports, p.2.buffer ≠ []
  held : ∀ p ∈ x.reports, p.1 ≠ none
  fresh : (x.reports.map Prod.fst).Nodup

theorem run_eq (es : List (Event ρ)) (xs : List (Slot ρ)) :
    run owner text es xs = xs.map (runSlot owner text es) := by
  induction es generalizing xs with
  | nil => exact (List.map_id xs).symm
  | cons e es ih =>
    have hrun : run owner text (e :: es) xs = run owner text es (xs.map (step owner text e)) := rfl
    rw [hrun, ih, List.map_map]
    rfl

theorem runSlot_snoc (es : List (Event ρ)) (e : Event ρ) (x : Slot ρ) :
    runSlot owner text (es ++ [e]) x = step owner text e (runSlot owner text es x) := by
  rw [runSlot, List.foldl_append]
  rfl

omit owner text in
@[simp] theorem print_io (x : Slot ρ) : x.print.conn.io = x.conn.io := by
  rw [Slot.print]
  split <;> rfl

omit owner text in
theorem print_print (x : Slot ρ) : x.print.print = x.print := by
  have hflag : x.print.conn.flag ≠ 1 := by
    rw [Slot.print]
    split
    · exact (by decide : (0 : Int) ≠ 1)
    · assumption
  generalize x.print = y at hflag
  rw [Slot.print, if_neg hflag]

/-- An entry notices the sections for its own connection. -/
theorem runSlot_prints (ios : List Hio) (x : Slot ρ) :
    runSlot owner text (ios.map .print) x = if x.conn.io ∈ ios then x.print else x := by
  induction ios generalizing x with
  | nil => rfl
  | cons io ios ih =>
    have hrun : runSlot owner text ((io :: ios).map .print) x =
        runSlot owner text (ios.map .print) (if x.conn.io = io then x.print else x) := rfl
    rw [hrun, ih]
    by_cases hio : x.conn.io = io
    · have hmem : x.conn.io ∈ io :: ios := hio ▸ List.mem_cons_self
      rw [if_pos hio, print_io, print_print, ite_self, if_pos hmem]
    · rw [if_neg hio]
      simp only [List.mem_cons, hio, false_or]

/-- The walk of the command is a run of `print` for every entry. -/
theorem run_walk (xs : List (Slot ρ)) :
    run owner text (xs.map fun x => .print x.conn.io) xs = xs.map Slot.print := by
  rw [run_eq]
  apply List.map_congr_left
  intro x hx
  have hwalk : (xs.map fun x => (Event.print x.conn.io : Event ρ)) =
      (xs.map fun x => x.conn.io).map .print := by
    rw [List.map_map]
    rfl
  rw [hwalk, runSlot_prints, if_pos (List.mem_map_of_mem hx)]

/-! ## What is known of an entry in any run -/

/-- The event is about another connection. -/
def Foreign (io : Hio) (e : Event ρ) : Prop :=
  e ≠ .print io ∧ ∀ r, owner r = io → e ≠ .save r ∧ e ≠ .endflag r

structure Known (c : Hio) (es : List (Event ρ)) (x : Slot ρ) : Prop where
  io : x.conn.io = c
  currentSize : x.conn.bufferCurrentSize = 0
  maxSize : x.conn.bufferMaxSize = DATABUF
  flag : x.conn.flag = 1 ↔ ∃ r, owner r = c ∧ Since (· = .print c) (.endflag r) es
  buffer : x.conn.buffer = (x.origin.map text).getD []
  origin : ∀ r, x.origin = some r → owner r = c ∧ Since (SavesTo owner c) (.save r) es
  /-- the result that was saved last is there until it is printed -/
  kept : ∀ r, owner r = c → Since (SavesTo owner c) (.save r) es →
    some r ∉ x.reports.map Prod.fst → x.origin = some r
  /-- what was flagged and then printed is gone -/
  gone : ∀ r, x.origin = some r → ¬ Then (.endflag r) (.print c) es

variable {owner text} {es : List (Event ρ)} {e : Event ρ} {x : Slot ρ} {conn : IoT} {io : Hio}

theorem Proper.init (h : Proper (es ++ [e])) : Proper es where
  save r := (h.save r).init
  endflag r := (h.endflag r).init
  order := by
    rintro r pre post rfl
    exact h.order r pre (post ++ [e]) (by simp)

/-- A result is not flagged before it is saved. -/
theorem Proper.not_flagged {r : ρ} (h : Proper (es ++ [.save r])) : .endflag r ∉ es := by
  intro hmem
  obtain ⟨pre, post, hsplit⟩ := List.append_of_mem hmem
  have hsaved := h.order r pre (post ++ [.save r]) (by simp [hsplit])
  exact (h.save r).last (hsplit ▸ List.mem_append_left _ hsaved)

theorem Foreign.not_saves (h : Foreign owner io e) : ¬ SavesTo owner io e := by
  rintro ⟨r, hr, rfl⟩
  exact (h.2 r hr).1 rfl

theorem step_foreign (h : Foreign owner x.conn.io e) : step owner text e x = x := by
  cases e with
  | save r => exact if_neg fun hio => (h.2 r hio.symm).1 rfl
  | endflag r => exact if_neg fun hio => (h.2 r hio.symm).2 rfl
  | print c => exact if_neg fun hio => h.1 (by rw [hio])

theorem known_new (h : Accepted conn) : Known owner text conn.io [] (Slot.new ρ conn) where
  io := rfl
  currentSize := h.currentSize
  maxSize := h.maxSize
  flag := by
    have hflag : (Slot.new ρ conn).conn.flag = 0 := h.flag
    rw [hflag]
    exact ⟨fun h => absurd h (by decide), fun ⟨_, _, h⟩ => absurd h.mem List.not_mem_nil⟩
  buffer := h.buffer
  origin _ h := by cases h
  kept _ _ h := absurd h.mem List.not_mem_nil
  gone _ h := by cases h

theorem known_foreign (h : Known owner text io es x) (he : Foreign owner io e) :
    Known owner text io (es ++ [e]) x where
  io := h.io
  currentSize := h.currentSize
  maxSize := h.maxSize
  flag := by
    rw [h.flag]
    refine exists_congr fun r => and_congr_right fun hr => ?_
    rw [since_snoc_other (he.2 r hr).2 he.1]
  buffer := h.buffer
  origin r hr := by
    obtain ⟨howner, hsince⟩ := h.origin r hr
    exact ⟨howner, hsince.snoc he.not_saves⟩
  kept r hr hsince := h.kept r hr ((since_snoc_other (he.2 r hr).1 he.not_saves).mp hsince)
  gone r hr hthen := h.gone r hr ((then_snoc_other he.1).mp hthen)

theorem known_save {r : ρ} (hes : Proper (es ++ [.save r])) (h : Known owner text io es x)
    (hr : owner r = io) : Known owner text io (es ++ [.save r]) (x.save (text r) r) := by
  have hroom : x.conn.bufferCurrentSize < x.conn.bufferMaxSize - 4 := by
    rw [h.currentSize, h.maxSize]
    decide
  have horigin : (x.save (text r) r).origin = some r := if_pos hroom
  exact {
    io := h.io
    currentSize := h.currentSize
    maxSize := h.maxSize
    flag := by
      have hflag : (x.save (text r) r).conn.flag = x.conn.flag := rfl
      rw [hflag, h.flag]
      refine exists_congr fun r' => and_congr_right fun _ => ?_
      rw [since_snoc_other (by simp) (by simp)]
    buffer := by
      rw [horigin]
      exact if_pos hroom
    origin := fun r' hr' => by
      rw [horigin] at hr'
      cases hr'
      exact ⟨hr, since_snoc_self⟩
    kept := fun r' _ hsince _ => by
      rcases since_snoc.mp hsince with heq | ⟨hno, -⟩
      · cases heq
        exact horigin
      · exact absurd ⟨r, hr, rfl⟩ hno
    gone := fun r' hr' hthen => by
      rw [horigin] at hr'
      cases hr'
      rw [then_snoc_other (by simp)] at hthen
      exact hes.not_flagged hthen.mem }

theorem known_endflag {r : ρ} (h : Known owner text io es x) (hr : owner r = io) :
    Known owner text io (es ++ [.endflag r]) x.endflag where
  io := h.io
  currentSize := h.currentSize
  maxSize := h.maxSize
  flag := ⟨fun _ => ⟨r, hr, since_snoc_self⟩, fun _ => rfl⟩
  buffer := h.buffer
  origin r' hr' := by
    obtain ⟨howner, hsince⟩ := h.origin r' hr'
    exact ⟨howner, hsince.snoc fun ⟨_, _, heq⟩ => by cases heq⟩
  kept r' hr' hsince := h.kept r' hr'
    ((since_snoc_other (by simp) fun ⟨_, _, heq⟩ => by cases heq).mp hsince)
  gone r' hr' hthen := h.gone r' hr' ((then_snoc_other (by simp)).mp hthen)

theorem known_print (h : Known owner text io es x) :
    Known owner text io (es ++ [.print io]) x.print := by
  have hnone : ¬ ∃ r, owner r = io ∧ Since (· = .print io) (.endflag r) (es ++ [.print io]) := by
    rintro ⟨r, -, hsince⟩
    rcases since_snoc.mp hsince with heq | ⟨hne, -⟩
    · cases heq
    · exact hne rfl
  have hsaved : ∀ r, Since (SavesTo owner io) (.save r) (es ++ [.print io]) ↔
      Since (SavesTo owner io) (.save r) es :=
    fun r => since_snoc_other (by simp) fun ⟨_, _, heq⟩ => by cases heq
  rw [Slot.print]
  split
  · exact {
      io := h.io
      currentSize := rfl
      maxSize := h.maxSize
      flag := ⟨fun heq => absurd heq (by decide : (0 : Int) ≠ 1), fun hex => absurd hex hnone⟩
      buffer := rfl
      origin := fun _ heq => by cases heq
      kept := fun r hr hsince hnot => by
        rw [List.map_append, List.mem_append, not_or] at hnot
        have horigin := h.kept r hr ((hsaved r).mp hsince) hnot.1
        exact absurd (by simp [horigin]) hnot.2
      gone := fun _ heq => by cases heq }
  · next hflag =>
    exact {
      io := h.io
      currentSize := h.currentSize
      maxSize := h.maxSize
      flag := ⟨fun heq => absurd heq hflag, fun hex => absurd hex hnone⟩
      buffer := h.buffer
      origin := fun r hr => by
        rw [hsaved]
        exact h.origin r hr
      kept := fun r hr hsince => h.kept r hr ((hsaved r).mp hsince)
      gone := fun r hr hthen => by
        have hbefore := h.gone r hr
        rcases then_snoc.mp hthen with hthen | ⟨-, hmem⟩
        · exact hbefore hthen
        · cases since_or_then hmem with
          | inl hsince =>
            exact hflag (h.flag.mpr ⟨r, (h.origin r hr).1, hsince⟩)
          | inr hthen =>
            exact hbefore hthen }

/-- Every section, on the entry of its connection or of another one. -/
theorem known_step (hes : Proper (es ++ [e])) (h : Known owner text io es x) :
    Known owner text io (es ++ [e]) (step owner text e x) := by
  by_cases he : Foreign owner io e
  · have hstep : step owner text e x = x := step_foreign (h.io ▸ he)
    rw [hstep]
    exact known_foreign h he
  · cases e with
    | save r =>
      have hr : owner r = io := by
        by_contra hne
        exact he ⟨by simp, fun r' hr' => ⟨fun heq => hne (by cases heq; exact hr'), by simp⟩⟩
      have hstep : step owner text (.save r) x = x.save (text r) r := if_pos (h.io.trans hr.symm)
      rw [hstep]
      exact known_save hes h hr
    | endflag r =>
      have hr : owner r = io := by
        by_contra hne
        exact he ⟨by simp, fun r' hr' => ⟨by simp, fun heq => hne (by cases heq; exact hr')⟩⟩
      have hstep : step owner text (.endflag r) x = x.endflag := if_pos (h.io.trans hr.symm)
      rw [hstep]
      exact known_endflag h hr
    | print c =>
      have hc : c = io := by
        by_contra hne
        exact he ⟨fun heq => hne (by cases heq; rfl), fun r' _ => ⟨by simp, by simp⟩⟩
      subst hc
      have hstep : step owner text (.print c) x = x.print := if_pos h.io
      rw [hstep]
      exact known_print h

theorem known_run (hes : Proper es) (h : Accepted conn) :
    Known owner text conn.io es (runSlot owner text es (Slot.new ρ conn)) := by
  induction es using List.reverseRecOn with
  | nil => exact known_new h
  | append_singleton es e ih =>
    rw [runSlot_snoc]
    exact known_step hes (ih hes.init)

/-! ## Undisturbed runs -/

/-- Every report is of a result that was flagged before, and none of these is missing. -/
structure Faithful (c : Hio) (owner : ρ → Hio) (text : ρ → List UInt8) (es : List (Event ρ))
    (x : Slot ρ) : Prop where
  sound : ∀ p ∈ x.reports, ∃ r, owner r = c ∧ p.1 = some r ∧ p.2.buffer = text r ∧ text r ≠ [] ∧
    Then (.endflag r) (.print c) es
  fresh : (x.reports.map Prod.fst).Nodup
  complete : ∀ r, owner r = c → Then (.endflag r) (.print c) es → some r ∈ x.reports.map Prod.fst

theorem Undisturbed.init (h : Undisturbed owner text io (es ++ [e])) :
    Undisturbed owner text io es := by
  rintro pre post rfl
  exact h pre (post ++ [e]) (by simp)

theorem Undisturbed.last (h : Undisturbed owner text io (es ++ [.print io])) {r : ρ}
    (hr : owner r = io) (hsince : Since (· = .print io) (.endflag r) es) :
    text r ≠ [] ∧ Since (SavesTo owner io) (.save r) es :=
  h es [] rfl r hr hsince

/-- A list of events that grew is undisturbed if its last print is. -/
theorem Undisturbed.snoc (h : Undisturbed owner text io es)
    (he : e = .print io → ∀ r, owner r = io →
    Since (· = .print io) (.endflag r) es → text r ≠ [] ∧ Since (SavesTo owner io) (.save r) es) :
    Undisturbed owner text io (es ++ [e]) := by
  intro pre post hsplit
  rcases snoc_eq_split hsplit with ⟨rfl, heq, -⟩ | ⟨mid, -, rfl⟩
  · exact he heq
  · exact h pre mid rfl

/-- A result in the reports was flagged before a print, so it is not waiting for one. -/
theorem Faithful.not_waiting {r : ρ} (h : Faithful io owner text es x) (hes : Proper es)
    (hsince : Since (· = .print io) (.endflag r) es) : some r ∉ x.reports.map Prod.fst := by
  intro hmem
  obtain ⟨p, hp, hfst⟩ := List.mem_map.mp hmem
  obtain ⟨r', -, hr', -, -, hthen⟩ := h.sound p hp
  obtain rfl : r = r' := Option.some.inj (hfst.symm.trans hr')
  exact (hes.endflag r).not_since_then hsince hthen

/-- What the print of a flagged entry adds, when its result was not disturbed. -/
theorem faithful_report {r : ρ} (hes : Proper es) (hk : Known owner text io es x)
    (h : Faithful io owner text es x) (hflag : x.conn.flag = 1) (hr : owner r = io)
    (hlast : ∀ r', owner r' = io → Since (· = .print io) (.endflag r') es →
      text r' ≠ [] ∧ Since (SavesTo owner io) (.save r') es)
    (hsince : Since (· = .print io) (.endflag r) es) :
    Faithful io owner text (es ++ [.print io]) x.print := by
  obtain ⟨htext, hsaved⟩ := hlast r hr hsince
  have hnot := h.not_waiting hes hsince
  have horigin : x.origin = some r := hk.kept r hr hsaved hnot
  have hbuffer : x.conn.buffer = text r := by
    rw [hk.buffer, horigin]
    rfl
  have hprint : x.print.reports = x.reports ++ [(some r, reportOf x.conn)] := by
    rw [Slot.print, if_pos hflag, horigin]
  constructor
  · intro p hp
    rw [hprint, List.mem_append, List.mem_singleton] at hp
    rcases hp with hp | rfl
    · obtain ⟨r', hr', hfst, hsnd, hne, hthen⟩ := h.sound p hp
      exact ⟨r', hr', hfst, hsnd, hne, hthen.snoc⟩
    · exact ⟨r, hr, rfl, hbuffer, htext, then_snoc_self hsince.mem⟩
  · rw [hprint, List.map_append, List.nodup_append]
    refine ⟨h.fresh, List.nodup_singleton _, fun a ha b hb heq => ?_⟩
    rw [heq, List.mem_singleton.mp hb] at ha
    exact hnot ha
  · intro r' hr' hthen
    rw [hprint, List.map_append, List.mem_append]
    rcases then_snoc.mp hthen with hthen | ⟨-, hmem⟩
    · exact Or.inl (h.complete r' hr' hthen)
    · cases since_or_then hmem with
      | inl hsince' =>
        have hsaved' := (hlast r' hr' hsince').2
        have heq := hsaved.eq_of_stop hsaved' ⟨r, hr, rfl⟩ ⟨r', hr', rfl⟩
        cases heq
        exact Or.inr (List.mem_singleton_self _)
      | inr hthen =>
        exact Or.inl (h.complete r' hr' hthen)

/-- A section that prints nothing. -/
theorem Faithful.quiet {y : Slot ρ} (h : Faithful io owner text es x) (hy : y.reports = x.reports)
    (he : e = .print io → ∀ r, owner r = io → ¬ Since (· = .print io) (.endflag r) es) :
    Faithful io owner text (es ++ [e]) y where
  sound p hp := by
    rw [hy] at hp
    obtain ⟨r, hr, hfst, hsnd, hne, hthen⟩ := h.sound p hp
    exact ⟨r, hr, hfst, hsnd, hne, hthen.snoc⟩
  fresh := by
    rw [hy]
    exact h.fresh
  complete r hr hthen := by
    rw [hy]
    rcases then_snoc.mp hthen with hthen | ⟨heq, hmem⟩
    · exact h.complete r hr hthen
    · exact h.complete r hr ((since_or_then hmem).resolve_left (he heq r hr))

/-- No section but `print` adds a report, and it adds one to a flagged entry only. -/
theorem step_reports (hio : x.conn.io = io) : (step owner text e x).reports = x.reports ∨
    e = .print io ∧ x.conn.flag = 1 ∧ step owner text e x = x.print := by
  cases e with
  | save r =>
    rw [step]
    split <;> exact Or.inl rfl
  | endflag r =>
    rw [step]
    split <;> exact Or.inl rfl
  | print c =>
    rw [step]
    split
    · next hc =>
      by_cases hflag : x.conn.flag = 1
      · exact Or.inr ⟨by rw [← hio, hc], hflag, rfl⟩
      · rw [Slot.print, if_neg hflag]
        exact Or.inl rfl
    · exact Or.inl rfl

theorem faithful_step (hes : Proper (es ++ [e])) (hk : Known owner text io es x)
    (h : Faithful io owner text es x) (hu : Undisturbed owner text io (es ++ [e])) :
    Faithful io owner text (es ++ [e]) (step owner text e x) := by
  by_cases hprint : e = .print io ∧ x.conn.flag = 1
  · obtain ⟨rfl, hflag⟩ := hprint
    obtain ⟨r, hr, hsince⟩ := hk.flag.mp hflag
    have hstep : step owner text (.print io) x = x.print := if_pos hk.io
    rw [hstep]
    exact faithful_report hes.init hk h hflag hr (fun r' hr' => hu.last hr') hsince
  · refine h.quiet ((step_reports hk.io).resolve_right fun hadd => hprint ⟨hadd.1, hadd.2.1⟩) ?_
    exact fun heq r hr hsince => hprint ⟨heq, hk.flag.mpr ⟨r, hr, hsince⟩⟩

theorem faithful_run (hes : Proper es) (h : Accepted conn)
    (hu : Undisturbed owner text conn.io es) :
    Faithful conn.io owner text es (runSlot owner text es (Slot.new ρ conn)) := by
  induction es using List.reverseRecOn with
  | nil => exact ⟨fun _ h => (by cases h), List.nodup_nil, fun _ _ h =>
    absurd h.mem List.not_mem_nil⟩
  | append_singleton es e ih =>
    rw [runSlot_snoc]
    exact faithful_step hes (known_run hes.init h) (ih hes.init hu.init) hu

theorem Faithful.reported [DecidableEq ρ] (hk : Known owner text io es x)
    (h : Faithful io owner text es x) : Reported owner es x where
  once r hr hthen := by
    rw [hk.io] at hr hthen
    exact List.count_eq_one_of_mem h.fresh (h.complete r hr hthen)
  notEmpty p hp := by
    obtain ⟨r, -, -, hbuffer, htext, -⟩ := h.sound p hp
    rwa [hbuffer]
  held p hp := by
    obtain ⟨r, -, hfst, -⟩ := h.sound p hp
    rw [hfst]
    exact Option.some_ne_none r
  fresh := h.fresh

/-! ## Disturbed runs -/

/-- What is asked of the reports, with the results that were flagged and printed among them. -/
structure Kept (c : Hio) (owner : ρ → Hio) (es : List (Event ρ)) (x : Slot ρ) : Prop where
  complete : ∀ r, owner r = c → Then (.endflag r) (.print c) es → some r ∈ x.reports.map Prod.fst
  notEmpty : ∀ p ∈ x.reports, p.2.buffer ≠ []

theorem Reported.kept [DecidableEq ρ] (hk : Known owner text io es x) (h : Reported owner es x) :
    Kept io owner es x where
  complete r hr hthen := by
    have hcount := h.once r (hr.trans hk.io.symm) (hk.io.symm ▸ hthen)
    exact List.count_pos_iff.mp (by omega)
  notEmpty := h.notEmpty

/-- The same held before the last section: what it printed was not waited for. -/
theorem Kept.init (hk : Known owner text io es x)
    (h : Kept io owner (es ++ [e]) (step owner text e x)) : Kept io owner es x := by
  rcases step_reports  hk.io with hsame | ⟨-, hflag, hstep⟩
  · exact ⟨fun r hr hthen => hsame ▸ h.complete r hr hthen.snoc, fun p hp =>
      h.notEmpty p (hsame ▸ hp)⟩
  · have hprint : (step owner text e x).reports = x.reports ++ [(x.origin, reportOf x.conn)] := by
      rw [hstep, Slot.print, if_pos hflag]
    constructor
    · intro r hr hthen
      have hmem := h.complete r hr hthen.snoc
      rw [hprint, List.map_append, List.mem_append] at hmem
      refine hmem.resolve_right fun hlast => ?_
      exact hk.gone r (List.mem_singleton.mp hlast).symm hthen
    · intro p hp
      exact h.notEmpty p (hprint ▸ List.mem_append_left _ hp)

theorem undisturbed_of_kept (hes : Proper es) (h : Accepted conn)
    (hkept : Kept conn.io owner es (runSlot owner text es (Slot.new ρ conn))) :
    Undisturbed owner text conn.io es := by
  induction es using List.reverseRecOn with
  | nil =>
    intro pre post hsplit
    simp at hsplit
  | append_singleton es e ih =>
    rw [runSlot_snoc] at hkept
    have hk : Known owner text conn.io es (runSlot owner text es (Slot.new ρ conn)) :=
      known_run hes.init h
    have hu := ih hes.init (hkept.init hk)
    refine hu.snoc fun he r hr hsince => ?_
    subst he
    have hfaithful := faithful_run hes.init h hu
    generalize runSlot owner text es (Slot.new ρ conn) = x at hkept hk hfaithful
    have hstep : step owner text (.print conn.io) x = x.print := if_pos hk.io
    have hprint : x.print.reports = x.reports ++ [(x.origin, reportOf x.conn)] := by
      rw [Slot.print, if_pos (hk.flag.mpr ⟨r, hr, hsince⟩)]
    rw [hstep] at hkept
    -- it must be in the reports now, and cannot have been before
    have hmem := hkept.complete r hr (then_snoc_self hsince.mem)
    rw [hprint, List.map_append, List.mem_append] at hmem
    have hlast := hmem.resolve_left (hfaithful.not_waiting hes.init hsince)
    have hheld : x.origin = some r := (List.mem_singleton.mp hlast).symm
    have hbuffer : x.conn.buffer = text r := by
      rw [hk.buffer, hheld]
      rfl
    have hne : x.conn.buffer ≠ [] := by
      apply hkept.notEmpty (x.origin, reportOf x.conn)
      rw [hprint]
      exact List.mem_append_right _ (List.mem_singleton_self _)
    exact ⟨hbuffer ▸ hne, (hk.origin r hheld).2⟩

/-- Every result is reported as it should exactly when no other one of its client is saved
between it and the print that it waits for, and it is not empty. -/
theorem results_reported_iff [DecidableEq ρ] (owner : ρ → Hio) (text : ρ → List UInt8)
    (es : List (Event ρ)) (hes : Proper es) (conns : List IoT)
    (hnew : ∀ conn ∈ conns, Accepted conn) :
    (∀ x ∈ run owner text es (conns.map (Slot.new ρ)), Reported owner es x) ↔
      ∀ conn ∈ conns, Undisturbed owner text conn.io es := by
  rw [run_eq, List.map_map, List.forall_mem_map]
  refine forall₂_congr fun conn hconn => ?_
  have hk : Known owner text conn.io es (runSlot owner text es (Slot.new ρ conn)) :=
    known_run hes (hnew conn hconn)
  constructor
  · intro h
    exact undisturbed_of_kept hes (hnew conn hconn) (h.kept hk)
  · intro hu
    exact (faithful_run hes (hnew conn hconn) hu).reported hk

end Runs

/-! ## Two results of one client -/

def oneIo : Hio := ⟨1, 7⟩
def oneConn : IoT := ⟨oneIo, default, [], DATABUF, 0, 0⟩

/-- Both results come from the same client, with different texts. -/
def oneOwner : Nat → Hio := fun _ => oneIo
def letter : Nat → List UInt8 := fun r => [UInt8.ofNat (97 + r), 13]

theorem oneConn_accepted : ∀ conn ∈ [oneConn], Accepted conn := by
  intro conn hconn
  obtain rfl := List.mem_singleton.mp hconn
  exact ⟨rfl, rfl, rfl, rfl⟩

/-- A schedule without repetition in which the results come in the right order. -/
theorem proper_of_nodup {es : List (Event Nat)} (hes : es.Nodup)
    (h : ∀ r, ∀ n < es.length, es[n]? = some (.endflag r) → .save r ∈ es.take n) : Proper es where
  save _ := once_of_nodup hes
  endflag _ := once_of_nodup hes
  order r pre post hsplit := by
    subst hsplit
    have hsave := h r pre.length (by simp) (by simp)
    rwa [List.take_left'] at hsave
    rfl

def inTime : List (Event Nat) := [.save 0, .endflag 0, .print oneIo]

theorem inTime_proper : Proper inTime := by
  refine proper_of_nodup (by decide) fun r n hn hget => ?_
  have hcases : n = 0 ∨ n = 1 ∨ n = 2 := by
    simp only [inTime, List.length_cons, List.length_nil] at hn
    omega
  rcases hcases with rfl | rfl | rfl <;> cases hget
  exact List.mem_singleton_self _

/-- A result that is printed before the next one comes. -/
theorem result_in_time : ∃ x, run oneOwner letter inTime ([oneConn].map (Slot.new Nat)) = [x] ∧
    Reported oneOwner inTime x := by
  have hreported :=
    (results_reported_iff oneOwner letter inTime inTime_proper [oneConn] oneConn_accepted).mpr
  rw [run_eq] at hreported ⊢
  refine ⟨_, rfl, hreported ?_ _ List.mem_cons_self⟩
  intro conn hconn pre post hsplit r _ hsince
  obtain rfl := List.mem_singleton.mp hconn
  obtain rfl : pre = [.save 0, .endflag 0] := by
    rcases pre with _ | ⟨a, _ | ⟨b, _ | ⟨c, pre⟩⟩⟩ <;> simp_all [inTime]
  have hr : r = 0 := by
    have hmem := hsince.mem
    simpa using hmem
  subst hr
  refine ⟨by decide, [], [.endflag 0], rfl, ?_⟩
  rintro e he ⟨r, -, rfl⟩
  simp at he

/-- The claim for every schedule of numbered results. -/
def ResultsReported : Prop :=
  ∀ (owner : Nat → Hio) (text : Nat → List UInt8) (es : List (Event Nat)), Proper es →
    ∀ conns : List IoT, (∀ conn ∈ conns, Accepted conn) →
      ∀ x ∈ run owner text es (conns.map (Slot.new Nat)), Reported owner es x

/-- The result of a slow command comes after its print, and the next one before the next. -/
def late : List (Event Nat) := [.save 0, .endflag 0, .save 1, .endflag 1, .print oneIo]

theorem late_proper : Proper late := by
  refine proper_of_nodup (by decide) fun r n hn hget => ?_
  have hcases : n = 0 ∨ n = 1 ∨ n = 2 ∨ n = 3 ∨ n = 4 := by
    simp only [late, List.length_cons, List.length_nil] at hn
    omega
  rcases hcases with rfl | rfl | rfl | rfl | rfl <;> cases hget <;> simp [late]

/-- Only the second result is printed. -/
theorem results_not_reported : ¬ ResultsReported := by
  intro h
  have hrep :=
    h oneOwner letter late late_proper [oneConn] oneConn_accepted _ (List.mem_singleton_self _)
  have hthen : Then (.endflag 0) (.print oneIo) late :=
    ⟨[.save 0], [.save 1, .endflag 1, .print oneIo], rfl, by simp⟩
  have hcount := hrep.once 0 rfl hthen
  have hone : ([some 1] : List (Option Nat)).count (some 0) = 1 := hcount
  exact absurd hone (by decide)

end NetmtExecResults
