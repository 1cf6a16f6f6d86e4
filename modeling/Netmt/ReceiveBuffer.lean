import Netmt.DispatchLoop
import Netmt.Lib.System

/-!
# The bound of the receive buffer

A read is appended behind the bytes that are left over, and nothing compares the sum
with the size of `databuf`: what is left over is bounded only by the length field of
the frame that is waited for. The same field says where the next header is looked
for, and headers, strings and blocks are read wherever it leads.
-/
namespace NetmtReceiveBuffer

open NetmtCommand NetmtTcpRecv NetmtTransfer NetmtDispatchLoop Systems

/-- What libhv reads at most in one go. -/
def readSize : Nat := 8192

/-- The bytes that may be left over in front of any read. -/
def roomy : Int := 12288

/-- The bytes of one read. -/
def IsRead (r : List UInt8) : Prop := 1 ≤ r.length ∧ r.length ≤ readSize

section Receiver

variable {σ ι : Type} (handle : Handler σ) (enter : σ → σ)

/-- No header and no part of a frame is looked for outside `databuf`. -/
def Clean (off : Int) (rx : Rx) (s : σ) : Prop :=
  ∀ rx' s', pass handle off rx s ≠ .stop rx' s' .overrun ∧
    pass handle off rx s ≠ .stop rx' s' (.handlerFault .outOfBounds)

/-- The states in which the call may leave the globals; a loop may run as long as it likes. -/
inductive Returns (r : List UInt8) (rx : Rx) (s : σ) : Rx → σ → Prop where
  | waits {rx' : Rx} {len : Int} : append r rx = some rx' → rx'.databuf.loadI32 0 = some len →
      rx'.bytelen < len → Returns r rx s rx' s
  | empty {rx' rx₁ : Rx} {off : Int} {s₁ : σ} : append r rx = some rx' →
      Reached handle rx' (enter s) off rx₁ s₁ → rx₁.bytelen = 0 → Returns r rx s rx₁ s₁
  | stops {rx' rx₁ rx₂ : Rx} {off : Int} {s₁ s₂ : σ} {e : Exit} : append r rx = some rx' →
      Reached handle rx' (enter s) off rx₁ s₁ → rx₁.bytelen ≠ 0 →
      pass handle off rx₁ s₁ = .stop rx₂ s₂ e → e = .done ∨ e = .leave → Returns r rx s rx₂ s₂

/-- Reads on connections with their own handlers, and whatever else changes the other
globals. Only reads for which `ok` holds are taken. -/
def receiver (handles : ι → Handler σ) (ok : ι → List UInt8 → Rx → σ → Prop) : System (Rx × σ) where
  start p := p.1 = Rx.initial
  step p q := q.1 = p.1 ∨
    ∃ i r, IsRead r ∧ ok i r p.1 p.2 ∧ Returns (handles i) enter r p.1 p.2 q.1 q.2

variable {handle enter} {N off : Int} {rx : Rx} {s : σ} {inside : Databuf → Int → σ → Prop}

/-- A pass that ends a call which comes back leaves the state to its handler. -/
theorem ends_of_stop {rx' : Rx} {s' : σ} {e : Exit} (h : pass handle off rx s = .stop rx' s' e)
    (he : e = .done ∨ e = .leave) : (handle rx.databuf off s).Ends s' := by
  cases hh : handle rx.databuf off s with
  | fault x =>
    rw [pass_fault hh] at h
    cases h
    rcases he with he | he <;> cases he
  | leave t =>
    rw [pass_leave hh] at h
    cases h
    exact Or.inr rfl
  | next db t =>
    rw [pass_next hh] at h
    rw [advance_stop_state h]
    exact Or.inl ⟨db, rfl⟩

theorem ends_of_again {off' : Int} {rx' : Rx} {s' : σ}
    (h : pass handle off rx s = .again off' rx' s') :
    (handle rx.databuf off s).Ends s' := by
  cases hh : handle rx.databuf off s with
  | fault x =>
    rw [pass_fault hh] at h
    cases h
  | leave t =>
    rw [pass_leave hh] at h
    cases h
  | next db t =>
    rw [pass_next hh] at h
    rw [advance_again_state h]
    exact Or.inl ⟨db, rfl⟩

/-- A loop that comes to its end within its bound. -/
theorem returns_of_loop {r : List UInt8} {rx₀ rx' : Rx} {s₀ : σ} (fuel : Nat)
    (happend : append r rx₀ = some rx') (hreach : Reached handle rx' (enter s₀) off rx s)
    (hdone : (loop handle fuel off rx s).exit = .done) :
    Returns handle enter r rx₀ s₀ (loop handle fuel off rx s).rx
      (loop handle fuel off rx s).state := by
  induction fuel generalizing off rx s with
  | zero => cases hdone
  | succ fuel ih =>
    by_cases hne : rx.bytelen = 0
    · rw [loop_empty fuel hne]
      exact .empty happend hreach hne
    · cases hpass : pass handle off rx s with
      | again off' rx₁ s₁ =>
        rw [loop_again fuel hne hpass] at hdone ⊢
        exact ih (hreach.again hne hpass) hdone
      | stop rx₁ s₁ e =>
        rw [loop_stop fuel hne hpass] at hdone ⊢
        exact .stops happend hreach hne hpass (.inl hdone)

/-- So does a call that comes back within the bound. -/
theorem returns_of_done {r : List UInt8} (hdone : (tcpRecv handle enter r rx s).exit = .done) :
    Returns handle enter r rx s (tcpRecv handle enter r rx s).rx
      (tcpRecv handle enter r rx s).state := by
  cases happend : append r rx with
  | none =>
    simp only [tcpRecv, happend] at hdone
    cases hdone
  | some rx' =>
    cases hlen : rx'.databuf.loadI32 0 with
    | none =>
      simp only [tcpRecv, happend, hlen] at hdone
      cases hdone
    | some len =>
      by_cases hwait : len > rx'.bytelen
      · rw [tcpRecv_waits happend hlen hwait]
        exact .waits happend hlen hwait
      · have hcall : tcpRecv handle enter r rx s = loop handle loopFuel 0 rx' (enter s) := by
          simp only [tcpRecv, happend, hlen, if_neg hwait]
        rw [hcall] at hdone ⊢
        exact returns_of_loop loopFuel happend (.enter hlen (Int.not_lt.mp hwait)) hdone

end Receiver

/-! ## Both programs -/

/-- The connection that is read, and what the outside world answers meanwhile. -/
abbrev ServerInput := (Nat → NetmtServer.Env) × NetmtServer.Hio

abbrev serverHandle (i : ServerInput) : Handler NetmtServer.Server := NetmtServer.handle i.1 i.2

/-- All that the server's handler looks at lies in `databuf`. -/
def ServerReads (i : ServerInput) (db : Databuf) (off : Int) (s : NetmtServer.Server) : Prop :=
  Within off (NetmtServer.reach (i.1 s.tick) i.2 (frameAt db off) (behind db off) s)

def ClientReads (env : Nat → NetmtClient.Env) (db : Databuf) (off : Int)
    (c : NetmtClient.Client) : Prop :=
  Within off (NetmtClient.reach (env c.tick) (frameAt db off) (behind db off) c)

end NetmtReceiveBuffer
