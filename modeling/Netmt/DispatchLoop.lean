import Netmt.Client
import Netmt.Server

/-!
# The dispatch loop on arbitrary bytes

`while (bytelen != 0)` steps over frames by the length field that each of them
carries, and compares the next length field with what is left. Nothing else keeps
the loop going forward, and the field is whatever the peer wrote there.
-/
namespace NetmtDispatchLoop

open NetmtCommand NetmtTcpRecv

section Loop

variable {σ : Type} (handle : Handler σ)

/-- `tcp_recv` behind the append. -/
def dispatch (enter : σ → σ) (fuel : Nat) (rx : Rx) (s : σ) : Result σ :=
  match rx.databuf.loadI32 0 with
  | none => ⟨rx, s, [], .overrun⟩
  | some len => if len > rx.bytelen then ⟨rx, s, [], .done⟩ else loop handle fuel 0 rx (enter s)

/-- Where `comm` points and what is in the globals when the condition of the loop is
evaluated. -/
inductive Reached (rx : Rx) (s : σ) : Int → Rx → σ → Prop where
  | enter {len : Int} : rx.databuf.loadI32 0 = some len → len ≤ rx.bytelen → Reached rx s 0 rx s
  | again {off off' : Int} {rx₁ rx₂ : Rx} {s₁ s₂ : σ} : Reached rx s off rx₁ s₁ → rx₁.bytelen ≠ 0 →
      pass handle off rx₁ s₁ = .again off' rx₂ s₂ → Reached rx s off' rx₂ s₂

/-- The `switch` comes to its end, the length field is positive, and the one that it
leads to lies in `databuf`. -/
def Proceeds (off : Int) (rx : Rx) (s : σ) : Prop :=
  (∃ db s', handle rx.databuf off s = .next db s') ∧
    ∃ len, rx.databuf.loadI32 off = some len ∧ 0 < len ∧ off + len + 4 ≤ 20480

/-- `comm` points into the buffered bytes, of which `N` were there at first, and at a
frame that is complete by its length field. -/
structure Inside (N : Int) (off : Int) (rx : Rx) : Prop where
  start : 0 ≤ off
  buffered : 0 ≤ rx.bytelen
  total : off + rx.bytelen = N
  complete : ∃ len, rx.databuf.loadI32 off = some len ∧ len ≤ rx.bytelen

variable {handle} {N off : Int} {rx : Rx} {s : σ}

theorem tcpRecv_dispatch (enter : σ → σ) (buf : List UInt8) (rx : Rx) (s : σ) :
    tcpRecv handle enter buf rx s = match append buf rx with
      | none => ⟨rx, s, [], .overrun⟩
      | some rx' => dispatch handle enter loopFuel rx' s := rfl

/-- What a handler does to its frame leaves the length field alone. -/
theorem loadI32_agree {db db' : Databuf} {o : Nat} (h : AgreeOutside o db db') :
    db'.loadI32 o = db.loadI32 o :=
  loadI32_congr fun i hi => h (o + i) (by omega)

/-- A length field that leads to another one takes no more than an `int` holds. -/
theorem wrap_bytelen (hin : Inside N off rx) (hN : N ≤ 20480) {len : Int}
    (hl : 0 ≤ off + len) (hh : off + len + 4 ≤ 20480) :
    Region.wrap32 (rx.bytelen - len) = rx.bytelen - len := by
  have hoff := hin.start
  have hbytes := hin.buffered
  have htotal := hin.total
  exact Region.wrap32_of_range (by omega) (by omega)

/-- Of the bytes from `comm` on, those behind the frame go to the front. -/
theorem advance_moves (hin : Inside N off rx) (hN : N ≤ 20480) {len len' : Int}
    (hlen : rx.databuf.loadI32 off = some len) (hlen' : rx.databuf.loadI32 (off + len) = some len')
    (hgt : rx.bytelen - len < len') :
    ∃ db, advance off rx s = .stop ⟨db, rx.bytelen - len⟩ s .done := by
  obtain ⟨hl, hh⟩ := loadI32_in_range hlen'
  obtain ⟨len₀, hlen₀, hle⟩ := hin.complete
  rw [hlen] at hlen₀
  cases hlen₀
  have hoff := hin.start
  have htotal := hin.total
  obtain ⟨o, ho⟩ := Int.eq_ofNat_of_zero_le hl
  obtain ⟨n, hn⟩ := Int.eq_ofNat_of_zero_le (show 0 ≤ rx.bytelen - len by omega)
  have hmove : ∃ db, rx.databuf.moveToFront (off + len) (rx.bytelen - len) = some db := by
    rw [ho, hn]
    exact moveToFront_of_range rx.databuf (by omega)
  obtain ⟨db, hdb⟩ := hmove
  exact ⟨db, advance_stop s hlen hlen' (wrap_bytelen hin hN hl hh) hgt hdb⟩

/-- What the next pass finds. -/
theorem inside_again (hin : Inside N off rx) {db : Databuf} {len len' : Int}
    (hlen : rx.databuf.loadI32 off = some len) (hlen' : db.loadI32 (off + len) = some len')
    (hle : len' ≤ rx.bytelen - len) : Inside N (off + len) ⟨db, rx.bytelen - len⟩ := by
  obtain ⟨hl, hh⟩ := loadI32_in_range hlen'
  obtain ⟨len₀, hlen₀, hcomplete⟩ := hin.complete
  rw [hlen] at hlen₀
  cases hlen₀
  have htotal := hin.total
  exact ⟨hl, (by simp only; omega), (by simp only; omega), len', hlen', hle⟩

/-- The handler's edits do not move `comm` out of the buffered bytes. -/
theorem Inside.edited (hl : Local handle) (hin : Inside N off rx) {db : Databuf} {s' : σ}
    (h : handle rx.databuf off s = .next db s') :
    Inside N off ⟨db, rx.bytelen⟩ ∧ db.loadI32 off = rx.databuf.loadI32 off := by
  obtain ⟨o, rfl⟩ := Int.eq_ofNat_of_zero_le hin.start
  have hsame := loadI32_agree (hl rx.databuf db o s s' h)
  refine ⟨⟨hin.start, hin.buffered, hin.total, ?_⟩, hsame⟩
  obtain ⟨len, hlen, hle⟩ := hin.complete
  exact ⟨len, hsame.trans hlen, hle⟩

/-- A pass that proceeds goes on inside the buffered bytes, or ends the loop. -/
theorem pass_proceeds (hl : Local handle) (hN : N ≤ 20480) (hin : Inside N off rx)
    (h : Proceeds handle off rx s) :
    (∃ off' rx' s', pass handle off rx s = .again off' rx' s' ∧ Inside N off' rx' ∧
      rx'.bytelen < rx.bytelen) ∨
    ∃ rx' s', pass handle off rx s = .stop rx' s' .done ∧ 0 ≤ rx'.bytelen ∧
      rx'.bytelen < rx.bytelen := by
  obtain ⟨⟨db, s', hnext⟩, len, hlen, hpos, hfit⟩ := h
  obtain ⟨hin', hsame⟩ := hin.edited hl hnext
  have hoff := hin.start
  obtain ⟨len', hlen'⟩ := loadI32_of_range db (show 0 ≤ off + len by omega) (by omega)
  have hwrap : Region.wrap32 (rx.bytelen - len) = rx.bytelen - len :=
    wrap_bytelen hin hN (by omega) (by omega)
  rw [pass_next hnext]
  have hlen₁ : db.loadI32 off = some len := hsame.trans hlen
  by_cases hle : len' ≤ rx.bytelen - len
  · left
    refine ⟨off + len, ⟨db, rx.bytelen - len⟩, s', ?_, inside_again hin hlen hlen' hle, by
      simp only
      omega⟩
    exact advance_again s' hlen₁ hlen' hwrap hle
  · right
    obtain ⟨db', hadv⟩ := advance_moves (s := s') hin' hN hlen₁ hlen' (Int.not_le.mp hle)
    obtain ⟨len₀, hlen₀, hcomplete⟩ := hin.complete
    rw [hlen] at hlen₀
    cases hlen₀
    exact ⟨_, s', hadv, by simp only; omega, by simp only; omega⟩

/-- The loop is not entered in front of an incomplete frame. -/
theorem Reached.complete {rx₀ : Rx} {s₀ : σ} (hr : Reached handle rx₀ s₀ off rx s) :
    ∃ len, rx₀.databuf.loadI32 0 = some len ∧ len ≤ rx₀.bytelen := by
  induction hr with
  | enter hlen hle => exact ⟨_, hlen, hle⟩
  | again _ _ _ ih => exact ih

/-- As long as every pass proceeds, `comm` stays inside. -/
theorem Reached.inside (hl : Local handle) (hN : N ≤ 20480) {rx₀ : Rx} {s₀ : σ}
    (hfirst : Inside N 0 rx₀)
    (h : ∀ off rx₁ s₁, Reached handle rx₀ s₀ off rx₁ s₁ → rx₁.bytelen ≠ 0 →
      Inside N off rx₁ → Proceeds handle off rx₁ s₁) (hr : Reached handle rx₀ s₀ off rx s) :
    Inside N off rx := by
  induction hr with
  | enter _ _ => exact hfirst
  | again hreach hne hpass ih =>
    rcases pass_proceeds hl hN ih (h _ _ _ hreach hne ih) with ⟨_, _, _, hpass',
      hin, -⟩ | ⟨_, _, hpass', -⟩
    · rw [hpass] at hpass'
      cases hpass'
      exact hin
    · rw [hpass] at hpass'
      cases hpass'

end Loop

/-- A frame that neither program does anything for. -/
def idle : Frame := setLen (Region.zero 5168)

theorem idle_id : idle.u32 commonid = 0 := by
  rw [idle, setLen, Region.putI32, Region.u32_put_other _ _ _ _ (by simp)
    (by simp), Region.u32_zero]

theorem server_idle (e : NetmtServer.Env) (io : NetmtServer.Hio) (tail : List UInt8)
    (s : NetmtServer.Server) : NetmtServer.switch e io idle tail s = .next s := by
  exact NetmtServer.switch_other (by rw [idle_id]; decide)

theorem client_idle (e : NetmtClient.Env) (tail : List UInt8) (c : NetmtClient.Client) :
    NetmtClient.switch e idle tail c = .next c := by
  exact NetmtClient.switch_other (by rw [idle_id]; decide)

end NetmtDispatchLoop
