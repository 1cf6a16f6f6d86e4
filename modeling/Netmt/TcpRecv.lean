import Netmt.Command
import Netmt.Lib.Framing

/-!
# The receive callback

Both programs carry the same reassembly loop around their own `switch`: the
bytes of a read are appended to `databuf`, and while the length field of the
frame in front does not exceed `bytelen`, the frame is handled and skipped.
The loop is modelled once, over the handler; a handler may edit the frame in
place, leave `tcp_recv` from inside the `switch`, or never come back.
-/
namespace NetmtTcpRecv

open NetmtCommand

/-- `outOfBounds` is an access outside `databuf`, `localBuffer` one outside a local array. -/
inductive Fault where
  | outOfBounds | localBuffer | nullFile | closedFile | nullSendbuf | nullUserdata | deadlock
  deriving DecidableEq, Repr

/-- How the `switch` ends for one frame. -/
inductive Outcome (σ : Type) where
  /-- control reaches `bytelen -= comm->len` -/
  | next : Databuf → σ → Outcome σ
  /-- `return` from `tcp_recv` -/
  | leave : σ → Outcome σ
  | fault : Fault → Outcome σ

/-- A `switch` on `comm`, given as `databuf` and an offset into it. -/
abbrev Handler (σ : Type) := Databuf → Int → σ → Outcome σ

/-- The globals of the reassembly. -/
structure Rx where
  databuf : Databuf
  bytelen : Int

def Rx.initial : Rx := ⟨Region.zero 20480, 0⟩

inductive Exit where
  | done
  | leave
  | handlerFault : Fault → Exit
  | overrun
  | stuck
  deriving DecidableEq, Repr

/-- The handler, and not the reassembly, ended the call. -/
def Exit.early : Exit → Bool
  | .leave => true
  | .handlerFault _ => true
  | _ => false

/-- One pass through the `switch`: where `comm` pointed, what lay there, and the
value of `bytelen`. -/
structure Dispatch where
  off : Int
  comm : List UInt8
  bytelen : Int
  deriving DecidableEq

structure Result (σ : Type) where
  rx : Rx
  state : σ
  dispatched : List Dispatch
  exit : Exit

def Result.after {σ : Type} (d : Dispatch) (r : Result σ) : Result σ :=
  { r with dispatched := d :: r.dispatched }

@[simp] theorem Result.after_rx {σ : Type} (d : Dispatch) (r : Result σ) :
    (r.after d).rx = r.rx := rfl
@[simp] theorem Result.after_state {σ : Type} (d : Dispatch) (r : Result σ) :
    (r.after d).state = r.state := rfl
@[simp] theorem Result.after_dispatched {σ : Type} (d : Dispatch) (r : Result σ) :
    (r.after d).dispatched = d :: r.dispatched := rfl
@[simp] theorem Result.after_exit {σ : Type} (d : Dispatch) (r : Result σ) :
    (r.after d).exit = r.exit := rfl

def commAt (db : Databuf) (off : Int) : List UInt8 := Region.slice off.toNat 5168 db.bytes

/-- How one pass through the loop body ends. -/
inductive Pass (σ : Type) where
  | stop : Rx → σ → Exit → Pass σ
  | again : Int → Rx → σ → Pass σ

/-- Step over the frame that was handled, and look at the length field behind it. -/
def advance {σ : Type} (off : Int) (rx : Rx) (s : σ) : Pass σ :=
  match rx.databuf.loadI32 off with
  | none => .stop rx s .overrun
  | some len =>
    let rx' : Rx := ⟨rx.databuf, Region.wrap32 (rx.bytelen - len)⟩
    match rx.databuf.loadI32 (off + len) with
    | none => .stop rx' s .overrun
    | some len' =>
      if len' > rx'.bytelen then
        match rx.databuf.moveToFront (off + len) rx'.bytelen with
        | none => .stop rx' s .overrun
        | some db => .stop ⟨db, rx'.bytelen⟩ s .done
      else .again (off + len) rx' s

theorem advance_again {σ : Type} {off : Int} {rx : Rx} {len len' n : Int} (s : σ)
    (hl : rx.databuf.loadI32 off = some len) (hl' : rx.databuf.loadI32 (off + len) = some len')
    (hn : Region.wrap32 (rx.bytelen - len) = n) (hle : len' ≤ n) :
    advance off rx s = .again (off + len) ⟨rx.databuf, n⟩ s := by
  subst hn
  simp only [advance, hl, hl', gt_iff_lt, Int.not_lt.mpr hle, if_false]

theorem advance_stop {σ : Type} {off : Int} {rx : Rx} {len len' n : Int} {db : Databuf} (s : σ)
    (hl : rx.databuf.loadI32 off = some len) (hl' : rx.databuf.loadI32 (off + len) = some len')
    (hn : Region.wrap32 (rx.bytelen - len) = n) (hgt : n < len')
    (hmove : rx.databuf.moveToFront (off + len) n = some db) :
    advance off rx s = .stop ⟨db, n⟩ s .done := by
  subst hn
  simp only [advance, hl, hl', gt_iff_lt, hgt, if_true, hmove]

/-- What the step comes to, one constructor for each branch. -/
inductive AdvanceStep {σ : Type} (off : Int) (rx : Rx) (s : σ) : Pass σ → Prop where
  | noLength : rx.databuf.loadI32 off = none → AdvanceStep off rx s (.stop rx s .overrun)
  | noNext {len : Int} : rx.databuf.loadI32 off = some len → rx.databuf.loadI32 (off + len) = none →
      AdvanceStep off rx s (.stop ⟨rx.databuf, Region.wrap32 (rx.bytelen - len)⟩ s .overrun)
  | noMove {len len' : Int} : rx.databuf.loadI32 off = some len →
      rx.databuf.loadI32 (off + len) = some len' → Region.wrap32 (rx.bytelen - len) < len' →
      rx.databuf.moveToFront (off + len) (Region.wrap32 (rx.bytelen - len)) = none →
      AdvanceStep off rx s (.stop ⟨rx.databuf, Region.wrap32 (rx.bytelen - len)⟩ s .overrun)
  | moved {len len' : Int} {db : Databuf} : rx.databuf.loadI32 off = some len →
      rx.databuf.loadI32 (off + len) = some len' → Region.wrap32 (rx.bytelen - len) < len' →
      rx.databuf.moveToFront (off + len) (Region.wrap32 (rx.bytelen - len)) = some db →
      AdvanceStep off rx s (.stop ⟨db, Region.wrap32 (rx.bytelen - len)⟩ s .done)
  | again {len len' : Int} : rx.databuf.loadI32 off = some len →
      rx.databuf.loadI32 (off + len) = some len' → len' ≤ Region.wrap32 (rx.bytelen - len) →
      AdvanceStep off rx s (.again (off + len) ⟨rx.databuf, Region.wrap32 (rx.bytelen - len)⟩ s)

theorem advance_cases {σ : Type} {off : Int} {rx : Rx} {s : σ} {p : Pass σ}
    (h : advance off rx s = p) :
    AdvanceStep off rx s p := by
  rw [← h]
  simp only [advance]
  split
  · next hlen => exact .noLength hlen
  · next len hlen =>
    split
    · next hlen' => exact .noNext hlen hlen'
    · next len' hlen' =>
      split
      · next hgt =>
        split
        · next hmove => exact .noMove hlen hlen' hgt hmove
        · next db hmove => exact .moved hlen hlen' hgt hmove
      · next hle => exact .again hlen hlen' (Int.not_lt.mp hle)

def pass {σ : Type} (handle : Handler σ) (off : Int) (rx : Rx) (s : σ) : Pass σ :=
  match handle rx.databuf off s with
  | .fault e => .stop rx s (.handlerFault e)
  | .leave s' => .stop rx s' .leave
  | .next db s' => advance off ⟨db, rx.bytelen⟩ s'

/-- `while (bytelen != 0)`, with a bound on the number of passes. -/
def loop {σ : Type} (handle : Handler σ) : Nat → Int → Rx → σ → Result σ
  | 0, _, rx, s => ⟨rx, s, [], .stuck⟩
  | fuel + 1, off, rx, s =>
    if rx.bytelen = 0 then ⟨rx, s, [], .done⟩
    else
      let d : Dispatch := ⟨off, commAt rx.databuf off, rx.bytelen⟩
      match pass handle off rx s with
      | .stop rx' s' e => ⟨rx', s', [d], e⟩
      | .again off' rx' s' => (loop handle fuel off' rx' s').after d

section Loop

variable {σ : Type} {handle : Handler σ} {off : Int} {rx : Rx} {s : σ}

theorem pass_next {db : Databuf} {s' : σ} (h : handle rx.databuf off s = .next db s') :
    pass handle off rx s = advance off ⟨db, rx.bytelen⟩ s' := by
  simp only [pass, h]

theorem pass_leave {s' : σ} (h : handle rx.databuf off s = .leave s') :
    pass handle off rx s = .stop rx s' .leave := by
  simp only [pass, h]

theorem pass_fault {e : Fault} (h : handle rx.databuf off s = .fault e) :
    pass handle off rx s = .stop rx s (.handlerFault e) := by
  simp only [pass, h]

theorem loop_empty (fuel : Nat) (h : rx.bytelen = 0) :
    loop handle (fuel + 1) off rx s = ⟨rx, s, [], .done⟩ := by
  simp only [loop, h, if_true]

theorem loop_stop (fuel : Nat) {rx' : Rx} {s' : σ} {e : Exit} (h : rx.bytelen ≠ 0)
    (hp : pass handle off rx s = .stop rx' s' e) :
    loop handle (fuel + 1) off rx s = ⟨rx', s', [⟨off, commAt rx.databuf off, rx.bytelen⟩], e⟩ := by
  simp only [loop, h, if_false, hp]

theorem loop_again (fuel : Nat) {off' : Int} {rx' : Rx} {s' : σ} (h : rx.bytelen ≠ 0)
    (hp : pass handle off rx s = .again off' rx' s') :
    loop handle (fuel + 1) off rx s =
      (loop handle fuel off' rx' s').after ⟨off, commAt rx.databuf off, rx.bytelen⟩ := by
  simp only [loop, h, if_false, hp]

end Loop

/-- Enough passes for a loop that consumes a byte of `databuf` in each. -/
def loopFuel : Nat := DATABUF + 1

/-- Append the read to `databuf`. -/
def append (buf : List UInt8) (rx : Rx) : Option Rx :=
  if rx.bytelen = 0 then (rx.databuf.store 0 buf).map (⟨·, buf.length⟩)
  else (rx.databuf.store rx.bytelen buf).map (⟨·, Region.wrap32 (rx.bytelen + buf.length)⟩)

/-- `tcp_recv` around the handler; `enter` allocates what is local to a call. -/
def tcpRecv {σ : Type} (handle : Handler σ) (enter : σ → σ) (buf : List UInt8) (rx : Rx) (s : σ) :
    Result σ :=
  match append buf rx with
  | none => ⟨rx, s, [], .overrun⟩
  | some rx' =>
    match rx'.databuf.loadI32 0 with
    | none => ⟨rx', s, [], .overrun⟩
    | some len =>
      if len > rx'.bytelen then ⟨rx', s, [], .done⟩ else loop handle loopFuel 0 rx' (enter s)

/-- A call that finds no complete frame in front. -/
theorem tcpRecv_waits {σ : Type} {handle : Handler σ} {enter : σ → σ} {buf : List UInt8}
    {rx rx' : Rx} {s : σ} {len : Int} (ha : append buf rx = some rx')
    (hl : rx'.databuf.loadI32 0 = some len) (h : rx'.bytelen < len) :
    tcpRecv handle enter buf rx s = ⟨rx', s, [], .done⟩ := by
  simp only [tcpRecv, ha, hl, gt_iff_lt, h, if_true]

/-! ## Contents of the buffer -/

/-- `db` holds the bytes `w` from offset `o`. -/
def HasAt (db : Databuf) (o : Nat) (w : List UInt8) : Prop :=
  ∀ i, i < w.length → db.bytes[o + i]? = w[i]?

/-- The sign byte of every length field that can be looked at is zero: frames
only ever start at multiples of their size, so nothing else is written there. -/
def Aligned (db : Databuf) : Prop :=
  ∀ o, 5168 ∣ o → o + 3 < 20480 → db.bytes[o + 3]? = some 0

/-- What a handler may change in `databuf`: the frame it was given, behind its
length field. -/
def AgreeOutside (off : Nat) (db db' : Databuf) : Prop :=
  ∀ i, i < off + 4 ∨ off + 5168 ≤ i → db'.bytes[i]? = db.bytes[i]?

def Local {σ : Type} (handle : Handler σ) : Prop :=
  ∀ (db db' : Databuf) (off : Nat) (s s' : σ), handle db off s = .next db' s' →
    AgreeOutside off db db'

theorem AgreeOutside.refl (off : Nat) (db : Databuf) : AgreeOutside off db db := fun _ _ => rfl

theorem hasAt_append (db : Databuf) (o : Nat) (u v : List UInt8) :
    HasAt db o (u ++ v) ↔ HasAt db o u ∧ HasAt db (o + u.length) v := by
  constructor
  · intro h
    constructor
    · intro i hi
      rw [h i (by simp; omega), List.getElem?_append_left hi]
    · intro i hi
      rw [Nat.add_assoc, h (u.length + i) (by simp; omega), List.getElem?_append_right (by omega)]
      congr 1
      omega
  · rintro ⟨hu, hv⟩ i hi
    by_cases hlt : i < u.length
    · rw [hu i hlt, List.getElem?_append_left hlt]
    · have hv' := hv (i - u.length) (by simp at hi; omega)
      rw [List.getElem?_append_right (by omega), ← hv']
      congr 1
      omega

theorem slice_of_hasAt (db : Databuf) (o : Nat) (w : List UInt8) (h : HasAt db o w) :
    Region.slice o w.length db.bytes = w := by
  apply List.ext_getElem?
  intro i
  rw [Region.getElem?_slice]
  by_cases hi : i < w.length
  · rw [if_pos hi, h i hi]
  · rw [if_neg hi, List.getElem?_eq_none (by omega)]

theorem commAt_of_hasAt (db : Databuf) (o : Nat) (f : Frame) (h : HasAt db o f.bytes) :
    commAt db o = f.bytes := by
  have hs := slice_of_hasAt db o f.bytes h
  rw [f.length_bytes] at hs
  rw [commAt, Int.toNat_natCast, hs]

theorem HasAt.agree {db db' : Databuf} {off o : Nat} {w : List UInt8} (h : HasAt db o w)
    (ha : AgreeOutside off db db') (hd : o + w.length ≤ off + 4 ∨ off + 5168 ≤ o) :
    HasAt db' o w := by
  intro i hi
  rw [ha (o + i) (by omega), h i hi]

theorem Aligned.agree {db db' : Databuf} {off : Nat} (h : Aligned db) (hoff : 5168 ∣ off)
    (ha : AgreeOutside off db db') : Aligned db' := by
  intro o ho hlt
  rw [ha (o + 3) (by omega), h o ho hlt]

theorem aligned_initial : Aligned Rx.initial.databuf := by
  intro o ho hj
  change (List.replicate 20480 (0 : UInt8))[o + 3]? = some 0
  rw [List.getElem?_replicate, if_pos hj]

/-! ## Well-formed streams -/

/-- The bytes of a list of frames. -/
def stream (fs : List Frame) : List UInt8 := (fs.map Region.bytes).flatten

@[simp] theorem stream_nil : stream [] = [] := rfl
@[simp] theorem stream_cons (f : Frame) (fs : List Frame) :
    stream (f :: fs) = f.bytes ++ stream fs := rfl
@[simp] theorem length_stream (fs : List Frame) : (stream fs).length = 5168 * fs.length := by
  induction fs with
  | nil => rfl
  | cons f fs ih => simp [ih]; ring

/-- A proper prefix of a well-sized frame. -/
def Partial (q : List UInt8) : Prop :=
  q.length < 5168 ∧ ∃ f : Frame, WellSized f ∧ q <+: f.bytes

theorem partial_nil : Partial [] := ⟨by simp, setLen default, wellSized_setLen _, List.nil_prefix⟩

theorem header_byte (f : Frame) (h : WellSized f) (i : Nat) (hi : i < 4) :
    f.bytes[i]? = [0x30, 0x14, 0, 0][i]? := by
  rw [← header_bytes f h, List.getElem?_take, if_pos hi]

theorem Partial.header_byte {q : List UInt8} (hq : Partial q) (i : Nat) (hi : i < 4)
    (hlt : i < q.length) : q[i]? = [0x30, 0x14, 0, 0][i]? := by
  obtain ⟨_, f, hf, hp⟩ := hq
  have hget := List.prefix_iff_getElem?.mp hp i hlt
  rw [← NetmtTcpRecv.header_byte f hf i hi, hget, List.getElem?_eq_getElem hlt]

/-- Every sign byte of a stream of well-sized frames is zero. -/
theorem stream_sign_byte (fs : List Frame) (hfs : ∀ f ∈ fs, WellSized f) (q : List UInt8)
    (hq : Partial q) (o : Nat) (ho : 5168 ∣ o) (hlt : o + 3 < (stream fs ++ q).length) :
    (stream fs ++ q)[o + 3]? = some 0 := by
  induction fs generalizing o with
  | nil =>
    have hlen := hq.1
    simp only [stream_nil, List.nil_append] at hlt ⊢
    obtain rfl : o = 0 := by omega
    exact hq.header_byte 3 (by decide) hlt
  | cons f fs ih =>
    simp only [stream_cons, List.append_assoc]
    by_cases hz : o = 0
    · subst hz
      rw [List.getElem?_append_left (by simp)]
      exact header_byte f (hfs f (by simp)) 3 (by decide)
    · rw [List.getElem?_append_right (by simp; omega), f.length_bytes]
      have he : o + 3 - 5168 = o - 5168 + 3 := by omega
      rw [he]
      apply ih (fun g hg => hfs g (by simp [hg])) _ (by omega)
      simp only [List.length_append, length_stream, List.length_cons] at hlt ⊢
      omega

/-! ## The length test -/

theorem loadI32_of_bytes (db : Databuf) (o : Nat) (b₀ b₁ b₂ b₃ : UInt8)
    (h₀ : db.bytes[o]? = some b₀) (h₁ : db.bytes[o + 1]? = some b₁)
    (h₂ : db.bytes[o + 2]? = some b₂) (h₃ : db.bytes[o + 3]? = some b₃) :
    db.loadI32 o = some (Region.i32OfBytes [b₀, b₁, b₂, b₃]) := by
  have hlen : o + 3 < 20480 := by
    have := (List.getElem?_eq_some_iff.mp h₃).1
    simpa using this
  have hs : Region.slice o 4 db.bytes = [b₀, b₁, b₂, b₃] := by
    apply slice_of_hasAt db o [b₀, b₁, b₂, b₃]
    intro i hi
    match i with
    | 0 => exact h₀
    | 1 => exact h₁
    | 2 => exact h₂
    | 3 => exact h₃
    | i + 4 => simp at hi
  rw [Region.loadI32, Region.load_eq db o 4 (by omega), hs]
  rfl

theorem loadI32_in_range {db : Databuf} {off len : Int} (h : db.loadI32 off = some len) :
    0 ≤ off ∧ off + 4 ≤ 20480 := by
  rw [Region.loadI32, Region.load] at h
  split at h
  · next hrange => exact hrange
  · cases h

theorem loadI32_of_range {off : Int} (db : Databuf) (hl : 0 ≤ off) (hh : off + 4 ≤ 20480) :
    ∃ len, db.loadI32 off = some len := by
  rw [Region.loadI32, Region.load, if_pos ⟨hl, hh⟩]
  exact ⟨_, rfl⟩

theorem loadI32_congr {db db' : Databuf} {o : Nat}
    (h : ∀ i, i < 4 → db'.bytes[o + i]? = db.bytes[o + i]?) : db'.loadI32 o = db.loadI32 o := by
  have hslice : Region.slice o 4 db'.bytes = Region.slice o 4 db.bytes := by
    apply List.ext_getElem?
    intro i
    rw [Region.getElem?_slice, Region.getElem?_slice]
    split
    · next hi => exact h i hi
    · rfl
  simp only [Region.loadI32, Region.load, Int.toNat_natCast, hslice]

/-- A length field with a zero sign byte is not negative, and its value is the
three bytes below. -/
theorem i32OfBytes_sign (b₀ b₁ b₂ : UInt8) :
    Region.i32OfBytes [b₀, b₁, b₂, 0] = b₀.toNat + 256 * b₁.toNat + 65536 * b₂.toNat := by
  have h₀ := b₀.toNat_lt
  have h₁ := b₁.toNat_lt
  have h₂ := b₂.toNat_lt
  have he : Region.leNat [b₀, b₁, b₂, 0] = b₀.toNat + 256 * b₁.toNat + 65536 * b₂.toNat := by
    simp only [Region.leNat, UInt8.toNat_zero]
    omega
  rw [Region.i32OfBytes, he, Region.wrap32_of_range (by omega) (by omega)]
  push_cast
  ring

theorem loadI32_frame (db : Databuf) (o : Nat) (f : Frame) (hf : WellSized f)
    (h : HasAt db o f.bytes) : db.loadI32 o = some 5168 := by
  have hb : ∀ i, i < 4 → db.bytes[o + i]? = [0x30, 0x14, 0, 0][i]? := by
    intro i hi
    rw [h i (by simp; omega), header_byte f hf i hi]
  rw [loadI32_of_bytes db o 0x30 0x14 0 0 (hb 0 (by decide)) (hb 1 (by decide))
    (hb 2 (by decide)) (hb 3 (by decide)), i32OfBytes_sign]
  rfl

/-- The length field in front of an incomplete frame, read partly from stale
bytes when fewer than four have arrived, exceeds the number of bytes there. -/
theorem loadI32_partial (db : Databuf) (o : Nat) (q : List UInt8) (hq : Partial q)
    (ha : Aligned db) (ho : 5168 ∣ o) (hlt : o + 3 < 20480) (h : HasAt db o q) :
    ∃ v, db.loadI32 o = some v ∧ 0 ≤ v ∧ (q ≠ [] → (q.length : Int) < v) := by
  have hget : ∀ i, i < 4 → ∃ b, db.bytes[o + i]? = some b := by
    intro i hi
    exact ⟨_, List.getElem?_eq_getElem (by rw [db.length_bytes]; omega)⟩
  obtain ⟨b₀, h₀⟩ := hget 0 (by decide)
  obtain ⟨b₁, h₁⟩ := hget 1 (by decide)
  obtain ⟨b₂, h₂⟩ := hget 2 (by decide)
  have hload := loadI32_of_bytes db o b₀ b₁ b₂ 0 h₀ h₁ h₂ (ha o ho hlt)
  rw [i32OfBytes_sign] at hload
  refine ⟨_, hload, by omega, ?_⟩
  intro hne
  have hpos := List.length_pos_iff.mpr hne
  have hbyte : ∀ i b, i < 4 → i < q.length → db.bytes[o + i]? = some b →
      [0x30, 0x14, 0, 0][i]? = some b := by
    intro i b hi hi' hb
    rw [← hq.header_byte i hi hi', ← h i hi', hb]
  have e₀ : (0x30 : UInt8) = b₀ := by simpa using hbyte 0 b₀ (by decide) hpos h₀
  subst e₀
  have hlow : (0x30 : UInt8).toNat = 48 := rfl
  by_cases hfour : 4 ≤ q.length
  · have e₁ : (0x14 : UInt8) = b₁ := by simpa using hbyte 1 b₁ (by decide) (by omega) h₁
    have hmid : (0x14 : UInt8).toNat = 20 := rfl
    have hlen := hq.1
    subst e₁
    omega
  · omega

/-! ## Moving bytes -/

theorem getElem?_store {db db' : Databuf} {o : Nat} {w : List UInt8}
    (h : db.store o w = some db') (i : Nat) :
    db'.bytes[i]? = if i < o then db.bytes[i]? else if i < o + w.length then w[i - o]?
      else db.bytes[i]? := by
  rw [Region.store] at h
  split at h
  · next hc =>
    cases h
    change (Region.patch o w db.bytes)[i]? = _
    rw [Region.getElem?_patch _ _ _ (by rw [db.length_bytes]; omega)]
  · cases h

theorem hasAt_store {db db' : Databuf} {o : Nat} {w : List UInt8} (h : db.store o w = some db') :
    HasAt db' o w := by
  intro i hi
  rw [getElem?_store h, if_neg (by omega), if_pos (by omega)]
  congr 1
  omega

theorem HasAt.store_behind {db db' : Databuf} {o : Nat} {u w : List UInt8}
    (hu : HasAt db 0 u) (h : db.store o w = some db') (hd : u.length ≤ o) : HasAt db' 0 u := by
  intro i hi
  rw [getElem?_store h, if_pos (by omega), hu i hi]

/-- What the invariant keeps between calls: an incomplete frame in front of the
buffer, and zero sign bytes. -/
structure Holds (rx : Rx) (q : List UInt8) : Prop where
  incomplete : Partial q
  bytelen : rx.bytelen = q.length
  front : HasAt rx.databuf 0 q
  aligned : Aligned rx.databuf

theorem holds_initial : Holds Rx.initial [] :=
  ⟨partial_nil, rfl, fun i hi => by simp at hi, aligned_initial⟩

/-- Appending a read keeps the sign bytes, since the stream stays framed. -/
theorem append_holds {rx : Rx} {p r : List UInt8} (h : Holds rx p) (hr : r.length ≤ 8192)
    (fs : List Frame) (hfs : ∀ f ∈ fs, WellSized f) (q : List UInt8) (hq : Partial q)
    (he : p ++ r = stream fs ++ q) :
    ∃ db, append r rx = some ⟨db, (stream fs ++ q).length⟩ ∧ HasAt db 0 (stream fs ++ q) ∧
      Aligned db := by
  have hp := h.incomplete.1
  have hstore := Region.store_eq rx.databuf p.length r (by omega)
  let db : Databuf := ⟨Region.patch p.length r rx.databuf.bytes, by simp⟩
  have hcat : HasAt db 0 (stream fs ++ q) := by
    rw [← he, hasAt_append]
    refine ⟨h.front.store_behind hstore (le_refl _), ?_⟩
    rw [Nat.zero_add]
    exact hasAt_store hstore
  refine ⟨db, ?_, hcat, ?_⟩
  · rw [← he, List.length_append, append, h.bytelen]
    by_cases hz : p = []
    · subst hz
      have hs : rx.databuf.store 0 r = some db := hstore
      simp [hs]
    · have hne : (p.length : Int) ≠ 0 := by
        have := List.length_pos_iff.mpr hz
        omega
      rw [if_neg hne, hstore, Region.wrap32_of_range (by omega) (by omega)]
      simp [db]
  · intro o ho hj
    by_cases hlt : o + 3 < (stream fs ++ q).length
    · have hc := hcat (o + 3) hlt
      rw [Nat.zero_add] at hc
      rw [hc, stream_sign_byte fs hfs q hq o ho hlt]
    · have hlen : (stream fs ++ q).length = p.length + r.length := by
        rw [← he, List.length_append]
      rw [getElem?_store hstore, if_neg (by omega), if_neg (by omega), h.aligned o ho hj]

theorem moveToFront_of_range (db : Databuf) {o n : Nat} (h : o + n ≤ 20480) :
    ∃ db', db.moveToFront o n = some db' := by
  have hstore := Region.store_eq db 0 (Region.slice o n db.bytes) (by
    rw [Region.length_slice, db.length_bytes]
    omega)
  rw [Region.moveToFront, if_neg (by omega), Int.toNat_natCast, Region.load_eq _ _ _ h,
    Option.bind_some]
  exact ⟨_, hstore⟩

/-- `memmove` of an incomplete frame to the front. -/
theorem moveToFront_holds (db : Databuf) (o : Nat) (q : List UInt8) (hq : Partial q)
    (ha : Aligned db) (h : HasAt db o q) (ho : o + q.length ≤ 20480) :
    ∃ db', db.moveToFront o q.length = some db' ∧ Holds ⟨db', q.length⟩ q := by
  have hload := Region.load_eq db o q.length ho
  rw [slice_of_hasAt db o q h] at hload
  have hstore := Region.store_eq db 0 q (by omega)
  refine ⟨_, ?_, hq, rfl, hasAt_store hstore, ?_⟩
  · rw [Region.moveToFront, if_neg (by omega), Int.toNat_natCast, hload, Option.bind_some]
    exact hstore
  · intro i hi hlt
    rw [getElem?_store hstore, if_neg (by omega)]
    split
    · next hfront =>
      have hlen := hq.1
      obtain rfl : i = 0 := by omega
      exact hq.header_byte 3 (by decide) (by omega)
    · exact ha i hi hlt

/-! ## One call -/

/-- The frames `fs` were handled one after the other, each to its end. -/
inductive Handled {σ : Type} (handle : Handler σ) : List Frame → σ → σ → Prop where
  | nil (s : σ) : Handled handle [] s s
  | cons {f : Frame} {fs : List Frame} {db db' : Databuf} {off : Nat} {s s₁ s₂ : σ} :
      HasAt db off f.bytes → handle db off s = .next db' s₁ → Handled handle fs s₁ s₂ →
      Handled handle (f :: fs) s s₂

/-- Some frame of `fs` was reached whose handler did not come to its end. -/
def LeftEarly {σ : Type} (handle : Handler σ) (fs : List Frame) (s : σ) : Prop :=
  ∃ (fs₁ fs₂ : List Frame) (f : Frame) (db : Databuf) (off : Nat) (s₁ : σ),
    fs = fs₁ ++ f :: fs₂ ∧ Handled handle fs₁ s s₁ ∧ HasAt db off f.bytes ∧
      ∀ db' s', handle db off s₁ ≠ .next db' s'

/-- The handler of a frame of `fs` ended the call: the frames in front of it were
stepped over, and `bytelen` still counts it and what is behind. -/
def Stopped {σ : Type} (handle : Handler σ) (q : List UInt8) (fs : List Frame) (s : σ)
    (r : Result σ) : Prop :=
  ∃ (fs₁ fs₂ : List Frame) (f : Frame) (db : Databuf) (off : Nat) (s₁ : σ),
    fs = fs₁ ++ f :: fs₂ ∧ Handled handle fs₁ s s₁ ∧ HasAt db off f.bytes ∧
      r.dispatched.map Dispatch.comm = (fs₁ ++ [f]).map Region.bytes ∧
      r.rx = ⟨db, (stream (f :: fs₂) ++ q).length⟩ ∧
      ((handle db off s₁ = .leave r.state ∧ r.exit = .leave) ∨
        ∃ e, handle db off s₁ = .fault e ∧ r.exit = .handlerFault e)

theorem Stopped.cons {σ : Type} {handle : Handler σ} {q : List UInt8} {f : Frame} {fs : List Frame}
    {db db' : Databuf} {off : Nat} {s s₁ : σ} {d : Dispatch} {r : Result σ}
    (hat : HasAt db off f.bytes) (hnext : handle db off s = .next db' s₁) (hd : d.comm = f.bytes)
    (h : Stopped handle q fs s₁ r) : Stopped handle q (f :: fs) s (r.after d) := by
  obtain ⟨fs₁, fs₂, g, db₁, off₁, s₂, he, hh, hg, hcomm, hrx, hend⟩ := h
  refine ⟨f :: fs₁, fs₂, g, db₁, off₁,
    s₂, by rw [he, List.cons_append], .cons hat hnext hh, hg, ?_, hrx, hend⟩
  rw [Result.after_dispatched, List.map_cons, hcomm, hd, List.cons_append, List.map_cons]

theorem Stopped.early {σ : Type} {handle : Handler σ} {q : List UInt8} {fs : List Frame} {s : σ}
    {r : Result σ} (h : Stopped handle q fs s r) : r.exit.early = true ∧ LeftEarly handle fs s := by
  obtain ⟨fs₁, fs₂, f, db, off, s₁, he, hh, hat, -, -, hend⟩ := h
  cases hend with
  | inl hleave =>
    refine ⟨by rw [hleave.2]; rfl, fs₁, fs₂, f, db, off, s₁, he, hh, hat, fun db' s' hn => ?_⟩
    rw [hleave.1] at hn
    cases hn
  | inr hfault =>
    obtain ⟨e, hfault, hexit⟩ := hfault
    refine ⟨by rw [hexit]; rfl, fs₁, fs₂, f, db, off, s₁, he, hh, hat, fun db' s' hn => ?_⟩
    rw [hfault] at hn
    cases hn

/-- The passes through the `switch` for the frames at `o` and behind, with `k`
bytes behind the last. -/
def dispatches (k : Nat) : Nat → List Frame → List Dispatch
  | _, [] => []
  | o, f :: fs => ⟨o, f.bytes, (stream (f :: fs)).length + k⟩ :: dispatches k (o + 5168) fs

theorem comm_dispatches (k o : Nat) (fs : List Frame) :
    (dispatches k o fs).map Dispatch.comm = fs.map Region.bytes := by
  induction fs generalizing o with
  | nil => rfl
  | cons f fs ih => simp [dispatches, ih]

theorem bytelen_dispatches (k o : Nat) (fs : List Frame) (d : Dispatch)
    (hd : d ∈ dispatches k o fs) : d.bytelen ≤ (stream fs).length + k := by
  induction fs generalizing o with
  | nil => cases hd
  | cons f fs ih =>
    rcases List.mem_cons.mp hd with rfl | hd
    · exact le_refl _
    · have hle := ih _ hd
      simp only [length_stream, List.length_cons] at hle ⊢
      omega

/-- The bytes `q` at `o` are fewer than the length field there says, or none. -/
def Incomplete (db : Databuf) (o : Nat) (q : List UInt8) : Prop :=
  q ≠ [] → ∃ v, db.loadI32 o = some v ∧ q.length < v

theorem Incomplete.agree {db db' : Databuf} {off o : Nat} {q : List UInt8} (h : Incomplete db o q)
    (hag : AgreeOutside off db db') (ho : off + 5168 ≤ o) : Incomplete db' o q := by
  intro hne
  obtain ⟨v, hv, hlt⟩ := h hne
  exact ⟨v, (loadI32_congr fun i hi => hag (o + i) (by omega)).trans hv, hlt⟩

theorem Partial.incomplete {db : Databuf} {o : Nat} {q : List UInt8} (hq : Partial q)
    (ha : Aligned db) (ho : 5168 ∣ o) (hlt : o + 3 < 20480) (hat : HasAt db o q) :
    Incomplete db o q := by
  intro hne
  obtain ⟨v, hv, -, hgt⟩ := loadI32_partial db o q hq ha ho hlt hat
  exact ⟨v, hv, hgt hne⟩

theorem HasAt.fits {db : Databuf} {o : Nat} {w : List UInt8} (h : HasAt db o w)
    (hpos : 0 < w.length) :
    o + w.length ≤ 20480 := by
  have hlast := h (w.length - 1) (by omega)
  rw [List.getElem?_eq_getElem (show w.length - 1 < w.length by omega)] at hlast
  obtain ⟨hlt, -⟩ := List.getElem?_eq_some_iff.mp hlast
  rw [db.length_bytes] at hlt
  omega

/-- Stepping over a frame goes on to the next, or reaches the incomplete frame
behind the last and moves that to the front. -/
theorem advance_frame {σ : Type} (o : Nat) (ho : 5168 ∣ o) (db : Databuf) (s : σ) (f : Frame)
    (hf : WellSized f) (fs : List Frame) (hfs : ∀ g ∈ fs, WellSized g) (q : List UInt8)
    (n : Int) (hn : n = 5168 + (stream fs ++ q).length) (hfit : o + n ≤ 20480)
    (hq : Incomplete db (o + 5168 + (stream fs).length) q)
    (hat : HasAt db o (f.bytes ++ (stream fs ++ q))) :
    ((fs = [] → q = []) ∧ advance (o : Int) ⟨db, n⟩ s =
        .again (o + 5168 : Nat) ⟨db, (stream fs ++ q).length⟩ s) ∨
    (fs = [] ∧ ∃ db', advance (o : Int) ⟨db, n⟩ s = .stop ⟨db', q.length⟩ s .done ∧
        (Partial q → Aligned db → Holds ⟨db', q.length⟩ q)) := by
  obtain ⟨hatf, hatr⟩ := (hasAt_append _ _ _ _).mp hat
  rw [f.length_bytes] at hatr
  have hlen := loadI32_frame db o f hf hatf
  have hoff : (o : Int) + 5168 = (o + 5168 : Nat) := by push_cast; rfl
  have hsub : Region.wrap32 (n - 5168) = (stream fs ++ q).length := by
    rw [Region.wrap32_of_range (by omega) (by omega)]
    omega
  cases fs with
  | cons g fs =>
    left
    refine ⟨by simp, ?_⟩
    rw [stream_cons, List.append_assoc] at hatr
    have hlen' := loadI32_frame db (o + 5168) g (hfs g (by simp)) ((hasAt_append _ _ _ _).mp hatr).1
    have hle : (5168 : Int) ≤ (stream (g :: fs) ++ q).length := by
      simp only [List.length_append, length_stream, List.length_cons]
      omega
    rw [← hoff] at hlen' ⊢
    exact advance_again s hlen hlen' hsub hle
  | nil =>
    simp only [stream_nil, List.nil_append, List.length_nil, Nat.add_zero] at hatr hn hsub hq ⊢
    obtain ⟨v, hv⟩ : ∃ v, db.loadI32 (o + 5168 : Nat) = some v :=
      loadI32_of_range db (by omega) (by omega)
    by_cases hbig : (q.length : Int) < v
    · right
      obtain ⟨db', hmove⟩ := moveToFront_of_range db (show o + 5168 + q.length ≤ 20480 by omega)
      refine ⟨trivial, db', ?_, fun hpartial ha => ?_⟩
      · rw [← hoff] at hv hmove
        exact advance_stop s hlen hv hsub hbig hmove
      · obtain ⟨db'', hmove', hholds⟩ :=
          moveToFront_holds db (o + 5168) q hpartial ha hatr (by omega)
        rw [hmove] at hmove'
        cases hmove'
        exact hholds
    · left
      refine ⟨fun _ => ?_, ?_⟩
      · by_contra hne
        obtain ⟨v', hv', hgt⟩ := hq hne
        rw [hv] at hv'
        cases hv'
        exact hbig hgt
      · rw [← hoff] at hv ⊢
        exact advance_again s hlen hv hsub (Int.not_lt.mp hbig)

/-- An edit behind the length field leaves a well-sized frame in place. -/
theorem edited_frame (db db' : Databuf) (o : Nat) (f : Frame) (hf : WellSized f)
    (hat : HasAt db o f.bytes) (hfit : o + 5168 ≤ 20480) (hag : AgreeOutside o db db') :
    ∃ f' : Frame, WellSized f' ∧ HasAt db' o f'.bytes := by
  let f' : Frame := ⟨Region.slice o 5168 db'.bytes, by simp; omega⟩
  have hget : ∀ i, i < 5168 → f'.bytes[i]? = db'.bytes[o + i]? := by
    intro i hi
    change (Region.slice o 5168 db'.bytes)[i]? = _
    rw [Region.getElem?_slice, if_pos hi]
  refine ⟨f', ?_, ?_⟩
  · have hs : Region.slice 0 4 f'.bytes = Region.slice 0 4 f.bytes := by
      apply List.ext_getElem?
      intro i
      rw [Region.getElem?_slice, Region.getElem?_slice 0 4 f.bytes]
      by_cases hi : i < 4
      · rw [if_pos hi, if_pos hi, Nat.zero_add, hget i (by omega), hag (o + i) (by omega),
          hat i (by rw [f.length_bytes]; omega)]
      · rw [if_neg hi, if_neg hi]
    rw [WellSized, Region.i32, len, hs]
    exact hf
  · intro i hi
    rw [f'.length_bytes] at hi
    rw [hget i hi]

/-- The whole loop: it handles the complete frames in order and keeps the rest,
unless a handler ends it. -/
theorem loop_frames {σ : Type} (handle : Handler σ) (hl : Local handle) (q : List UInt8)
    (fs : List Frame) (hfs : ∀ f ∈ fs, WellSized f) (hne : fs = [] → q = [])
    (o fuel : Nat) (ho : 5168 ∣ o) (db : Databuf) (s : σ) (hfuel : fs.length < fuel)
    (hq : Incomplete db (o + (stream fs).length) q) (hat : HasAt db o (stream fs ++ q))
    (r : Result σ) (hr : loop handle fuel o ⟨db, (stream fs ++ q).length⟩ s = r) :
    (r.exit = .done ∧ r.dispatched = dispatches q.length o fs ∧ Handled handle fs s r.state ∧
      (Partial q → Aligned db → Holds r.rx q)) ∨ Stopped handle q fs s r := by
  subst hr
  induction fs generalizing o fuel db s with
  | nil =>
    left
    obtain rfl := hne rfl
    cases fuel with
    | zero => simp at hfuel
    | succ fuel =>
      rw [loop_empty fuel (by simp)]
      exact ⟨rfl, rfl, .nil s, fun _ ha => ⟨partial_nil, rfl, fun i hi => by simp at hi, ha⟩⟩
  | cons f fs ih =>
    have hlen : (stream (f :: fs) ++ q).length = 5168 + (stream fs ++ q).length := by
      simp only [List.length_append, length_stream, List.length_cons]
      ring
    have hatf : HasAt db o (f.bytes ++ (stream fs ++ q)) := by
      rwa [stream_cons, List.append_assoc] at hat
    have hatc := ((hasAt_append _ _ _ _).mp hatf).1
    have hcomm := commAt_of_hasAt db o f hatc
    have hfit := HasAt.fits hat (by omega)
    have hq' : Incomplete db (o + 5168 + (stream fs).length) q := by
      rwa [stream_cons, List.length_append, f.length_bytes, ← Nat.add_assoc] at hq
    generalize hn : (stream (f :: fs) ++ q).length = n at *
    have hcast : ((stream (f :: fs)).length : Int) + q.length = n := by
      rw [← hn, List.length_append, Nat.cast_add]
    have hnz : (⟨db, n⟩ : Rx).bytelen ≠ 0 := by
      change (n : Int) ≠ 0
      omega
    cases fuel with
    | zero => simp at hfuel
    | succ fuel =>
      cases hh : handle db o s with
      | fault e =>
        right
        rw [loop_stop fuel hnz (pass_fault hh)]
        exact ⟨[], fs, f, db, o, s, rfl, .nil s, hatc, congrArg (fun bs => [bs]) hcomm, by rw [hn],
          Or.inr ⟨e, hh, rfl⟩⟩
      | leave s' =>
        right
        rw [loop_stop fuel hnz (pass_leave hh)]
        exact ⟨[], fs, f, db, o, s, rfl, .nil s, hatc, congrArg (fun bs => [bs]) hcomm, by rw [hn],
          Or.inl ⟨hh, rfl⟩⟩
      | next db' s' =>
        have hag := hl db db' o s s' hh
        have ha' := fun ha : Aligned db => ha.agree ho hag
        have hend := hq'.agree hag (by omega)
        obtain ⟨f', hf', hat'⟩ := edited_frame db db' o f (hfs f (by simp)) hatc (by omega) hag
        have hrest : HasAt db' (o + 5168) (stream fs ++ q) := by
          have h := ((hasAt_append _ _ _ _).mp hatf).2
          rw [f.length_bytes] at h
          exact h.agree hag (by omega)
        have hall : HasAt db' o (f'.bytes ++ (stream fs ++ q)) := by
          rw [hasAt_append, f'.length_bytes]
          exact ⟨hat', hrest⟩
        rcases advance_frame o ho db' s' f' hf' fs (fun g hg => hfs g (by simp [hg])) q
          n (by omega) (by omega) hend hall with
          ⟨hne', hadv⟩ | ⟨hnil, db'', hadv, hholds⟩
        · rw [loop_again fuel hnz ((pass_next hh).trans hadv)]
          rcases ih (fun g hg => hfs g (by simp [hg])) hne' (o + 5168) fuel (by omega) db' s'
            (by simpa using hfuel) hend hrest with ⟨he, hd, hhd, hholds⟩ | hstopped
          · left
            refine ⟨he, ?_, .cons hatc hh hhd, fun hpartial ha => hholds hpartial (ha' ha)⟩
            rw [Result.after_dispatched, hd, dispatches, hcomm, hcast]
          · exact Or.inr (hstopped.cons hatc hh hcomm)
        · rw [loop_stop fuel hnz ((pass_next hh).trans hadv)]
          subst hnil
          refine Or.inl ⟨rfl, ?_, .cons hatc hh (.nil s'), fun hpartial ha =>
            hholds hpartial (ha' ha)⟩
          simp only [dispatches, hcomm, hcast]

/-- A call finds the frames `fs` in front of `databuf`, kept from earlier calls or
just read, and no whole frame behind them. -/
structure Finds (r : List UInt8) (rx rx' : Rx) (fs : List Frame) (q : List UInt8) : Prop where
  appended : append r rx = some rx'
  bytelen : rx'.bytelen = (stream fs ++ q).length
  front : HasAt rx'.databuf 0 (stream fs ++ q)
  behind : Incomplete rx'.databuf (stream fs).length q

/-- What stands behind a read that completes the frames `fs`. -/
theorem Holds.finds {rx : Rx} {p r : List UInt8} (h : Holds rx p) (hr : r.length ≤ 8192)
    (fs : List Frame) (hfs : ∀ f ∈ fs, WellSized f) (q : List UInt8) (hq : Partial q)
    (he : p ++ r = stream fs ++ q) : ∃ rx', Finds r rx rx' fs q ∧ Aligned rx'.databuf := by
  obtain ⟨db, happ, hat, ha⟩ := append_holds h hr fs hfs q hq he
  have hlen : (stream fs ++ q).length = p.length + r.length := by
    rw [← he, List.length_append]
  have hp := h.incomplete.1
  rw [List.length_append, length_stream] at hlen
  have hbehind : HasAt db (stream fs).length q := by
    have hrest := ((hasAt_append _ _ _ _).mp hat).2
    rwa [Nat.zero_add] at hrest
  exact ⟨_, ⟨happ, rfl, hat, hq.incomplete ha (by simp) (by rw [length_stream]; omega) hbehind⟩, ha⟩

/-- What one call does with the frames that it finds. -/
theorem tcpRecv_finds {σ : Type} (handle : Handler σ) (hl : Local handle) (enter : σ → σ)
    {rx rx' : Rx} {r q : List UInt8} {fs : List Frame} (hfs : ∀ f ∈ fs, WellSized f)
    (h : Finds r rx rx' fs q) (s : σ) (res : Result σ) (hres : tcpRecv handle enter r rx s = res) :
    (res.exit = .done ∧ res.dispatched = dispatches q.length 0 fs ∧
      (Partial q → Aligned rx'.databuf → Holds res.rx q) ∧
      (fs ≠ [] → Handled handle fs (enter s) res.state) ∧ (q ≠ [] → fs = [] → res.state = s)) ∨
    Stopped handle q fs (enter s) res := by
  obtain ⟨happ, hbytes, hat, hbehind⟩ := h
  obtain ⟨db, n⟩ := rx'
  change n = _ at hbytes
  subst hbytes
  simp only [tcpRecv, happ] at hres
  cases fs with
  | nil =>
    left
    simp only [stream_nil, List.nil_append] at hres hat hbehind
    obtain ⟨v, hv⟩ := loadI32_of_range db (le_refl 0) (by omega)
    simp only [hv] at hres
    by_cases hbig : v > q.length
    · simp only [hbig, if_true] at hres
      subst hres
      exact ⟨rfl, rfl, fun hq ha => ⟨hq, rfl, hat, ha⟩, by simp, fun _ _ => rfl⟩
    · have hnil : q = [] := by
        by_contra hne
        obtain ⟨v', hv', hgt⟩ := hbehind hne
        rw [List.length_nil, Nat.cast_zero, hv] at hv'
        cases hv'
        exact hbig hgt
      subst hnil
      have hempty : (⟨db, ([] : List UInt8).length⟩ : Rx).bytelen = 0 := rfl
      simp only [hbig, if_false, loopFuel, loop_empty DATABUF hempty] at hres
      subst hres
      exact ⟨rfl, rfl, fun hq ha => ⟨hq, rfl, hat, ha⟩, by simp, by simp⟩
  | cons f fs =>
    have hatf := ((hasAt_append _ _ _ _).mp (by
      rwa [stream_cons, List.append_assoc] at hat : HasAt db 0 (f.bytes ++ (stream fs ++ q)))).1
    have hv := loadI32_frame db 0 f (hfs f (by simp)) hatf
    have hlen : (stream (f :: fs) ++ q).length = 5168 * (fs.length + 1) + q.length := by
      rw [List.length_append, length_stream, List.length_cons]
    have hle : ¬ (5168 : Int) > (stream (f :: fs) ++ q).length := by omega
    have hfit := HasAt.fits hat (by omega)
    simp only [Nat.cast_zero] at hv
    simp only [hv, hle, if_false] at hres
    rcases loop_frames handle hl q (f :: fs) hfs (by simp) 0 loopFuel (by omega) db (enter s)
      (by simp only [loopFuel, DATABUF, List.length_cons]; omega)
        (by rwa [Nat.zero_add]) hat res hres with
      ⟨hdone, hd, hhd, hholds⟩ | hstopped
    · exact .inl ⟨hdone, hd, hholds, fun _ => hhd, by simp⟩
    · exact .inr hstopped

/-- What one call does with a read, in terms of the stream: the frames that are
now complete are handled, the incomplete one behind them is kept. -/
theorem tcpRecv_stream {σ : Type} (handle : Handler σ) (hl : Local handle) (enter : σ → σ)
    {rx : Rx} {p r : List UInt8} (h : Holds rx p) (hr : r.length ≤ 8192) (hpos : r ≠ [])
    (fs : List Frame) (hfs : ∀ f ∈ fs, WellSized f) (q : List UInt8) (hq : Partial q)
    (he : p ++ r = stream fs ++ q) (s : σ) (res : Result σ)
    (hres : tcpRecv handle enter r rx s = res) :
    (res.exit = .done ∧ res.dispatched = dispatches q.length 0 fs ∧ Holds res.rx q ∧
      (fs ≠ [] → Handled handle fs (enter s) res.state) ∧ (fs = [] → res.state = s)) ∨
    Stopped handle q fs (enter s) res := by
  obtain ⟨rx', hfinds, ha⟩ := h.finds hr fs hfs q hq he
  rcases tcpRecv_finds handle hl enter hfs hfinds s res hres with ⟨hdone, hd, hholds, hhd,
    hstate⟩ | hstopped
  · refine .inl ⟨hdone, hd, hholds hq ha, hhd, fun hnil => hstate ?_ hnil⟩
    rintro rfl
    rw [hnil, List.append_nil, stream_nil, List.append_eq_nil_iff] at he
    exact hpos he.2
  · exact .inr hstopped

theorem tcpRecv_frames {σ : Type} (handle : Handler σ) (hl : Local handle) (enter : σ → σ)
    {rx : Rx} {p r : List UInt8} (h : Holds rx p) (hr : r.length ≤ 8192) (hpos : r ≠ [])
    (fs : List Frame) (hfs : ∀ f ∈ fs, WellSized f) (q : List UInt8) (hq : Partial q)
    (he : p ++ r = stream fs ++ q) (s : σ) (res : Result σ)
    (hres : tcpRecv handle enter r rx s = res) :
    (res.exit = .done ∧ res.dispatched = dispatches q.length 0 fs ∧ Holds res.rx q ∧
      (fs ≠ [] → Handled handle fs (enter s) res.state) ∧ (fs = [] → res.state = s)) ∨
    (res.exit.early = true ∧ LeftEarly handle fs (enter s)) :=
  (tcpRecv_stream handle hl enter h hr hpos fs hfs q hq he s res hres).imp_right Stopped.early

/-! ## What a call keeps, and calls on two states -/

/-- The state behind the handler, whichever way it ended. -/
def Outcome.Ends {σ : Type} (o : Outcome σ) (s : σ) : Prop := (∃ db, o = .next db s) ∨ o = .leave s

def Outcome.map {σ τ : Type} (g : σ → τ) : Outcome σ → Outcome τ
  | .next db s => .next db (g s)
  | .leave s => .leave (g s)
  | .fault e => .fault e

def Result.map {σ τ : Type} (g : σ → τ) (r : Result σ) : Result τ :=
  ⟨r.rx, g r.state, r.dispatched, r.exit⟩

def Pass.map {σ τ : Type} (g : σ → τ) : Pass σ → Pass τ
  | .stop rx s e => .stop rx (g s) e
  | .again off rx s => .again off rx (g s)

section TwoStates

variable {σ τ : Type} {handle : Handler σ} {handle' : Handler τ} {P : σ → Prop} {g : σ → τ}

theorem advance_again_state {off off' : Int} {rx rx' : Rx} {s s' : σ}
    (h : advance off rx s = .again off' rx' s') : s' = s := by
  cases advance_cases h
  rfl

theorem advance_stop_state {off : Int} {rx rx' : Rx} {s s' : σ} {e : Exit}
    (h : advance off rx s = .stop rx' s' e) : s' = s := by
  cases advance_cases h <;> rfl

theorem advance_map (off : Int) (rx : Rx) (s : σ) :
    advance off rx (g s) = (advance off rx s).map g := by
  simp only [advance]
  split
  · rfl
  · split
    · rfl
    · split
      · split <;> rfl
      · rfl

/-- A pass ends in the state that the handler left, or in the one it faulted on. -/
theorem pass_keeps (hP : ∀ db off s s', P s → (handle db off s).Ends s' → P s') (off : Int)
    (rx : Rx) {s : σ} (h : P s) : (∀ rx' s' e, pass handle off rx s = .stop rx' s' e → P s') ∧
      ∀ off' rx' s', pass handle off rx s = .again off' rx' s' → P s' := by
  rw [pass]
  cases hh : handle rx.databuf off s with
  | fault x =>
    refine ⟨fun _ _ _ hs => ?_, fun _ _ _ hs => ?_⟩ <;> cases hs
    exact h
  | leave t =>
    have ht : P t := hP _ _ _ _ h (Or.inr hh)
    refine ⟨fun _ _ _ hs => ?_, fun _ _ _ hs => ?_⟩ <;> cases hs
    exact ht
  | next db t =>
    have ht : P t := hP _ _ _ _ h (Or.inl ⟨db, hh⟩)
    refine ⟨fun _ _ _ hs => ?_, fun _ _ _ hs => ?_⟩
    · rw [advance_stop_state hs]
      exact ht
    · rw [advance_again_state hs]
      exact ht

theorem loop_keeps (hP : ∀ db off s s', P s → (handle db off s).Ends s' → P s') (fuel : Nat)
    (off : Int) (rx : Rx) (s : σ) (h : P s) : P (loop handle fuel off rx s).state := by
  induction fuel generalizing off rx s with
  | zero => exact h
  | succ fuel ih =>
    obtain ⟨hstop, hagain⟩ := pass_keeps hP off rx h
    simp only [loop]
    split
    · exact h
    · cases hp : pass handle off rx s with
      | stop rx' s' e => exact hstop _ _ _ hp
      | again off' rx' s' => exact ih _ _ _ (hagain _ _ _ hp)

/-- Every call of the callback keeps what every call of its handler does. -/
theorem tcpRecv_keeps (hP : ∀ db off s s', P s → (handle db off s).Ends s' → P s')
    (buf : List UInt8) (rx : Rx) (s : σ) (h : P s) : P (tcpRecv handle id buf rx s).state := by
  simp only [tcpRecv]
  split
  · exact h
  · split
    · exact h
    · split
      · exact h
      · exact loop_keeps hP _ _ _ _ h

theorem pass_map (hsame : ∀ db off s, P s → handle' db off (g s) = (handle db off s).map g) {s : σ}
    (h : P s) (off : Int) (rx : Rx) : pass handle' off rx (g s) = (pass handle off rx s).map g := by
  rw [pass, pass, hsame _ _ _ h]
  cases handle rx.databuf off s with
  | fault x => rfl
  | leave t => rfl
  | next db t => exact advance_map off _ t

theorem loop_map (hsame : ∀ db off s, P s → handle' db off (g s) = (handle db off s).map g)
    (hP : ∀ db off s s', P s → (handle db off s).Ends s' → P s') (fuel : Nat) (off : Int) (rx : Rx)
    (s : σ) (h : P s) : loop handle' fuel off rx (g s) = (loop handle fuel off rx s).map g := by
  induction fuel generalizing off rx s with
  | zero => rfl
  | succ fuel ih =>
    have hagain := (pass_keeps hP off rx h).2
    simp only [loop, pass_map hsame h]
    split
    · rfl
    · cases hp : pass handle off rx s with
      | stop rx' s' e => rfl
      | again off' rx' s' =>
        simp only [Pass.map, ih _ _ _ (hagain _ _ _ hp)]
        rfl

/-- A handler that does to a part of the state what another one does to all of it. -/
theorem tcpRecv_map (hsame : ∀ db off s, P s → handle' db off (g s) = (handle db off s).map g)
    (hP : ∀ db off s s', P s → (handle db off s).Ends s' → P s') (buf : List UInt8) (rx : Rx)
    (s : σ) (h : P s) : tcpRecv handle' id buf rx (g s) = (tcpRecv handle id buf rx s).map g := by
  simp only [tcpRecv]
  split
  · rfl
  · split
    · rfl
    · split
      · rfl
      · exact loop_map hsame hP _ _ _ _ h

end TwoStates

end NetmtTcpRecv
