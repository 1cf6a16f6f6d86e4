import Mathlib.Data.List.Forall2
import Netmt.Command
import Netmt.TcpRecv
import Netmt.Lib.FileStore
import Netmt.Lib.CString

/-!
# File transfer frames

The block loop that `send_netmt` and the client's `NETMT_GET` share: read up to
`BUFFER_SIZE` bytes into the data field, count them, send the frame, clear the
data field. The receiving side writes `data_size` bytes of the data field.
-/
namespace NetmtTransfer

open NetmtCommand NetmtTcpRecv

/-- How a handler ends for a frame, before its effect on `databuf`. -/
inductive Step (σ : Type) where
  | next : σ → Step σ
  | leave : σ → Step σ
  | fault : Fault → Step σ

/-- The handler came to its end, or left the callback. -/
def Step.Ends {σ : Type} (st : Step σ) (s : σ) : Prop := st = .next s ∨ st = .leave s

/-- The state behind the handler, unless it faults. -/
def Step.after {σ : Type} : Step σ → Option σ
  | .next s => some s
  | .leave s => some s
  | .fault _ => none

@[simp] theorem Step.next_ends {σ : Type} {s t : σ} : (Step.next s).Ends t ↔ t = s := by
  simp [Ends, eq_comm]

@[simp] theorem Step.fault_ends {σ : Type} {x : Fault} {t : σ} : ¬ (Step.fault x).Ends t := by
  simp [Ends]

def Step.lift {σ : Type} (db : Databuf) : Step σ → Outcome σ
  | .next s => .next db s
  | .leave s => .leave s
  | .fault e => .fault e

/-- `*comm`. There is nothing to be read behind the end of `databuf`; zeros stand for it. -/
def frameAt (db : Databuf) (off : Int) : Frame :=
  ⟨(db.bytes.drop off.toNat ++ List.replicate 5168 0).take 5168, by
    rw [List.length_take, List.length_append, List.length_replicate]
    omega⟩

/-- What lies behind `*comm` in `databuf`. -/
def behind (db : Databuf) (off : Int) : List UInt8 := db.bytes.drop (off.toNat + 5168)

theorem frame_fits (db : Databuf) (o : Nat) (f : Frame) (h : HasAt db o f.bytes) :
    o + 5168 ≤ 20480 := by
  have hlen := congrArg List.length (slice_of_hasAt db o f.bytes h)
  simp only [Region.length_slice, Region.length_bytes] at hlen
  omega

theorem frameAt_of_hasAt (db : Databuf) (o : Nat) (f : Frame) (h : HasAt db o f.bytes) :
    frameAt db o = f := by
  have hs := slice_of_hasAt db o f.bytes h
  rw [f.length_bytes] at hs
  have hfit := frame_fits db o f h
  apply Region.ext
  change (db.bytes.drop (o : Int).toNat ++ List.replicate 5168 0).take 5168 = f.bytes
  rw [Int.toNat_natCast, List.take_append_of_le_length (by simp; omega)]
  exact hs

/-- The first bytes of `*comm`, as far as a handler looks at them, lie in `databuf`. No number
of bytes is enough for a string without end. -/
def Within (off : Int) (reach : Option Nat) : Prop := 0 ≤ off ∧ ∃ n ∈ reach, off + n ≤ 20480

instance (off : Int) (reach : Option Nat) : Decidable (Within off reach) :=
  inferInstanceAs (Decidable (_ ∧ _))

/-- Of a whole frame, and what lies behind it, all can be read. -/
theorem within_frame {db : Databuf} {o : Nat} {f : Frame} (h : HasAt db o f.bytes)
    {reach : Option Nat} :
    Within o reach ↔ ∃ n ∈ reach, n ≤ 5168 + (behind db o).length := by
  have hfit := frame_fits db o f h
  have hlen : (behind db o).length = 20480 - (o + 5168) := by
    rw [behind, List.length_drop, db.length_bytes, Int.toNat_natCast]
  rw [Within, hlen]
  constructor
  · rintro ⟨-, n, hn, hle⟩
    exact ⟨n, hn, by omega⟩
  · rintro ⟨n, hn, hle⟩
    exact ⟨by omega, n, hn, by omega⟩

/-- A frame that is cut off by the end of `databuf` is read as far as it goes at most. -/
theorem Within.bounded {db : Databuf} {off : Int} {reach : Option Nat} (h : Within off reach) :
    ∃ n ∈ reach, n ≤ 5168 + (behind db off).length := by
  obtain ⟨hoff, n, hn, hle⟩ := h
  refine ⟨n, hn, ?_⟩
  rw [behind, List.length_drop, db.length_bytes]
  omega

/-- A `switch` on memory from one on frames, when `reach` says how far it looks. -/
def onComm {σ : Type} (db : Databuf) (off : Int) (reach : Frame → List UInt8 → Option Nat)
    (body : Frame → List UInt8 → Outcome σ) : Outcome σ :=
  if Within off (reach (frameAt db off) (behind db off)) then body (frameAt db off) (behind db off)
  else .fault .outOfBounds

section OnComm

variable {σ : Type} {db db' : Databuf} {off : Int}
  {reach : Frame → List UInt8 → Option Nat} {s s' : σ}

theorem onComm_within {body : Frame → List UInt8 → Outcome σ}
    (h : Within off (reach (frameAt db off) (behind db off))) :
    onComm db off reach body = body (frameAt db off) (behind db off) := if_pos h

theorem onComm_outside {body : Frame → List UInt8 → Outcome σ}
    (h : ¬ Within off (reach (frameAt db off) (behind db off))) :
    onComm db off reach body = .fault .outOfBounds := if_neg h

theorem onComm_next {body : Frame → List UInt8 → Outcome σ}
    (h : onComm db off reach body = .next db' s) :
    Within off (reach (frameAt db off) (behind db off)) ∧
      body (frameAt db off) (behind db off) = .next db' s := by
  by_cases hin : Within off (reach (frameAt db off) (behind db off))
  · rw [onComm_within hin] at h
    exact ⟨hin, h⟩
  · rw [onComm_outside hin] at h
    cases h

end OnComm

theorem lift_next {σ : Type} {db db' : Databuf} {s' : σ} {st : Step σ}
    (h : st.lift db = .next db' s') : st = .next s' ∧ db = db' := by
  cases st with
  | next s => cases h; exact ⟨rfl, rfl⟩
  | leave s => cases h
  | fault e => cases h

theorem lift_leave {σ : Type} {db : Databuf} {s : σ} {st : Step σ} (h : st.lift db = .leave s) :
    st = .leave s := by
  cases st <;> cases h
  rfl

theorem lift_fault {σ : Type} {db : Databuf} {x : Fault} {st : Step σ} :
    st.lift db = .fault x ↔ st = .fault x := by
  cases st <;> simp [Step.lift]

section Handled

variable {σ : Type} {db : Databuf} {off : Int} {reach : Frame → List UInt8 → Option Nat} {s' : σ}
  {body : Frame → List UInt8 → Step σ} {edit : Frame → Databuf}

/-- A handler over a `switch` leaves the call when the `switch` does. -/
theorem onComm_leave : (onComm db off reach fun f tail => (body f tail).lift (edit f)) = .leave s' ↔
    Within off (reach (frameAt db off) (behind db off)) ∧
      body (frameAt db off) (behind db off) = .leave s' := by
  by_cases hin : Within off (reach (frameAt db off) (behind db off))
  · rw [onComm_within hin, and_iff_right hin]
    exact ⟨lift_leave, fun h => by rw [h]; rfl⟩
  · rw [onComm_outside hin]
    exact iff_of_false (fun h => by cases h) fun h => hin h.1

/-- A handler over a `switch` ends as the `switch` does. -/
theorem onComm_ends (h : (onComm db off reach fun f tail => (body f tail).lift (edit f)).Ends s') :
    (body (frameAt db off) (behind db off)).Ends s' := by
  rcases h with ⟨db', h⟩ | h
  · exact .inl (lift_next (onComm_next h).2).1
  · exact .inr (onComm_leave.mp h).2

/-- It stays in `databuf` exactly when all that it looks at lies there. -/
theorem onComm_inside (hbody : ∀ f tail, (∃ n ∈ reach f tail, n ≤ 5168 + tail.length) →
      body f tail ≠ .fault .outOfBounds) :
    (onComm db off reach fun f tail => (body f tail).lift (edit f)) ≠ .fault .outOfBounds ↔
      Within off (reach (frameAt db off) (behind db off)) := by
  by_cases hin : Within off (reach (frameAt db off) (behind db off))
  · rw [onComm_within hin]
    exact iff_of_true (fun h => hbody _ _ hin.bounded (lift_fault.mp h)) hin
  · rw [onComm_outside hin]
    exact iff_of_false (fun h => h rfl) hin

end Handled

/-- A C string in the frame; without a NUL it runs on behind it. -/
def cstrAt (f : Frame) (tail : List UInt8) (off : Nat) : Option (List UInt8) :=
  let b := f.bytes.drop off ++ tail
  if (0 : UInt8) ∈ b then some (CString.ofField b) else none

/-- How far such a string is read. -/
def cstrReach (f : Frame) (tail : List UInt8) (off : Nat) : Option Nat :=
  (cstrAt f tail off).map fun s => off + s.length + 1

/-- The frame that carries one block: `data`, `data_size` and `len` are set. -/
def dataFrame (sendbuf : Frame) (block : List UInt8) : Frame :=
  setLen ((sendbuf.put data block).putI32 dataSize block.length)

/-- `while ((n = fread(data, 1, BUFFER_SIZE, fp)) > 0)`: the frames sent, the
buffer left behind, and the byte count. -/
def readLoop : List (List UInt8) → Frame → Int → List Frame × Frame × Int
  | [], sendbuf, filebytes => ([], sendbuf, filebytes)
  | block :: blocks, sendbuf, filebytes =>
    let f := dataFrame sendbuf block
    let r := readLoop blocks (f.bzero data BUFFER_SIZE) (Region.wrap32 (filebytes + block.length))
    (f :: r.1, r.2)

/-- The frame that ends a transfer. -/
def endFrame (sendbuf : Frame) (sub : Nat) (filebytes : Int) : Frame :=
  setLen ((sendbuf.putU32 subcommonid sub).putI32 byteSize filebytes)

/-- `fwrite(comm->file.data, 1, comm->file.data_size, fp)` and what it returns;
`limit` is set when the write is short. -/
def fwriteData (files : FileStore) (fp : Option StreamId) (f : Frame) (tail : List UInt8)
    (limit : Option Nat) : Except Fault (FileStore × Int) :=
  match fp with
  | none => .error .nullFile
  | some h =>
    let src := f.bytes.drop data ++ tail
    let size := f.i32 dataSize
    if size < 0 ∨ (src.length : Int) < size then .error .outOfBounds
    else
      let w := src.take (min size.toNat (limit.getD size.toNat))
      match files.write h w with
      | none => .error .closedFile
      | some files' => .ok (files', w.length)

/-- How far `fwrite` reads: the count, and from an open stream's caller the block. -/
def fwriteReach (fp : Option StreamId) (f : Frame) : Option Nat :=
  if fp = none then some 2616
  else if f.i32 dataSize < 0 then none
  else some (max 2616 (data + (f.i32 dataSize).toNat))

/-- `fclose(fp)`. -/
def fcloseStream (files : FileStore) (fp : Option StreamId) : Except Fault FileStore :=
  match fp with
  | none => .error .nullFile
  | some h =>
    match files.close h with
    | none => .error .closedFile
    | some files' => .ok files'

theorem fcloseStream_ok {files files' : FileStore} {fp : Option StreamId} {id : StreamId}
    (hfp : fp = some id) (hclose : files.close id = some files') :
    fcloseStream files fp = .ok files' := by
  rw [hfp, fcloseStream, hclose]

theorem fcloseStream_error {files : FileStore} {fp : Option StreamId} {x : Fault}
    (h : fcloseStream files fp = .error x) : x = .nullFile ∨ x = .closedFile := by
  cases fp with
  | none =>
    cases h
    exact .inl rfl
  | some id =>
    simp only [fcloseStream] at h
    split at h <;> cases h
    exact .inr rfl

/-- Only a block that does not lie in the buffer is read outside. -/
theorem fwriteData_error {files : FileStore} {fp : Option StreamId} {f : Frame} {tail : List UInt8}
    {limit : Option Nat} {x : Fault} (h : fwriteData files fp f tail limit = .error x) :
    x = .nullFile ∨ x = .closedFile ∨ x = .outOfBounds ∧ (f.i32 dataSize < 0 ∨
      ((f.bytes.drop data ++ tail).length : Int) < f.i32 dataSize) := by
  cases fp with
  | none =>
    cases h
    exact .inl rfl
  | some id =>
    simp only [fwriteData] at h
    split at h
    · next hout =>
      cases h
      exact .inr (.inr ⟨rfl, hout⟩)
    · split at h <;> cases h
      exact .inr (.inl rfl)

/-- A string that ends lies in what can be read. -/
theorem cstrReach_iff {f : Frame} {tail : List UInt8} {off : Nat} (hoff : off ≤ 5168) :
    (∃ n ∈ cstrReach f tail off, n ≤ 5168 + tail.length) ↔ cstrAt f tail off ≠ none := by
  constructor
  · rintro ⟨n, hn, -⟩ hnone
    rw [cstrReach, hnone] at hn
    cases hn
  · intro hsome
    obtain ⟨s, hs⟩ := Option.ne_none_iff_exists'.mp hsome
    refine ⟨off + s.length + 1, by rw [cstrReach, hs]; rfl, ?_⟩
    rw [cstrAt] at hs
    split at hs
    · next hmem =>
      cases hs
      have hlt := CString.length_ofField_lt hmem
      rw [List.length_append, List.length_drop, f.length_bytes] at hlt
      omega
    · cases hs

theorem fwriteReach_iff {files : FileStore} {fp : Option StreamId} {f : Frame} {tail : List UInt8}
    {limit : Option Nat} : (∃ n ∈ fwriteReach fp f, n ≤ 5168 + tail.length) ↔
      fwriteData files fp f tail limit ≠ .error .outOfBounds := by
  cases fp with
  | none =>
    exact iff_of_true ⟨2616, if_pos rfl, by omega⟩ fun h => by cases h
  | some id =>
    have hlen : (f.bytes.drop data ++ tail).length = 3584 + tail.length := by
      have hsize := f.length_bytes
      simp only [List.length_append, List.length_drop, data]
      omega
    have hgo : fwriteData files (some id) f tail limit = .error .outOfBounds ↔
        f.i32 dataSize < 0 ∨ ((f.bytes.drop data ++ tail).length : Int) < f.i32 dataSize := by
      constructor
      · intro h
        rcases fwriteData_error h with hx | hx | ⟨-, hout⟩
        · cases hx
        · cases hx
        · exact hout
      · intro h
        simp only [fwriteData, if_pos h]
    rw [Ne, hgo, hlen, fwriteReach, if_neg (by simp)]
    by_cases hneg : f.i32 dataSize < 0
    · rw [if_pos hneg]
      exact iff_of_false (by rintro ⟨n, hn, -⟩; cases hn) fun h => h (.inl hneg)
    · rw [if_neg hneg]
      constructor
      · rintro ⟨n, hn, hle⟩
        rw [Option.mem_some_iff, data] at hn
        omega
      · intro h
        refine ⟨_, Option.mem_some_iff.mpr rfl, ?_⟩
        rw [data]
        omega

/-- The first `n` bytes from `*comm` on are the same. -/
structure SameFront (n : Nat) (f f' : Frame) (tail tail' : List UInt8) : Prop where
  inside : n ≤ 5168 + tail.length
  same : (f'.bytes ++ tail').take n = (f.bytes ++ tail).take n

section Front

variable {n m off k : Nat} {f f' : Frame} {tail tail' : List UInt8}

theorem SameFront.inside' (h : SameFront n f f' tail tail') : n ≤ 5168 + tail'.length := by
  have hlen := congrArg List.length h.same
  rw [List.length_take, List.length_take, List.length_append, List.length_append, f.length_bytes,
    f'.length_bytes] at hlen
  have hin := h.inside
  omega

theorem slice_take (g : Frame) (tl : List UInt8) (hn : off + k ≤ n) (hk : off + k ≤ 5168) :
    Region.slice off k ((g.bytes ++ tl).take n) = Region.slice off k g.bytes := by
  have hlen := g.length_bytes
  rw [Region.slice, Region.slice, List.drop_take, List.take_take, Nat.min_eq_left (by omega),
    List.drop_append_of_le_length (by omega), List.take_append_of_le_length (by
      rw [List.length_drop]
      omega)]

theorem SameFront.slice (h : SameFront n f f' tail tail') (hn : off + k ≤ n)
    (hk : off + k ≤ 5168) : Region.slice off k f'.bytes = Region.slice off k f.bytes := by
  rw [← slice_take f' tail' hn hk, h.same, slice_take f tail hn hk]

theorem SameFront.byte (h : SameFront n f f' tail tail') (hn : off < n) (hk : off < 5168) :
    f'.bytes[off]? = f.bytes[off]? := by
  have hfront : ∀ (g : Frame) (tl : List UInt8),
      ((g.bytes ++ tl).take n)[off]? = g.bytes[off]? := fun g tl => by
    rw [List.getElem?_take_of_lt hn, List.getElem?_append_left (by rwa [g.length_bytes])]
  rw [← hfront f' tail', h.same, hfront]

theorem SameFront.u32 (h : SameFront n f f' tail tail') (hn : off + 4 ≤ n) (hk : off + 4 ≤ 5168) :
    f'.u32 off = f.u32 off := congrArg Region.leNat (h.slice hn hk)

theorem SameFront.i32 (h : SameFront n f f' tail tail') (hn : off + 4 ≤ n) (hk : off + 4 ≤ 5168) :
    f'.i32 off = f.i32 off := congrArg Region.i32OfBytes (h.slice hn hk)

theorem SameFront.u64 (h : SameFront n f f' tail tail') (hn : off + 8 ≤ n) (hk : off + 8 ≤ 5168) :
    f'.u64 off = f.u64 off := congrArg Region.leNat (h.slice hn hk)

theorem SameFront.frame (h : SameFront n f f' tail tail') (hn : 5168 ≤ n) : f' = f := by
  have hall : ∀ g : Frame, Region.slice 0 5168 g.bytes = g.bytes := fun g =>
    List.take_of_length_le (by rw [List.drop_zero, g.length_bytes])
  refine Region.ext ?_
  rw [← hall f', ← hall f]
  exact h.slice (by omega) (le_refl _)

/-- What stands behind `off` is the same, too. -/
theorem SameFront.behind (h : SameFront n f f' tail tail') (hoff : off ≤ 5168) :
    (f'.bytes.drop off ++ tail').take (n - off) = (f.bytes.drop off ++ tail).take (n - off) := by
  have hdrop : ∀ (g : Frame) (tl : List UInt8), g.bytes.drop off ++ tl = (g.bytes ++ tl).drop off :=
    fun g tl => (List.drop_append_of_le_length (by rw [g.length_bytes]; exact hoff)).symm
  rw [hdrop, hdrop, ← List.drop_take, ← List.drop_take, h.same]

/-- Of a text whose string ends within the first bytes, these have the string. -/
theorem ofField_take {b : List UInt8} (hmem : (0 : UInt8) ∈ b)
    (hlt : (CString.ofField b).length < m) :
    (0 : UInt8) ∈ b.take m ∧ CString.ofField (b.take m) = CString.ofField b := by
  have hin : (0 : UInt8) ∈ b.take m := by
    by_contra hnot
    have hwhole := CString.length_ofField_lt hmem
    have hall : ∀ c ∈ b.take m, decide (c ≠ 0) = true := fun c hc =>
      decide_eq_true fun heq => hnot (heq ▸ hc)
    have hfront : (b.take m).length ≤ (CString.ofField b).length := by
      conv_rhs => rw [← List.take_append_drop m b]
      rw [CString.ofField, List.takeWhile_append_of_pos hall, List.length_append]
      omega
    rw [List.length_take] at hfront
    omega
  refine ⟨hin, ?_⟩
  conv_rhs => rw [← List.take_append_drop m b]
  rw [CString.ofField_of_mem _ hin]

/-- What comes behind the frame is not among the bytes within it. -/
theorem sameFront_tail (h : n ≤ 5168) (tail : List UInt8) : SameFront n f f [] tail where
  inside := h
  same := by
    have hlen := f.length_bytes
    rw [List.take_append_of_le_length (by omega), List.take_append_of_le_length (by omega)]

theorem lt_cstrReach (h : cstrReach f tail off = some m) : off < m := by
  obtain ⟨s, -, rfl⟩ := Option.map_eq_some_iff.mp h
  omega

theorem le_fwriteReach {fp : Option StreamId} (h : fwriteReach fp f = some m) : 2616 ≤ m := by
  rw [fwriteReach] at h
  split at h
  · exact (Option.some.inj h).le
  · split at h
    · cases h
    · rw [← Option.some.inj h]
      exact le_max_left _ _

/-- A string that ends within them is the same. -/
theorem SameFront.cstr (h : SameFront n f f' tail tail') (hoff : off ≤ 5168)
    (hreach : cstrReach f tail off = some m) (hm : m ≤ n) :
    cstrAt f' tail' off = cstrAt f tail off := by
  obtain ⟨s, hs, rfl⟩ := Option.map_eq_some_iff.mp hreach
  rw [hs]
  rw [cstrAt] at hs ⊢
  split at hs
  · next hmem =>
    cases hs
    obtain ⟨hin, hfield⟩ := ofField_take hmem (m := n - off) (by omega)
    rw [← h.behind hoff] at hin hfield
    have hmem' : (0 : UInt8) ∈ f'.bytes.drop off ++ tail' := List.mem_of_mem_take hin
    rw [if_pos hmem', ← hfield]
    conv_lhs => rw [← List.take_append_drop (n - off) (f'.bytes.drop off ++ tail')]
    rw [CString.ofField_of_mem _ hin]
  · cases hs

/-- So is a block, and what becomes of it. -/
theorem SameFront.fwrite (h : SameFront n f f' tail tail') {fp : Option StreamId}
    (hreach : fwriteReach fp f = some m) (hm : m ≤ n) (files : FileStore) (limit : Option Nat) :
    f'.i32 dataSize = f.i32 dataSize ∧
      fwriteData files fp f' tail' limit = fwriteData files fp f tail limit := by
  rw [fwriteReach] at hreach
  split at hreach
  · next hnone =>
    cases hreach
    exact ⟨h.i32 (by simpa using hm) (by simp), by rw [hnone]; rfl⟩
  · split at hreach
    · cases hreach
    · next hsize =>
      obtain rfl := Option.some.inj hreach
      have hhead : 2616 ≤ n := le_trans (le_max_left _ _) hm
      have hblock : data + (f.i32 dataSize).toNat ≤ n := le_trans (le_max_right _ _) hm
      have hsame : f'.i32 dataSize = f.i32 dataSize := h.i32 (by simpa using hhead) (by simp)
      refine ⟨hsame, ?_⟩
      cases fp with
      | none => rfl
      | some id =>
        have hin := h.inside
        have hin' := h.inside'
        have hlen : ∀ (g : Frame) (tl : List UInt8),
            (g.bytes.drop data ++ tl).length = 3584 + tl.length := by
          intro g tl
          rw [List.length_append, List.length_drop, g.length_bytes]
          rfl
        have hfront : ∀ j, j ≤ (f.i32 dataSize).toNat →
            (f'.bytes.drop data ++ tail').take j = (f.bytes.drop data ++ tail).take j := by
          intro j hj
          have hbehind := congrArg (List.take j) (h.behind (show data ≤ 5168 by simp))
          rwa [List.take_take, List.take_take, Nat.min_eq_left (by omega)] at hbehind
        simp only [data] at hblock
        simp only [fwriteData, hsame, hlen, hfront _ (Nat.min_le_left _ _)]
        rw [if_neg (by omega), if_neg (by omega)]

/-- All of `databuf` from `*comm` on is in the frame and behind it. -/
theorem rest_in_memory (db : Databuf) (off : Int) :
    db.bytes.drop off.toNat <+: (frameAt db off).bytes ++ behind db off := by
  change _ <+: (db.bytes.drop off.toNat ++ List.replicate 5168 0).take 5168 ++
    db.bytes.drop (off.toNat + 5168)
  rw [← List.drop_drop]
  generalize db.bytes.drop off.toNat = rest
  by_cases hlen : 5168 ≤ rest.length
  · refine ⟨[], ?_⟩
    rw [List.append_nil, List.take_append_of_le_length hlen, List.take_append_drop]
  · rw [List.drop_of_length_le (by omega), List.append_nil]
    exact List.prefix_take_iff.mpr ⟨List.prefix_append _ _, by omega⟩

theorem prefix_of_hasAt {db : Databuf} {o : Nat} (h : HasAt db o f.bytes) :
    db.bytes.drop (o : Int).toNat <+: f.bytes ++ behind db o :=
  frameAt_of_hasAt db o f h ▸ rest_in_memory db o

theorem sameFront_of_memory {db : Databuf} {off : Int}
    (hmem : db.bytes.drop off.toNat <+: f.bytes ++ tail)
    (hmem' : db.bytes.drop off.toNat <+: f'.bytes ++ tail') (hoff : 0 ≤ off)
    (hn : off + n ≤ 20480) : SameFront n f f' tail tail' := by
  have hlen : (db.bytes.drop off.toNat).length = 20480 - off.toNat := by
    rw [List.length_drop, db.length_bytes]
  have hfront : ∀ {g : Frame} {tl : List UInt8}, db.bytes.drop off.toNat <+: g.bytes ++ tl →
      (g.bytes ++ tl).take n = (db.bytes.drop off.toNat).take n := by
    rintro g tl ⟨more, hmore⟩
    rw [← hmore, List.take_append_of_le_length (by omega)]
  refine ⟨?_, (hfront hmem').trans (hfront hmem).symm⟩
  have hle := hmem.length_le
  rw [List.length_append, f.length_bytes, hlen] at hle
  omega

/-- What really lies behind the end of `databuf` is the same to a handler, when a `switch` is
settled by the bytes within its reach. -/
theorem onComm_front {σ : Type} {db : Databuf} {off : Int}
    {reach : Frame → List UInt8 → Option Nat} {body : Frame → List UInt8 → Outcome σ}
    (hbody : ∀ {n : Nat} {g g' : Frame} {tl tl' : List UInt8}, reach g tl = some n →
      SameFront n g g' tl tl' → reach g' tl' = some n ∧ body g' tl' = body g tl)
    (hmem : db.bytes.drop off.toNat <+: f.bytes ++ tail) : onComm db off reach body =
      if Within off (reach f tail) then body f tail else .fault .outOfBounds := by
  by_cases hin : Within off (reach (frameAt db off) (behind db off))
  · obtain ⟨hoff, n, hn, hle⟩ := hin
    obtain ⟨hreach, hsame⟩ := hbody hn (sameFront_of_memory (rest_in_memory db off) hmem hoff hle)
    rw [onComm_within ⟨hoff, n, hn, hle⟩, if_pos ⟨hoff, n, hreach, hle⟩, hsame]
  · rw [onComm_outside hin, if_neg]
    rintro ⟨hoff, n, hn, hle⟩
    have hsame := hbody hn (sameFront_of_memory hmem (rest_in_memory db off) hoff hle)
    exact hin ⟨hoff, n, hsame.1, hle⟩

end Front

/-! ## What lies behind the frame -/

/-- A string that ends within the frame does not depend on what comes behind. -/
theorem cstrAt_tail {f : Frame} {off : Nat} {s : List UInt8} (h : cstrAt f [] off = some s)
    (tail : List UInt8) : cstrAt f tail off = some s := by
  simp only [cstrAt, List.append_nil] at h ⊢
  split at h
  · next hmem =>
    rw [if_pos (List.mem_append_left _ hmem), CString.ofField_of_mem _ hmem]
    exact h
  · cases h

/-- The frames agree between the length field and the file data: in the head, the
command text and the file names. -/
def SameHead (f g : Frame) : Prop := ∀ i, 4 ≤ i → i < 1584 → f.bytes[i]? = g.bytes[i]?

theorem SameHead.refl (f : Frame) : SameHead f f := fun _ _ _ => rfl

theorem SameHead.trans {f g h : Frame} (hfg : SameHead f g) (hgh : SameHead g h) : SameHead f h :=
  fun i hl hr => (hfg i hl hr).trans (hgh i hl hr)

theorem sameHead_put (f : Frame) (off : Nat) (bs : List UInt8) (hfit : off + bs.length ≤ 5168)
    (hd : off + bs.length ≤ 4 ∨ 1584 ≤ off) : SameHead (f.put off bs) f := by
  intro i hl hr
  change (Region.patch off bs f.bytes)[i]? = _
  rw [Region.getElem?_patch _ _ _ (by simpa using hfit)]
  cases hd with
  | inl hd =>
    rw [if_neg (by omega), if_neg (by omega)]
  | inr hd =>
    rw [if_pos (by omega)]

theorem sameHead_setLen (f : Frame) : SameHead (setLen f) f :=
  sameHead_put f _ _ (by simp) (Or.inl (by simp))

theorem SameHead.slice {f g : Frame} (h : SameHead f g) (off n : Nat) (hl : 4 ≤ off)
    (hr : off + n ≤ 1584) : Region.slice off n f.bytes = Region.slice off n g.bytes := by
  apply List.ext_getElem?
  intro i
  rw [Region.getElem?_slice, Region.getElem?_slice]
  by_cases hi : i < n
  · rw [if_pos hi, if_pos hi, h (off + i) (by omega) (by omega)]
  · rw [if_neg hi, if_neg hi]

theorem SameHead.u32 {f g : Frame} (h : SameHead f g) (off : Nat) (hl : 4 ≤ off)
    (hr : off + 4 ≤ 1584) : f.u32 off = g.u32 off := by
  rw [Region.u32, h.slice off 4 hl hr, Region.u32]

theorem SameHead.i32 {f g : Frame} (h : SameHead f g) (off : Nat) (hl : 4 ≤ off)
    (hr : off + 4 ≤ 1584) : f.i32 off = g.i32 off := by
  rw [Region.i32, h.slice off 4 hl hr, Region.i32]

/-- The file name in a field that was filled by `strncpy`. -/
theorem cstrAt_field (f : Frame) (tail : List UInt8) (off : Nat) (s : CString)
    (h : Region.slice off 256 f.bytes = s.toField 256) :
    cstrAt f tail off = some (s.bytes.take 255) := by
  have hsplit : f.bytes.drop off ++ tail =
      s.toField 256 ++ ((f.bytes.drop off).drop 256 ++ tail) := by
    rw [← h, Region.slice, ← List.append_assoc, List.take_append_drop]
  rw [cstrAt, hsplit, if_pos (List.mem_append_left _ (CString.nul_mem_toField 256 (by decide) s)),
    CString.ofField_toField 256 (by decide)]

/-- A frame with one block of data. -/
structure IsData (sendbuf : Frame) (block : List UInt8) (f : Frame) : Prop where
  sized : WellSized f
  head : SameHead f sendbuf
  dataSize : f.i32 NetmtCommand.dataSize = block.length
  data : Region.slice NetmtCommand.data block.length f.bytes = block

theorem dataFrame_isData (sendbuf : Frame) (block : List UInt8) (h : block.length ≤ BUFFER_SIZE) :
    IsData sendbuf block (dataFrame sendbuf block) := by
  simp only [BUFFER_SIZE] at h
  have hfit : data + block.length ≤ 5168 := by rw [NetmtCommand.data]; omega
  refine ⟨wellSized_setLen _, ?_, ?_, ?_⟩
  · exact ((sameHead_setLen _).trans (sameHead_put _ _ _ (by simp) (Or.inr (by simp)))).trans
      (sameHead_put _ _ _ hfit (Or.inr (by simp)))
  · rw [dataFrame, Region.i32_put_other _ _ _ _ (by simp) (by simp),
      Region.i32_put_same _ _ _ (by simp), Region.wrap32_of_range (by omega) (by omega)]
  · rw [dataFrame, Region.slice_put_other _ _ _ _ _ (by simp) (by simp),
      Region.slice_put_other _ _ _ _ _ (by simp) (Or.inl (by simp; omega)),
      Region.slice_put_same _ _ _ _ hfit (le_refl _), List.take_length]

theorem IsData.of_sameHead {sendbuf sendbuf' f : Frame} {block : List UInt8}
    (h : IsData sendbuf block f) (hh : SameHead sendbuf sendbuf') : IsData sendbuf' block f :=
  ⟨h.sized, h.head.trans hh, h.dataSize, h.data⟩

theorem sized_of_isData {sendbuf : Frame} {blocks : List (List UInt8)} {fs : List Frame}
    (h : List.Forall₂ (IsData sendbuf) blocks fs) : ∀ f ∈ fs, WellSized f := by
  induction h with
  | nil => simp
  | cons hd _ ih =>
    intro f hf
    rcases List.mem_cons.mp hf with rfl | hf
    · exact hd.sized
    · exact ih f hf

/-- The block loop: one frame for each block, the head of the buffer untouched, and
every byte counted. -/
theorem readLoop_spec (blocks : List (List UInt8)) (hb : ∀ b ∈ blocks, b.length ≤ BUFFER_SIZE)
    (sendbuf : Frame) (filebytes : Int) :
    List.Forall₂ (IsData sendbuf) blocks (readLoop blocks sendbuf filebytes).1 ∧
    SameHead (readLoop blocks sendbuf filebytes).2.1 sendbuf ∧
    Region.wrap32 (readLoop blocks sendbuf filebytes).2.2 =
      Region.wrap32 (filebytes + blocks.flatten.length) := by
  induction blocks generalizing sendbuf filebytes with
  | nil =>
    refine ⟨.nil, .refl _, ?_⟩
    rw [List.flatten_nil, List.length_nil, Nat.cast_zero, Int.add_zero]
    rfl
  | cons b bs ih =>
    have hlen := hb b (by simp)
    have hd := dataFrame_isData sendbuf b hlen
    have hclear : SameHead ((dataFrame sendbuf b).bzero data BUFFER_SIZE) sendbuf :=
      (sameHead_put _ _ _ (by rw [List.length_replicate]; decide) (Or.inr (by simp))).trans hd.head
    obtain ⟨hframes, hbuf, hcount⟩ := ih (fun c hc => hb c (by simp [hc]))
      ((dataFrame sendbuf b).bzero data BUFFER_SIZE) (Region.wrap32 (filebytes + b.length))
    refine ⟨.cons hd (hframes.imp fun _ _ h => h.of_sameHead hclear), hbuf.trans hclear, ?_⟩
    rw [readLoop, hcount, Region.wrap32_add_wrap32, List.flatten_cons, List.length_append]
    congr 1
    push_cast
    ring

/-- `fwrite` of a data frame writes its block. -/
theorem fwriteData_isData {sendbuf f : Frame} {block : List UInt8} (h : IsData sendbuf block f)
    (hb : block.length ≤ BUFFER_SIZE) (files : FileStore) (id : StreamId) (tail : List UInt8) :
    fwriteData files (some id) f tail none = match files.write id block with
      | none => .error .closedFile
      | some files' => .ok (files', block.length) := by
  simp only [BUFFER_SIZE] at hb
  have hlen : ¬ ((block.length : Int) < 0 ∨ ((f.bytes.drop 1584 ++ tail).length : Int) <
      block.length) := by
    simp only [List.length_append, List.length_drop, Region.length_bytes]
    omega
  have hw : (f.bytes.drop 1584 ++ tail).take block.length = block := by
    rw [List.take_append_of_le_length (by simp; omega)]
    exact h.data
  simp only [fwriteData, h.dataSize, data, hlen, if_false, Int.toNat_natCast, Option.getD_none,
    Nat.min_self, hw]

/-- The frames that carry a file: `FILE_OPEN`, one `DATA` frame for each block, and
an end that announces a byte count. `isFrame` says what all of them share. -/
structure FileFrames (isFrame : Nat → Frame → Prop) (endSub : Nat) (content : List UInt8)
    (total : Int) (fs : List Frame) : Prop where
  frames : ∃ opened blocks ending, fs = opened :: (blocks ++ [ending]) ∧
    isFrame NETMT_FILE_OPEN opened ∧
    List.Forall₂ (fun b f => isFrame NETMT_DATA f ∧ ∃ buf, IsData buf b f)
      (Framing.chunks BUFFER_SIZE content) blocks ∧
    isFrame endSub ending ∧ ending.i32 byteSize = total
  sized : ∀ f ∈ fs, WellSized f

theorem block_le {content b : List UInt8} (h : b ∈ Framing.chunks BUFFER_SIZE content) :
    b.length ≤ BUFFER_SIZE := (Framing.length_of_mem_chunks (by decide) h).2

/-- A receiver that takes the opening, the blocks and the end takes the file. -/
theorem foldlM_fileFrames {σ : Type} {next : σ → Frame → Option σ} {opened ending : Frame}
    {blocks : List Frame} {s s₁ s₂ s₃ : σ} (hopen : next s opened = some s₁)
    (hblocks : blocks.foldlM next s₁ = some s₂) (hend : next s₂ ending = some s₃) :
    (opened :: (blocks ++ [ending])).foldlM next s = some s₃ := by
  rw [List.foldlM_cons, hopen]
  change (blocks ++ [ending]).foldlM next s₁ = some s₃
  rw [List.foldlM_append, hblocks]
  change [ending].foldlM next s₂ = some s₃
  rw [List.foldlM_cons, hend]
  rfl

/-- The block loop between an opening and an ending frame. -/
theorem fileFrames_readLoop {isFrame : Nat → Frame → Prop} (endSub : Nat)
    (hhead : ∀ sub f g, isFrame sub g → SameHead f g → isFrame sub f)
    (hsub : ∀ sub f, isFrame sub f → isFrame endSub (f.putU32 subcommonid endSub))
    {opened sendbuf : Frame} (hopened : isFrame NETMT_FILE_OPEN opened) (hsized : WellSized opened)
    (hbuf : isFrame NETMT_DATA sendbuf) (content : List UInt8) (filebytes : Int) :
    FileFrames isFrame endSub content (Region.wrap32 (filebytes + content.length))
      (opened :: ((readLoop (Framing.chunks BUFFER_SIZE content) sendbuf filebytes).1 ++
        [endFrame (readLoop (Framing.chunks BUFFER_SIZE content) sendbuf filebytes).2.1 endSub
          (readLoop (Framing.chunks BUFFER_SIZE content) sendbuf filebytes).2.2])) := by
  obtain ⟨hblocks, hrest, hcount⟩ := readLoop_spec (Framing.chunks BUFFER_SIZE content)
    (fun b hb => block_le hb) sendbuf filebytes
  rw [Framing.flatten_chunks] at hcount
  constructor
  · refine ⟨_, _, _, rfl, hopened,
      hblocks.imp fun b g hg => ⟨hhead _ _ _ hbuf hg.head, _, hg⟩, ?_, ?_⟩
    · exact hhead _ _ _ (hsub _ _ (hhead _ _ _ hbuf hrest))
        ((sameHead_setLen _).trans (sameHead_put _ _ _ (by simp) (Or.inr (by simp))))
    · rw [endFrame, Region.i32_put_other _ _ _ _ (by simp) (by simp),
        Region.i32_put_same _ _ _ (by simp), hcount]
  · intro g hg
    rcases List.mem_cons.mp hg with rfl | hg
    · exact hsized
    · cases List.mem_append.mp hg with
      | inl hg =>
        exact sized_of_isData hblocks g hg
      | inr hg =>
        rw [List.mem_singleton.mp hg]
        exact wellSized_setLen _

theorem blocks_isFrame {isFrame : Nat → Frame → Prop} {blocks : List (List UInt8)} {fs : List Frame}
    (h : List.Forall₂ (fun b f => isFrame NETMT_DATA f ∧ ∃ buf, IsData buf b f) blocks fs) :
    ∀ f ∈ fs, isFrame NETMT_DATA f := by
  induction h with
  | nil => simp
  | cons hd _ ih =>
    intro f hf
    rcases List.mem_cons.mp hf with rfl | hf
    · exact hd.1
    · exact ih f hf

/-- What all frames of a file share. -/
theorem FileFrames.all {isFrame : Nat → Frame → Prop} {endSub : Nat} {content : List UInt8}
    {total : Int} {fs : List Frame} (h : FileFrames isFrame endSub content total fs) :
    ∀ f ∈ fs, ∃ sub, isFrame sub f := by
  obtain ⟨opened, blocks, ending, rfl, hopen, hblocks, hend, -⟩ := h.frames
  intro f hf
  rcases List.mem_cons.mp hf with rfl | hf
  · exact ⟨_, hopen⟩
  · cases List.mem_append.mp hf with
    | inl hf =>
      exact ⟨_, blocks_isFrame hblocks f hf⟩
    | inr hf =>
      exact ⟨_, List.mem_singleton.mp hf ▸ hend⟩

/-- Only the end announces a byte count. -/
theorem FileFrames.byteSize {isFrame : Nat → Frame → Prop} {endSub : Nat} {content : List UInt8}
    {total : Int} {fs : List Frame} (h : FileFrames isFrame endSub content total fs)
    (hsub : ∀ {sub f}, isFrame sub f → f.u32 subcommonid = sub)
    (hopenSub : endSub ≠ NETMT_FILE_OPEN) (hdataSub : endSub ≠ NETMT_DATA) :
    ∀ f ∈ fs, f.u32 subcommonid = endSub → f.i32 NetmtCommand.byteSize = total := by
  obtain ⟨opened, blocks, ending, rfl, hopen, hblocks, -, hsize⟩ := h.frames
  intro f hf hend
  rcases List.mem_cons.mp hf with rfl | hf
  · exact absurd (hend.symm.trans (hsub hopen)) hopenSub
  · cases List.mem_append.mp hf with
    | inl hf =>
      exact absurd (hend.symm.trans (hsub (blocks_isFrame hblocks f hf))) hdataSub
    | inr hf =>
      rw [List.mem_singleton.mp hf]
      exact hsize

/-! ## Three paths -/

def slash : CString := ⟨[47], by decide⟩
def slashA : CString := ⟨[47, 97], by decide⟩
def slashB : CString := ⟨[47, 98], by decide⟩

end NetmtTransfer
