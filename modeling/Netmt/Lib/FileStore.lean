import Mathlib.Data.List.Basic

/-!
# Files and open streams

A store maps paths to contents and keeps one record for every stream ever
opened, so a stream that was closed, or replaced by another, can still be told
apart. Writing goes to the stream's own position in its own file.
-/

/-- One `FILE`: what it was opened on, whether it is open, and its position. -/
structure FileStream where
  path : List UInt8
  isOpen : Bool
  pos : Nat
  deriving DecidableEq, Repr

/-- The number of a stream in the store. -/
abbrev StreamId := Nat

structure FileStore where
  content : List UInt8 → Option (List UInt8)
  streams : List FileStream

namespace FileStore

def empty : FileStore := ⟨fun _ => none, []⟩

def setContent (fs : FileStore) (path b : List UInt8) : FileStore :=
  { fs with content := fun p => if p = path then some b else fs.content p }

/-- `fopen(path, "wb")`. -/
def openWrite (fs : FileStore) (path : List UInt8) : FileStore × StreamId :=
  (⟨(fs.setContent path []).content, fs.streams ++ [⟨path, true, 0⟩]⟩, fs.streams.length)

/-- `fopen(path, "rb")`. -/
def openRead (fs : FileStore) (path : List UInt8) : Option (FileStore × StreamId) :=
  (fs.content path).map fun _ => (⟨fs.content, fs.streams ++ [⟨path, true, 0⟩]⟩, fs.streams.length)

def isOpen (fs : FileStore) (h : StreamId) : Bool := (fs.streams[h]?).any FileStream.isOpen

/-- The bytes of `b` with `w` written over them from `pos`. -/
def splice (pos : Nat) (w b : List UInt8) : List UInt8 :=
  b.take pos ++ List.replicate (pos - b.length) 0 ++ w ++ b.drop (pos + w.length)

/-- `fwrite`; `none` when the stream is not open. -/
def write (fs : FileStore) (h : StreamId) (w : List UInt8) : Option FileStore :=
  match fs.streams[h]? with
  | some ⟨path, true, pos⟩ => some
      ⟨(fs.setContent path (splice pos w ((fs.content path).getD []))).content,
        fs.streams.set h ⟨path, true, pos + w.length⟩⟩
  | _ => none

/-- `fclose`; `none` when the stream is not open. -/
def close (fs : FileStore) (h : StreamId) : Option FileStore :=
  match fs.streams[h]? with
  | some ⟨path, true, pos⟩ => some ⟨fs.content, fs.streams.set h ⟨path, false, pos⟩⟩
  | _ => none

/-- What is left to read from a stream. -/
def unread (fs : FileStore) (h : StreamId) : List UInt8 :=
  match fs.streams[h]? with
  | some ⟨path, _, pos⟩ => ((fs.content path).getD []).drop pos
  | none => []

theorem write_eq {fs : FileStore} {h : StreamId} {path : List UInt8} {pos : Nat}
    (hs : fs.streams[h]? = some ⟨path, true, pos⟩) (w : List UInt8) :
    fs.write h w = some
      ⟨(fs.setContent path (splice pos w ((fs.content path).getD []))).content,
        fs.streams.set h ⟨path, true, pos + w.length⟩⟩ := by
  simp only [write, hs]

theorem close_eq {fs : FileStore} {h : StreamId} {path : List UInt8} {pos : Nat}
    (hs : fs.streams[h]? = some ⟨path, true, pos⟩) :
    fs.close h = some ⟨fs.content, fs.streams.set h ⟨path, false, pos⟩⟩ := by
  simp only [close, hs]

theorem splice_end (w b : List UInt8) : splice b.length w b = b ++ w := by
  simp [splice]

/-! ## A stream that writes a file from its start -/

/-- `h` is open on `path`, has written `b`, and stands behind it. -/
structure Writing (fs : FileStore) (h : StreamId) (path b : List UInt8) : Prop where
  stream : fs.streams[h]? = some ⟨path, true, b.length⟩
  content : fs.content path = some b

theorem openWrite_writing (fs : FileStore) (path : List UInt8) :
    Writing (fs.openWrite path).1 (fs.openWrite path).2 path [] := by
  constructor
  · simp [openWrite]
  · simp [openWrite, setContent]

theorem openWrite_content_other (fs : FileStore) (path p : List UInt8) (h : p ≠ path) :
    (fs.openWrite path).1.content p = fs.content p := by
  simp [openWrite, setContent, h]

theorem Writing.isOpen {fs : FileStore} {h : StreamId} {path b : List UInt8}
    (hw : Writing fs h path b) : fs.isOpen h = true := by
  simp [FileStore.isOpen, hw.stream]

/-- A write appends, and touches no other file. -/
theorem Writing.write {fs : FileStore} {h : StreamId} {path b : List UInt8}
    (hw : Writing fs h path b) (w : List UInt8) :
    ∃ fs', fs.write h w = some fs' ∧ Writing fs' h path (b ++ w) ∧
      ∀ p, p ≠ path → fs'.content p = fs.content p := by
  have hlt : h < fs.streams.length := (List.getElem?_eq_some_iff.mp hw.stream).1
  have hs : splice b.length w ((fs.content path).getD []) = b ++ w := by
    rw [hw.content]
    exact splice_end w b
  refine ⟨_, write_eq hw.stream w, ⟨?_, ?_⟩, ?_⟩
  · simp [hlt]
  · simp only [setContent, if_true, hs]
  · intro p hp
    simp [setContent, hp]

/-- Closing keeps every file. -/
theorem Writing.close {fs : FileStore} {h : StreamId} {path b : List UInt8}
    (hw : Writing fs h path b) :
    ∃ fs', fs.close h = some fs' ∧ fs'.content = fs.content ∧ fs'.isOpen h = false := by
  have hlt : h < fs.streams.length := (List.getElem?_eq_some_iff.mp hw.stream).1
  refine ⟨_, close_eq hw.stream, rfl, ?_⟩
  simp [FileStore.isOpen, hlt]

theorem openRead_eq (fs : FileStore) (path b : List UInt8) (h : fs.content path = some b) :
    fs.openRead path = some (⟨fs.content, fs.streams ++ [⟨path, true, 0⟩]⟩, fs.streams.length) := by
  simp [openRead, h]

/-! ## A stream that reads a file from its start -/

/-- `h` is open on `path`, which holds `b`, and has read nothing. -/
structure Reading (fs : FileStore) (h : StreamId) (path b : List UInt8) : Prop where
  stream : fs.streams[h]? = some ⟨path, true, 0⟩
  content : fs.content path = some b

theorem openRead_reading {fs fs' : FileStore} {path : List UInt8} {h : StreamId}
    (ho : fs.openRead path = some (fs', h)) :
    ∃ b, fs.content path = some b ∧ fs'.content = fs.content ∧ fs'.Reading h path b := by
  rw [openRead] at ho
  cases hb : fs.content path with
  | none => simp [hb] at ho
  | some b =>
    rw [hb, Option.map_some, Option.some.injEq, Prod.mk.injEq] at ho
    obtain ⟨rfl, rfl⟩ := ho
    exact ⟨b, rfl, rfl, by simp, hb⟩

theorem Reading.isOpen {fs : FileStore} {h : StreamId} {path b : List UInt8}
    (hr : Reading fs h path b) : fs.isOpen h = true := by
  simp [FileStore.isOpen, hr.stream]

theorem Reading.unread {fs : FileStore} {h : StreamId} {path b : List UInt8}
    (hr : Reading fs h path b) : fs.unread h = b := by
  simp [FileStore.unread, hr.stream, hr.content]

theorem Reading.close {fs : FileStore} {h : StreamId} {path b : List UInt8}
    (hr : Reading fs h path b) :
    ∃ fs', fs.close h = some fs' ∧ fs'.content = fs.content := ⟨_, close_eq hr.stream, rfl⟩

end FileStore
