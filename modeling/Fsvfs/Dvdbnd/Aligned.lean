/-
  Reading a part of a file in buffers (`src/dvdbnd/filesystem/aligned.rs`).

  The reads of the `compio` crate are a parameter (`ReadManagedAt`).  A position
  is a natural number, and sums of 64 bits are checked.  A stream is the list of
  its items; it is polled until an item is an error.
-/
import Fsvfs.Lib.Checked
import Mathlib.Data.Int.Notation

namespace Fsvfs.Dvdbnd

open Lib Lib.Checked

/-- The platforms of the crate. -/
inductive Platform where
  | unix
  | windows
deriving DecidableEq

/-- `WINDOW_SIZE`. -/
def Platform.windowSize : Platform → ℕ
  | unix => 64
  | windows => 512

def BUFFER_LEN : ℕ := 8 * 4096

/-- `WINDOW_MAX`. -/
def Platform.windowMax (platform : Platform) : ℕ := BUFFER_LEN - platform.windowSize * 2

/-- `File::read_managed_at`, for a length and a position. -/
abbrev ReadManagedAt := ℕ → ℕ → Except Unit (Option (List UInt8))

/-- `AlignedBufferRef` and `AlignedDynBufferRef`: some bytes, and where they
    start in their file. -/
structure AlignedBuffer where
  bytes : List UInt8
  offset : ℤ
deriving DecidableEq

/-- A stream of buffers. -/
abbrev BufferStream := List (Checked AlignedBuffer)

/-- `u64::checked_signed_diff`. -/
def checkedSignedDiff (a b : ℕ) : Option ℤ :=
  let diff := (a : ℤ) - b
  if -2 ^ 63 ≤ diff ∧ diff < 2 ^ 63 then some diff else none

/-- `read`, and `read_dyn`. -/
def read (file : ReadManagedAt) (len pos fileStart : ℕ) : Option (Checked AlignedBuffer) :=
  if len = 0 then none
  else match checkedSignedDiff pos fileStart with
    | none => some (.error .error)
    | some fileOffset => match file len pos with
      | .ok buf => buf.map fun buf =>
        if buf.length ≥ len then .ok ⟨buf, fileOffset⟩ else .error .error
      | .error _ => some (.error .error)

/-- `(start..end).step_by(BUFFER_LEN)`, with the lengths. -/
def chunks (start stop : ℕ) : List (ℕ × ℕ) :=
  (List.range ((stop - start + (BUFFER_LEN - 1)) / BUFFER_LEN)).map fun k =>
    let pos := start + k * BUFFER_LEN
    (min (stop - pos) BUFFER_LEN, pos)

def endBounds (start len fileStart fileLen : ℕ) : Checked (ℕ × ℕ) := do
  let stop ← add 64 start len
  let fileEnd ← add 64 fileStart fileLen
  assert (fileStart ≤ start)
  assert (stop ≤ fileEnd)
  .ok (stop, fileEnd)

def streamRead (file : ReadManagedAt) (start len fileStart fileLen : ℕ) : Checked BufferStream := do
  let (stop, _) ← endBounds start len fileStart fileLen
  .ok ((chunks start stop).filterMap fun (len, pos) => read file len pos fileStart)

/-- `split_at_mut`. -/
def split (bytes : List UInt8) (index : ℕ) : Checked (List UInt8 × List UInt8) := do
  .ok (← slice bytes 0 index, ← slice bytes index bytes.length)

/-- The head, the body and the tail of a window. -/
def splitWindow (platform : Platform) (len : ℕ) (buf : AlignedBuffer) : Checked (List AlignedBuffer) := do
  let (head, rest) ← split buf.bytes platform.windowSize
  let (body, tail) ← split rest len
  let bodyOffset := buf.offset + platform.windowSize
  let tailOffset := bodyOffset + len
  .ok [⟨head, buf.offset⟩, ⟨body, bodyOffset⟩, ⟨tail, tailOffset⟩]

/-- `stream_read_one_window`; `none` gives the file back. -/
def streamReadOneWindow (platform : Platform) (file : ReadManagedAt) (start len fileStart fileEnd : ℕ) :
    Checked (Option BufferStream) :=
  if len > platform.windowMax then .ok none
  else if start < platform.windowSize then .ok none
  else do
    let pos := start - platform.windowSize
    let stop := min (min (2 ^ 64 - 1) ((← add 64 start len) + platform.windowSize)) fileEnd
    .ok (some (match read file (stop - pos) pos fileStart with
      | none => []
      | some (.ok buf) => match splitWindow platform len buf with
        | .ok context => context.map .ok
        | .error s => [.error s]
      | some (.error e) => [.error e]))

def streamReadWindows (platform : Platform) (file : ReadManagedAt) (start len fileStart fileLen : ℕ) :
    Checked BufferStream := do
  let (stop, fileEnd) ← endBounds start len fileStart fileLen
  match ← streamReadOneWindow platform file start len fileStart fileEnd with
  | some window => .ok window
  | none =>
    let head := max (start - platform.windowSize) fileStart
    let headLen ← sub start head
    let tailEnd := min (← add 64 stop platform.windowSize) fileEnd
    let tailLen ← sub tailEnd stop
    .ok (((headLen, head) :: chunks start stop ++ [(tailLen, stop)]).filterMap fun (len, pos) =>
      read file len pos fileStart)

end Fsvfs.Dvdbnd
