/-
  The ring of the last three buffers (`CiphertextBuffer` in
  `src/dvdbnd/filesystem/encryption.rs`).

  A push overwrites the oldest slot.  `CiphertextBuffer.view` is the slots from the
  oldest to the newest one, and the operations are about the view
  (`view_doPush`, `curr_eq`, `fromBuffer_eq`).
-/
import Fsvfs.Dvdbnd.Aligned
import Fsvfs.Dvdbnd.Decrypt
import Mathlib.Logic.Function.Basic

namespace Fsvfs.Dvdbnd

open Lib Lib.Checked

/-- `Pos`. -/
inductive Pos where
  | _0
  | _1
  | _2
deriving DecidableEq

namespace Pos

def next : Pos → Pos
  | _0 => _1
  | _1 => _2
  | _2 => _0

def prev : Pos → Pos
  | _0 => _2
  | _1 => _0
  | _2 => _1

end Pos

structure CiphertextBuffer where
  inner : Pos → Option AlignedBuffer
  pos : Pos
  isPushed : Bool

namespace CiphertextBuffer
variable (cbuf : CiphertextBuffer)

/-- `CiphertextBuffer::default`. -/
def default : CiphertextBuffer := ⟨fun _ => none, ._1, false⟩

def isEmpty : Bool := !cbuf.isPushed

def doPush (buf : Option AlignedBuffer) : CiphertextBuffer :=
  ⟨Function.update cbuf.inner cbuf.pos.next buf, cbuf.pos.next, true⟩

def push (buf : AlignedBuffer) : CiphertextBuffer := cbuf.doPush (some buf)

def finish : CiphertextBuffer := cbuf.doPush none

def hasPredecessor : Bool := (cbuf.inner cbuf.pos.prev).isSome

def curr : Checked AlignedBuffer :=
  if cbuf.hasPredecessor then expect (cbuf.inner cbuf.pos.prev) else expect (cbuf.inner cbuf.pos)

/-- Writing to `curr`. -/
def setCurr (buf : AlignedBuffer) : CiphertextBuffer :=
  let pos := if cbuf.hasPredecessor then cbuf.pos.prev else cbuf.pos
  { cbuf with inner := Function.update cbuf.inner pos (some buf) }

def prev : List UInt8 :=
  if !cbuf.hasPredecessor then []
  else ((cbuf.inner cbuf.pos.prev.prev).map AlignedBuffer.bytes).getD []

def next : List UInt8 :=
  if !cbuf.hasPredecessor then [] else ((cbuf.inner cbuf.pos).map AlignedBuffer.bytes).getD []

end CiphertextBuffer

/-- A block of the bytes. -/
def toBlock (bytes : List UInt8) : Checked (Vector UInt8 16) :=
  if h : bytes.length = 16 then .ok ⟨bytes.toArray, by simpa using h⟩ else .error .panic

/-- `u32::try_from`. -/
def u32TryFrom (n : ℤ) : Option UInt32 := if 0 ≤ n ∧ n < 2 ^ 32 then some n.toNat.toUInt32 else none

/-- `Ciphertext::from_buffer`. -/
def Ciphertext.fromBuffer (buf : CiphertextBuffer) : Checked Ciphertext := do
  let left := BLOCK_SIZE - buf.prev.length
  let right := buf.prev.length - BLOCK_SIZE
  let head ← copyFromSlice (List.replicate BLOCK_SIZE 0) left BLOCK_SIZE
    (← slice buf.prev right buf.prev.length)
  let len := min buf.next.length BLOCK_SIZE
  let tail ← copyFromSlice (List.replicate BLOCK_SIZE 0) 0 len (← slice buf.next 0 len)
  let curr ← buf.curr
  let fileOffset ← expect (u32TryFrom curr.offset)
  .ok ⟨curr.bytes, ← toBlock head, ← toBlock tail, fileOffset⟩

/-! ## The view -/

/-- The last block of some bytes, with zeros before them. -/
def lastBlock (bytes : List UInt8) : Vector UInt8 16 :=
  ⟨(List.replicate (BLOCK_SIZE - bytes.length) 0 ++ bytes.drop (bytes.length - BLOCK_SIZE)).toArray, by
    simp [BLOCK_SIZE]
    omega⟩

/-- The first block of some bytes, with zeros after them. -/
def firstBlock (bytes : List UInt8) : Vector UInt8 16 :=
  ⟨(bytes.take BLOCK_SIZE ++ List.replicate (BLOCK_SIZE - bytes.length) 0).toArray, by
    simp [BLOCK_SIZE]
    omega⟩

theorem drop_lastBlock {bytes : List UInt8} {k : ℕ} (hk : k ≤ BLOCK_SIZE) (hlen : k ≤ bytes.length) :
    (lastBlock bytes).toList.drop (BLOCK_SIZE - k) = bytes.drop (bytes.length - k) := by
  show (List.replicate (BLOCK_SIZE - bytes.length) 0 ++ bytes.drop (bytes.length - BLOCK_SIZE)).drop _ = _
  have hpad : (List.replicate (BLOCK_SIZE - bytes.length) (0 : UInt8)).length ≤ BLOCK_SIZE - k := by
    rw [List.length_replicate]
    omega
  rw [List.drop_append, List.drop_of_length_le hpad, List.nil_append, List.length_replicate, List.drop_drop]
  congr 1
  omega

theorem take_firstBlock {bytes : List UInt8} {k : ℕ} (hk : k ≤ BLOCK_SIZE) (hlen : k ≤ bytes.length) :
    (firstBlock bytes).toList.take k = bytes.take k := by
  show (bytes.take BLOCK_SIZE ++ List.replicate (BLOCK_SIZE - bytes.length) 0).take k = _
  rw [List.take_append_of_le_length (by rw [List.length_take]; omega), List.take_take, Nat.min_eq_left hk]

namespace CiphertextBuffer
variable {cbuf : CiphertextBuffer} {older old new : Option AlignedBuffer} {buf buf' : AlignedBuffer}

/-- The slots, from the oldest to the newest one. -/
structure View (cbuf : CiphertextBuffer) (older old new : Option AlignedBuffer) : Prop where
  older : cbuf.inner cbuf.pos.prev.prev = older
  old : cbuf.inner cbuf.pos.prev = old
  new : cbuf.inner cbuf.pos = new

theorem view_default : default.View none none none := ⟨rfl, rfl, rfl⟩

theorem View.doPush (h : cbuf.View older old new) (buf : Option AlignedBuffer) :
    (cbuf.doPush buf).View old new buf := by
  obtain ⟨inner, pos, isPushed⟩ := cbuf
  obtain ⟨rfl, rfl, rfl⟩ := h
  cases pos
  · exact ⟨rfl, rfl, rfl⟩
  · exact ⟨rfl, rfl, rfl⟩
  · exact ⟨rfl, rfl, rfl⟩

theorem View.curr (h : cbuf.View older (some buf) new) : cbuf.curr = .ok buf := by
  rw [CiphertextBuffer.curr, hasPredecessor, h.old]
  rfl

theorem View.prev (h : cbuf.View older (some buf) new) :
    cbuf.prev = (older.map AlignedBuffer.bytes).getD [] := by
  rw [CiphertextBuffer.prev, hasPredecessor, h.old, h.older]
  rfl

theorem View.next (h : cbuf.View older (some buf) new) :
    cbuf.next = (new.map AlignedBuffer.bytes).getD [] := by
  rw [CiphertextBuffer.next, hasPredecessor, h.old, h.new]
  rfl

theorem View.setCurr (h : cbuf.View older (some buf) new) :
    (cbuf.setCurr buf').View older (some buf') new := by
  obtain ⟨inner, pos, isPushed⟩ := cbuf
  obtain ⟨rfl, hold, rfl⟩ := h
  cases pos <;>
  · dsimp only [Pos.prev] at hold
    refine ⟨?_, ?_, ?_⟩ <;> simp [CiphertextBuffer.setCurr, hasPredecessor, Pos.prev, hold]

theorem View.setCurr_self (h : cbuf.View older (some buf) new) : cbuf.setCurr buf = cbuf := by
  have hpred : cbuf.hasPredecessor = true := by
    rw [hasPredecessor, h.old]
    rfl
  rw [CiphertextBuffer.setCurr, hpred, if_pos rfl, ← h.old, Function.update_eq_self]

@[simp] theorem isPushed_setCurr (cbuf : CiphertextBuffer) (buf : AlignedBuffer) :
    (cbuf.setCurr buf).isPushed = cbuf.isPushed := rfl

/-- **What is made of the view.** -/
theorem View.fromBuffer (h : cbuf.View older (some buf) new) {n : ℕ} (hn : buf.offset = n)
    (hlt : n < 2 ^ 32) : Ciphertext.fromBuffer cbuf = .ok ⟨buf.bytes,
      lastBlock ((older.map AlignedBuffer.bytes).getD []),
      firstBlock ((new.map AlignedBuffer.bytes).getD []), n.toUInt32⟩ := by
  rw [Ciphertext.fromBuffer, h.prev, h.next, h.curr]
  generalize (older.map AlignedBuffer.bytes).getD [] = prev
  generalize (new.map AlignedBuffer.bytes).getD [] = next
  have hsize : BLOCK_SIZE = 16 := rfl
  have hhead : copyFromSlice (List.replicate BLOCK_SIZE 0) (BLOCK_SIZE - prev.length) BLOCK_SIZE
      (prev.drop (prev.length - BLOCK_SIZE)) =
        .ok (List.replicate (BLOCK_SIZE - prev.length) 0 ++ prev.drop (prev.length - BLOCK_SIZE)) := by
    rw [copyFromSlice_of_le (Nat.sub_le _ _) (by simp) (by rw [List.length_drop]; omega),
      List.take_replicate, List.drop_replicate, Nat.sub_self, Nat.min_eq_left (Nat.sub_le _ _)]
    simp
  have htail : copyFromSlice (List.replicate BLOCK_SIZE 0) 0 (min next.length BLOCK_SIZE)
      (next.take (min next.length BLOCK_SIZE)) =
        .ok (next.take BLOCK_SIZE ++ List.replicate (BLOCK_SIZE - next.length) 0) := by
    have hmin : BLOCK_SIZE - min next.length BLOCK_SIZE = BLOCK_SIZE - next.length := by omega
    rw [copyFromSlice_of_le (Nat.zero_le _) (by rw [List.length_replicate]; omega)
        (by rw [List.length_take]; omega), List.drop_replicate, List.take_zero, List.nil_append, hmin, Nat.min_comm, ← List.take_take,
      List.take_length]
  have hoffset : u32TryFrom buf.offset = some n.toUInt32 := by
    rw [u32TryFrom, hn, if_pos ⟨by omega, by exact_mod_cast hlt⟩, Int.toNat_natCast]
  dsimp only
  rw [slice_of_le (Nat.sub_le _ _) (Nat.le_refl _), List.take_length, ok_bind, hhead, ok_bind,
    slice_of_le (Nat.zero_le _) (Nat.min_le_left _ _), List.drop_zero, ok_bind, htail, ok_bind, ok_bind,
    hoffset]
  dsimp only [expect, ok_bind]
  rw [toBlock, dif_pos (by simp; omega), ok_bind, toBlock, dif_pos (by simp; omega), ok_bind]
  rfl

end CiphertextBuffer

end Fsvfs.Dvdbnd
