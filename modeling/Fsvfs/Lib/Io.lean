/-
  Readers of bytes (`io::Read`, `io::Cursor`, `io::BufReader`).

  A source that does not end early is given by the bytes that it still has
  (`FillsReads`).
-/
import Mathlib.Data.Nat.Notation

namespace Fsvfs.Lib

/-- `io::Read`, with its errors. -/
class IoRead (ε : outParam Type) (R : Type) where
  /-- A read into a buffer of some length. -/
  read : R → ℕ → Except ε (List UInt8 × R)
  readToEnd : R → Except ε (List UInt8 × R)

/-- `Cursor<Box<[u8]>>`. -/
structure Cursor where
  inner : List UInt8
  pos : ℕ

namespace Cursor
variable (cursor : Cursor)

def fillBuf : List UInt8 := cursor.inner.drop cursor.pos

def consume (amt : ℕ) : Cursor := { cursor with pos := cursor.pos + amt }

def readToEnd : List UInt8 × Cursor := (cursor.fillBuf, cursor.consume cursor.fillBuf.length)

@[simp] theorem fillBuf_consume (amt : ℕ) : (cursor.consume amt).fillBuf = cursor.fillBuf.drop amt := by
  rw [fillBuf, fillBuf, consume, List.drop_drop]

@[simp] theorem inner_consume (amt : ℕ) : (cursor.consume amt).inner = cursor.inner := rfl

end Cursor

/-- `BufReader`, with what is left in its buffer. -/
structure BufReader (R : Type) where
  capacity : ℕ
  buffer : List UInt8
  inner : R

namespace BufReader
variable {ε R : Type} [IoRead ε R] (reader : BufReader R)

/-- `BufReader::with_capacity`. -/
def withCapacity (capacity : ℕ) (inner : R) : BufReader R := ⟨capacity, [], inner⟩

def fillBuf : Except ε (List UInt8 × BufReader R) :=
  if reader.buffer = [] then do
    let (bytes, inner) ← IoRead.read reader.inner reader.capacity
    .ok (bytes, ⟨reader.capacity, bytes, inner⟩)
  else .ok (reader.buffer, reader)

def consume (amt : ℕ) : BufReader R := { reader with buffer := reader.buffer.drop amt }

def readToEnd : Except ε (List UInt8 × BufReader R) := do
  let (bytes, inner) ← IoRead.readToEnd reader.inner
  .ok (reader.buffer ++ bytes, ⟨reader.capacity, [], inner⟩)

end BufReader

/-- A source fills every read until its end. -/
structure FillsReads {ε R : Type} [IoRead ε R] (rest : R → List UInt8) : Prop where
  read : ∀ (r : R) (n : ℕ), ∃ r', IoRead.read r n = .ok ((rest r).take n, r') ∧ rest r' = (rest r).drop n
  readToEnd : ∀ r : R, ∃ r', IoRead.readToEnd r = .ok (rest r, r')

/-- Reading from a slice. -/
@[reducible] def IoRead.ofSlice (ε : Type) : IoRead ε (List UInt8) where
  read bytes n := .ok (bytes.take n, bytes.drop n)
  readToEnd bytes := .ok (bytes, [])

theorem fillsReads_ofSlice (ε : Type) : @FillsReads ε _ (IoRead.ofSlice ε) fun bytes => bytes :=
  @FillsReads.mk _ _ (IoRead.ofSlice ε) _ (fun bytes n => ⟨bytes.drop n, rfl, rfl⟩) fun _ => ⟨[], rfl⟩

section
variable {ε R : Type} [IoRead ε R] {rest : R → List UInt8} (h : FillsReads rest)
include h

/-- The buffer is filled from the source. -/
theorem FillsReads.fillBuf (capacity : ℕ) (r : R) : ∃ r', (⟨capacity, [], r⟩ : BufReader R).fillBuf =
    .ok ((rest r).take capacity, ⟨capacity, (rest r).take capacity, r'⟩) ∧ rest r' = (rest r).drop capacity := by
  obtain ⟨r', hread, hrest⟩ := h.read r capacity
  refine ⟨r', ?_, hrest⟩
  rw [BufReader.fillBuf, if_pos rfl]
  dsimp only
  rw [hread]
  rfl

/-- The rest of the source. -/
theorem FillsReads.bufReadToEnd (capacity : ℕ) (r : R) :
    ∃ reader, (⟨capacity, [], r⟩ : BufReader R).readToEnd = .ok (rest r, reader) := by
  obtain ⟨r', hread⟩ := h.readToEnd r
  refine ⟨⟨capacity, [], r'⟩, ?_⟩
  rw [BufReader.readToEnd, hread]
  rfl

end

end Fsvfs.Lib
