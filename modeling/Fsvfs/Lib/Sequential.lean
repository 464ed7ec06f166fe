/-
  Reading a sequence piece by piece.

  A piece is what a reader was given when it asked for some elements from an offset
  on.  Pieces are sequential if each of them begins where the last one ended.

  * `Sequential.gets`: sequential pieces of whole blocks are a window of the
    sequence, if a piece that begins at a block or at the end gives what is there,
    and a piece that is short came to the end.
-/
import Fsvfs.Lib.Window

namespace Fsvfs.Lib

variable {α : Type}

/-- The items that were given for a length at an offset. -/
structure Piece (α : Type) where
  offset : ℕ
  len : ℕ
  items : List α

/-- A piece gives what there is of a sequence of a size. -/
def Piece.Of (f : ℕ → α) (size : ℕ) (piece : Piece α) : Prop :=
  piece.items = window f piece.offset (min piece.len (size - piece.offset))

/-- Each piece begins where the last one ended. -/
def Sequential : ℕ → List (Piece α) → Prop
  | _, [] => True
  | pos, piece :: rest => piece.offset = pos ∧ Sequential (pos + piece.items.length) rest

/-- What some pieces give. -/
def items (pieces : List (Piece α)) : List α := pieces.flatMap Piece.items

@[simp] theorem items_nil : items ([] : List (Piece α)) = [] := rfl

@[simp] theorem items_cons (piece : Piece α) (rest : List (Piece α)) :
    items (piece :: rest) = piece.items ++ items rest := List.flatMap_cons

/-- Some pieces give the elements of a sequence of a size, from a position on. -/
structure Gets (f : ℕ → α) (size pos : ℕ) (pieces : List (Piece α)) : Prop where
  eq : items pieces = window f pos (items pieces).length
  le : pos + (items pieces).length ≤ size
  ended : (∃ piece ∈ pieces, piece.items.length < piece.len) → pos + (items pieces).length = size

variable {f : ℕ → α} {size pos block : ℕ} {pieces : List (Piece α)}

/-- **Sequential pieces of whole blocks** give what they would give at once. -/
theorem Sequential.gets (h : Sequential pos pieces) (hle : pos ≤ size) (hpos : block ∣ pos ∨ pos = size)
    (hlen : ∀ piece ∈ pieces, block ∣ piece.len)
    (hpieces : ∀ piece ∈ pieces, block ∣ piece.offset ∨ piece.offset = size → piece.Of f size) :
    Gets f size pos pieces := by
  induction pieces generalizing pos with
  | nil => exact ⟨rfl, hle, fun hshort => by obtain ⟨_, hmem, _⟩ := hshort; cases hmem⟩
  | cons piece rest ih =>
    obtain ⟨rfl, hrest⟩ := h
    obtain ⟨hlen, hlens⟩ := List.forall_mem_cons.1 hlen
    obtain ⟨hpiece, hpieces⟩ := List.forall_mem_cons.1 hpieces
    have hof : piece.items = window f piece.offset _ := hpiece hpos
    have hlength : piece.items.length = min piece.len (size - piece.offset) := by
      rw [hof, length_window]
    -- the next piece begins at a block, or at the end
    have hnext : block ∣ piece.offset + piece.items.length ∨ piece.offset + piece.items.length = size := by
      rcases Nat.le_total piece.len (size - piece.offset) with hfull | hshort
      · rw [hlength, Nat.min_eq_left hfull]
        rcases hpos with hpos | hend
        · exact .inl ((Nat.dvd_add_right hpos).2 hlen)
        · exact .inr (by omega)
      · exact .inr (by omega)
    obtain ⟨heq, hend, hended⟩ := ih hrest (by omega) hnext hlens hpieces
    rw [Nat.add_assoc] at hend hended
    have hadd : (items (piece :: rest)).length = piece.items.length + (items rest).length := by
      rw [items_cons, List.length_append]
    refine ⟨?_, by rwa [hadd], ?_⟩
    · rw [hadd, window_add, ← heq, items_cons]
      congr 1
      rw [hlength]
      exact hof
    · rintro ⟨short, hmem, hlt⟩
      rw [hadd]
      rcases List.mem_cons.1 hmem with rfl | hmem
      · omega
      · exact hended ⟨short, hmem, hlt⟩

end Fsvfs.Lib
