/-
  A sequence that is written piece by piece.

  A write is some elements and their position.  The writes are listed from the last
  one to the first one, and a later one replaces what an earlier one wrote.

  * `written_of_windows`: writes of parts of one sequence give the sequence where one
    of them covers it, whatever their order.
-/
import Fsvfs.Lib.Window

namespace Fsvfs.Lib

variable {α : Type}

/-- A write covers a position. -/
def Covers (write : List α × ℕ) (p : ℕ) : Prop := write.2 ≤ p ∧ p < write.2 + write.1.length

instance (write : List α × ℕ) (p : ℕ) : Decidable (Covers write p) := inferInstanceAs (Decidable (_ ∧ _))

/-- What some writes have written at a position. -/
def written : List (List α × ℕ) → ℕ → Option α
  | [], _ => none
  | write :: rest, p => if Covers write p then write.1[p - write.2]? else written rest p

/-- **Writes of parts of a sequence** write the sequence. -/
theorem written_of_windows {f : ℕ → α} {writes : List (List α × ℕ)} (p : ℕ)
    (h : ∀ write ∈ writes, write.1 = window f write.2 write.1.length) :
    written writes p = if ∃ write ∈ writes, Covers write p then some (f p) else none := by
  induction writes with
  | nil => rw [written, if_neg fun h => by obtain ⟨_, hmem, -⟩ := h; cases hmem]
  | cons write rest ih =>
    obtain ⟨hwrite, hrest⟩ := List.forall_mem_cons.1 h
    rw [written]
    by_cases hcovers : Covers write p
    · obtain ⟨hle, hlt⟩ := id hcovers
      rw [if_pos hcovers, if_pos ⟨write, List.mem_cons_self, hcovers⟩, hwrite, getElem?_window f (by omega),
        Nat.add_sub_cancel' hle]
    · rw [if_neg hcovers, ih hrest]
      refine if_congr ⟨?_, ?_⟩ rfl rfl
      · rintro ⟨w, hw, hwp⟩
        exact ⟨w, List.mem_cons_of_mem _ hw, hwp⟩
      · rintro ⟨w, hw, hwp⟩
        rcases List.mem_cons.1 hw with rfl | hw
        · exact absurd hwp hcovers
        · exact ⟨w, hw, hwp⟩

end Fsvfs.Lib
