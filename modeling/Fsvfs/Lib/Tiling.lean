/-
  Ranges of numbers that lie one after the other.

  A range is its start and its length.  However such ranges are permuted, every
  number from the start of the first to the end of the last lies in exactly one
  of them (`existsUnique_inRange`).
-/
import Mathlib.Algebra.Order.Ring.Nat
import Mathlib.Data.List.Count
import Mathlib.Tactic.Common

namespace Fsvfs.Lib

/-- Ranges of the given lengths, one after the other. -/
def rangesFrom : ℕ → List ℕ → List (ℕ × ℕ)
  | _, [] => []
  | start, len :: lens => (start, len) :: rangesFrom (start + len) lens

/-- A number lies in a range. -/
def InRange (k : ℕ) (r : ℕ × ℕ) : Prop := r.1 ≤ k ∧ k < r.1 + r.2

instance (k : ℕ) (r : ℕ × ℕ) : Decidable (InRange k r) := inferInstanceAs (Decidable (_ ∧ _))

theorem rangesFrom_append : ∀ {start : ℕ} {lens lens' : List ℕ},
    rangesFrom start (lens ++ lens') = rangesFrom start lens ++ rangesFrom (start + lens.sum) lens'
  | start, [], lens' => by simp [rangesFrom]
  | start, len :: lens, lens' => by
    simp only [List.cons_append, rangesFrom, List.sum_cons]
    rw [rangesFrom_append, Nat.add_assoc]

theorem bounds_rangesFrom : ∀ {start : ℕ} {lens : List ℕ} {r : ℕ × ℕ}, r ∈ rangesFrom start lens →
    start ≤ r.1 ∧ r.1 + r.2 ≤ start + lens.sum
  | start, [], r, h => by cases h
  | start, len :: lens, r, h => by
    rw [List.sum_cons]
    rcases List.mem_cons.1 h with rfl | h
    · dsimp only
      omega
    · obtain ⟨h1, h2⟩ := bounds_rangesFrom h
      omega

/-- A number lies in one range, or outside of all of them. -/
theorem countP_rangesFrom (k : ℕ) : ∀ (start : ℕ) (lens : List ℕ),
    (rangesFrom start lens).countP (InRange k) = if InRange k (start, lens.sum) then 1 else 0
  | start, [] => by
    have hk : ¬ InRange k (start, 0) := fun h => by
      obtain ⟨h1, h2⟩ := h
      dsimp only at h1 h2
      omega
    rw [List.sum_nil, if_neg hk]
    rfl
  | start, len :: lens => by
    rw [rangesFrom, List.countP_cons, countP_rangesFrom k (start + len) lens, List.sum_cons]
    simp only [decide_eq_true_eq]
    by_cases h1 : InRange k (start, len)
    · obtain ⟨ha, hb⟩ := id h1
      rw [if_pos h1, if_neg fun h => absurd h.1 (by dsimp only at hb ⊢; omega),
        if_pos ⟨ha, by dsimp only at hb ⊢; omega⟩]
    · by_cases h2 : InRange k (start + len, lens.sum)
      · obtain ⟨ha, hb⟩ := id h2
        rw [if_neg h1, if_pos h2, if_pos ⟨by dsimp only at ha ⊢; omega, by
          dsimp only at hb ⊢; omega⟩]
      · rw [if_neg h1, if_neg h2, if_neg fun h => ?_]
        unfold InRange at h h1 h2
        omega

/-- What holds of exactly one element of a list holds at exactly one position. -/
theorem existsUnique_of_countP {α : Type} {p : α → Bool} {l : List α} (h : l.countP p = 1) :
    ∃! i : ℕ, ∃ a, l[i]? = some a ∧ p a = true := by
  induction l with
  | nil => cases h
  | cons a l ih =>
    rw [List.countP_cons] at h
    by_cases ha : p a = true
    · -- nothing further on
      rw [if_pos ha, Nat.add_eq_right, List.countP_eq_zero] at h
      refine ⟨0, ⟨a, rfl, ha⟩, ?_⟩
      rintro (_ | i) ⟨b, hb, hpb⟩
      · rfl
      · exact absurd hpb (h b (List.mem_of_getElem? hb))
    · rw [if_neg ha, Nat.add_zero] at h
      obtain ⟨i, ⟨b, hb, hpb⟩, huniq⟩ := ih h
      refine ⟨i + 1, ⟨b, hb, hpb⟩, ?_⟩
      rintro (_ | j) ⟨c, hc, hpc⟩
      · obtain rfl : a = c := by simpa using hc
        exact absurd hpc ha
      · rw [huniq j ⟨c, hc, hpc⟩]

/-- **Every number lies in exactly one of the ranges** that the elements of a
    list have, if these are permuted ranges that lie one after the other. -/
theorem existsUnique_inRange {α : Type} {f : α → Option (ℕ × ℕ)} {l : List α} {start : ℕ}
    {lens : List ℕ} (h : (l.filterMap f).Perm (rangesFrom start lens)) {k : ℕ} (hk : start ≤ k)
    (hk' : k < start + lens.sum) :
    ∃! i : ℕ, ∃ a r, l[i]? = some a ∧ f a = some r ∧ InRange k r := by
  have hcount : (l.filterMap f).countP (InRange k) = 1 := by
    rw [h.countP_eq, countP_rangesFrom, if_pos ⟨hk, hk'⟩]
  rw [List.countP_filterMap] at hcount
  obtain ⟨i, ⟨a, ha, hp⟩, huniq⟩ := existsUnique_of_countP hcount
  refine ⟨i, ?_, ?_⟩
  · rcases hf : f a with _ | r
    · simp [hf] at hp
    · exact ⟨a, r, ha, hf, by simpa [hf] using hp⟩
  · rintro j ⟨b, r, hb, hf, hr⟩
    exact huniq j ⟨b, hb, by simpa [hf] using hr⟩

end Fsvfs.Lib
