/-
  Slots that are taken and given back.

  * `SlotSplit`: some slots are free and the others live, each once.  It holds
    when all are free, and is kept by taking a free slot and by releasing a live one.
  * `members`: the set of the positions of the bits that are set in a word.  The
    lowest one is taken with `x &&& (x - 1)` (`members_and_sub_one`) and found as
    the only bit of the difference (`sub_and_sub_one`, `ctz_twoPow`); a position
    is put back with `x ||| 1 <<< i` (`members_or_shiftLeft`).
-/
import Mathlib.Algebra.Order.Ring.Nat
import Mathlib.Data.Finset.Card
import Mathlib.Data.Finset.Range
import Mathlib.Data.List.Nodup
import Mathlib.Tactic.Common

namespace Fsvfs.Lib

/-! ## Free and live slots -/

section
variable {α : Type} [DecidableEq α] {slots free : Finset α} {live : List α} {s t : α}

/-- The slots that are not free are live, each once. -/
structure SlotSplit (slots free : Finset α) (live : List α) : Prop where
  nodup : live.Nodup
  subset : ∀ s ∈ live, s ∈ slots
  mem_free : ∀ s, s ∈ free ↔ s ∈ slots ∧ s ∉ live

namespace SlotSplit

omit [DecidableEq α] in
theorem init (slots : Finset α) : SlotSplit slots slots [] where
  nodup := List.nodup_nil
  subset s hs := absurd hs List.not_mem_nil
  mem_free s := by simp

/-- Taking a free slot. -/
theorem take (h : SlotSplit slots free live) (hs : s ∈ free) :
    SlotSplit slots (free.erase s) (s :: live) where
  nodup := List.nodup_cons.2 ⟨((h.mem_free s).1 hs).2, h.nodup⟩
  subset t ht := by
    rcases List.mem_cons.1 ht with rfl | hlive
    · exact ((h.mem_free t).1 hs).1
    · exact h.subset t hlive
  mem_free t := by
    rw [Finset.mem_erase, h.mem_free, List.mem_cons, not_or]
    exact and_left_comm

/-- Releasing a live slot. -/
theorem release (h : SlotSplit slots free live) (hs : s ∈ live) :
    SlotSplit slots (insert s free) (live.erase s) where
  nodup := h.nodup.erase s
  subset t ht := h.subset t (List.mem_of_mem_erase ht)
  mem_free t := by
    rw [Finset.mem_insert, h.mem_free, h.nodup.mem_erase_iff]
    by_cases ht : t = s
    · subst ht
      simp [h.subset t hs]
    · simp [ht]

/-- **No slot is free iff as many are live as there are.** -/
theorem free_eq_empty_iff (h : SlotSplit slots free live) : free = ∅ ↔ live.length = slots.card := by
  have hlive : live.toFinset ⊆ slots := fun s hs => h.subset s (List.mem_toFinset.1 hs)
  rw [← List.toFinset_card_of_nodup h.nodup]
  constructor
  · intro hfree
    congr 1
    refine Finset.Subset.antisymm hlive fun s hs => List.mem_toFinset.2 ?_
    by_contra hs'
    have hmem := (h.mem_free s).2 ⟨hs, hs'⟩
    rw [hfree] at hmem
    exact absurd hmem (Finset.notMem_empty s)
  · intro hcard
    have heq := Finset.eq_of_subset_of_card_le hlive hcard.ge
    refine Finset.eq_empty_of_forall_notMem fun s hs => ?_
    obtain ⟨hslot, hs'⟩ := (h.mem_free s).1 hs
    rw [← heq] at hslot
    exact hs' (List.mem_toFinset.1 hslot)

end SlotSplit

end

/-! ## Words as sets of positions -/

section
variable {w : ℕ} {x : BitVec w} {i : ℕ}

/-- The positions of the bits that are set. -/
def members (x : BitVec w) : Finset ℕ := (Finset.range w).filter fun i => x.getLsbD i

theorem mem_members : i ∈ members x ↔ x.getLsbD i := by
  rw [members, Finset.mem_filter, Finset.mem_range, and_iff_right_iff_imp]
  exact BitVec.lt_of_getLsbD

theorem members_allOnes : members (~~~0#w) = Finset.range w := by
  ext i
  rw [mem_members, Finset.mem_range]
  simp

theorem members_eq_empty_iff : members x = ∅ ↔ x = 0#w := by
  constructor
  · intro h
    refine BitVec.eq_of_getLsbD_eq fun i _ => ?_
    have hi : i ∉ members x := h ▸ Finset.notMem_empty i
    rw [mem_members, Bool.not_eq_true] at hi
    rw [hi, BitVec.getLsbD_zero]
  · rintro rfl
    refine Finset.eq_empty_of_forall_notMem fun i hi => ?_
    rw [mem_members, BitVec.getLsbD_zero] at hi
    cases hi

/-- Putting a position into the set. -/
theorem members_or_shiftLeft (hi : i < w) : members (x ||| 1#w <<< i) = insert i (members x) := by
  ext j
  rw [mem_members, Finset.mem_insert, mem_members, ← BitVec.twoPow_eq, BitVec.getLsbD_or,
    BitVec.getLsbD_twoPow]
  by_cases hij : i = j
  · simp [hij, hij ▸ hi]
  · simp [hij, Ne.symm hij]

/-! ## The lowest position -/

/-- The lowest position is in the set. -/
theorem ctz_mem_members (hx : x ≠ 0#w) : x.ctz.toNat ∈ members x :=
  mem_members.2 (BitVec.getLsbD_true_ctz_of_ne_zero hx)

/-- A word is its lowest bit and the bits above it. -/
theorem toNat_eq (hx : x ≠ 0#w) :
    x.toNat = 2 ^ (x.ctz.toNat + 1) * (x.toNat / 2 ^ (x.ctz.toNat + 1)) + 2 ^ x.ctz.toNat := by
  have hmod : x.toNat % 2 ^ (x.ctz.toNat + 1) = 2 ^ x.ctz.toNat := by
    apply Nat.eq_of_testBit_eq
    intro i
    rw [Nat.testBit_mod_two_pow, Nat.testBit_two_pow, BitVec.testBit_toNat]
    rcases lt_trichotomy i x.ctz.toNat with hlt | rfl | hgt
    · rw [BitVec.getLsbD_false_of_lt_ctz hlt, Bool.and_false, decide_eq_false (by omega)]
    · rw [BitVec.getLsbD_true_ctz_of_ne_zero hx]
      simp
    · rw [decide_eq_false (by omega), decide_eq_false (by omega), Bool.false_and]
  conv_lhs => rw [← Nat.div_add_mod x.toNat (2 ^ (x.ctz.toNat + 1)), hmod]

/-- `x &&& (x - 1)` has the bits above the lowest one. -/
theorem toNat_and_sub_one (hx : x ≠ 0#w) :
    (x &&& (x - 1#w)).toNat = 2 ^ (x.ctz.toNat + 1) * (x.toNat / 2 ^ (x.ctz.toNat + 1)) := by
  have hpos : 0 < x.toNat := Nat.pos_of_ne_zero fun h => hx (BitVec.toNat_inj.1 (by simpa using h))
  have hsub : (x - 1#w).toNat = x.toNat - 1 := by
    have hlt := x.isLt
    rw [BitVec.toNat_sub_of_le, BitVec.toNat_ofNat, Nat.mod_eq_of_lt (by omega)]
    rw [BitVec.le_def, BitVec.toNat_ofNat, Nat.mod_eq_of_lt (by omega)]
    omega
  have hlow := toNat_eq hx
  generalize x.ctz.toNat = t at hlow ⊢
  generalize x.toNat / 2 ^ (t + 1) = q at hlow ⊢
  rw [BitVec.toNat_and, hsub, hlow]
  have htwo : 0 < 2 ^ t := Nat.two_pow_pos t
  have hlt : 2 ^ t < 2 ^ (t + 1) := by rw [Nat.pow_succ]; omega
  have hpred : 2 ^ (t + 1) * q + 2 ^ t - 1 = 2 ^ (t + 1) * q + (2 ^ t - 1) := by omega
  rw [hpred]
  apply Nat.eq_of_testBit_eq
  intro i
  rw [Nat.testBit_and, Nat.testBit_two_pow_mul_add _ hlt, Nat.testBit_two_pow_mul_add _ (by omega),
    Nat.testBit_two_pow_mul]
  by_cases hi : i < t + 1
  · have habove : ¬ i ≥ t + 1 := Nat.not_le_of_lt hi
    rw [if_pos hi, if_pos hi, Nat.testBit_two_pow, Nat.testBit_two_pow_sub_one, decide_eq_false habove,
      Bool.false_and]
    -- below `t` the first bit is clear, at `t` the second one
    by_cases ht : t = i
    · rw [decide_eq_false (Nat.not_lt_of_le (Nat.le_of_eq ht)), Bool.and_false]
    · rw [decide_eq_false ht, Bool.false_and]
  · rw [if_neg hi, if_neg hi, Bool.and_self, decide_eq_true (by omega), Bool.true_and]

theorem and_sub_one_le (x : BitVec w) : x &&& (x - 1#w) ≤ x := by
  rw [BitVec.le_def, BitVec.toNat_and]
  exact Nat.and_le_left

/-- **The difference of `x` and `x &&& (x - 1)` is the lowest bit.** -/
theorem sub_and_sub_one (hx : x ≠ 0#w) :
    x - (x &&& (x - 1#w)) = BitVec.twoPow w x.ctz.toNat := by
  have hlow := toNat_eq hx
  have hand := toNat_and_sub_one hx
  have hlt : x.ctz.toNat < w := BitVec.lt_of_getLsbD (BitVec.getLsbD_true_ctz_of_ne_zero hx)
  apply BitVec.eq_of_toNat_eq
  rw [BitVec.toNat_sub_of_le (and_sub_one_le x), BitVec.toNat_twoPow_of_lt hlt]
  have htwo := Nat.two_pow_pos x.ctz.toNat
  omega

/-- **`x &&& (x - 1)` takes the lowest position out of the set.** -/
theorem members_and_sub_one (hx : x ≠ 0#w) :
    members (x &&& (x - 1#w)) = (members x).erase x.ctz.toNat := by
  have hlow := toNat_eq hx
  have hand := toNat_and_sub_one hx
  ext i
  rw [mem_members, Finset.mem_erase, mem_members, ← BitVec.testBit_toNat, ← BitVec.testBit_toNat, hand]
  conv_rhs => rw [hlow]
  generalize x.ctz.toNat = t
  have hlt : 2 ^ t < 2 ^ (t + 1) := Nat.pow_lt_pow_right (by omega) (by omega)
  rw [Nat.testBit_two_pow_mul_add _ hlt, Nat.testBit_two_pow_mul]
  by_cases hi : i < t + 1
  · rw [if_pos hi, Nat.testBit_two_pow, decide_eq_false (by omega)]
    simp [eq_comm]
  · rw [if_neg hi, decide_eq_true (by omega)]
    simp only [Bool.true_and, iff_and_self]
    omega

/-- The position of a single bit. -/
theorem ctz_twoPow (hi : i < w) : (BitVec.twoPow w i).ctz.toNat = i := by
  have hne : BitVec.twoPow w i ≠ 0#w := by
    intro h
    have hbit := congrArg (BitVec.getLsbD · i) h
    simp [hi] at hbit
  have hbit := BitVec.getLsbD_true_ctz_of_ne_zero hne
  rw [BitVec.getLsbD_twoPow, Bool.and_eq_true, decide_eq_true_iff, decide_eq_true_iff] at hbit
  exact hbit.2.symm

end

end Fsvfs.Lib
