/-
  Windows of a sequence, and sequences that are mapped block by block in places.

  A sequence is a function of the position.  `patched D size l f` is `f` where
  every block of `size` elements of an extent of `l`, counted from the start of
  the extent, is replaced by what `D` makes of it.
-/
import Mathlib.Data.List.Range
import Mathlib.Data.Nat.Notation
import Mathlib.Tactic.Common

namespace Fsvfs.Lib

variable {α : Type}

/-- The elements of a sequence from a position on. -/
def window (f : ℕ → α) (start len : ℕ) : List α := (List.range len).map fun i => f (start + i)

section
variable (f g : ℕ → α) {start len : ℕ}

@[simp] theorem length_window (start len : ℕ) : (window f start len).length = len := by
  simp [window]

@[simp] theorem window_zero (start : ℕ) : window f start 0 = [] := rfl

theorem getElem?_window {i : ℕ} (h : i < len) : (window f start len)[i]? = some (f (start + i)) := by
  simp [window, h]

variable {f g} in
theorem window_congr (h : ∀ i, start ≤ i → i < start + len → f i = g i) :
    window f start len = window g start len := by
  refine List.map_congr_left fun i hi => ?_
  rw [List.mem_range] at hi
  exact h _ (by omega) (by omega)

theorem window_add (start m n : ℕ) :
    window f start (m + n) = window f start m ++ window f (start + m) n := by
  rw [window, List.range_add, List.map_append, List.map_map]
  congr 1
  refine List.map_congr_left fun i _ => ?_
  rw [Function.comp_apply, Nat.add_assoc]

theorem take_window (start len k : ℕ) :
    (window f start len).take k = window f start (min k len) := by
  rw [window, window, ← List.map_take, List.take_range]

theorem drop_window (start len k : ℕ) :
    (window f start len).drop k = window f (start + k) (len - k) := by
  rcases Nat.le_total k len with h | h
  · obtain ⟨n, rfl⟩ := Nat.exists_eq_add_of_le h
    rw [window_add, List.drop_left' (length_window f start k), Nat.add_sub_cancel_left]
  · rw [List.drop_of_length_le (by simpa using h), Nat.sub_eq_zero_of_le h]
    rfl

/-- A window is its first elements and the rest. -/
theorem window_min_append (start len k : ℕ) :
    window f start (min len k) ++ window f (start + k) (len - k) = window f start len := by
  rcases Nat.le_total len k with h | h
  · rw [Nat.min_eq_left h, Nat.sub_eq_zero_of_le h, window_zero, List.append_nil]
  · rw [Nat.min_eq_right h, ← window_add, Nat.add_sub_cancel' h]

/-- A list is a window of a sequence if its elements are. -/
theorem eq_window {l : List α} (hlen : l.length = len)
    (h : ∀ i < len, l[i]? = some (f (start + i))) : l = window f start len := by
  refine List.ext_getElem? fun i => ?_
  by_cases hi : i < len
  · rw [h i hi, getElem?_window f hi]
  · rw [List.getElem?_eq_none (by omega), List.getElem?_eq_none (by simpa using Nat.not_lt.1 hi)]

end

/-! ## Blocks -/

section
variable (D : List α → List α) (size : ℕ) (f : ℕ → α) {origin i : ℕ}

/-- The start of the block of a position, for blocks from an origin on. -/
def blockStart (origin i : ℕ) : ℕ := origin + (i - origin) / size * size

/-- A sequence mapped block by block, from an origin on. -/
def mapBlocks (origin i : ℕ) : α :=
  (D (window f (blockStart size origin i) size)).getD ((i - origin) % size) (f i)

variable {size} in
/-- A block may be the origin as well. -/
theorem blockStart_of_dvd {k : ℕ} (h : origin + k * size ≤ i) :
    blockStart size (origin + k * size) i = blockStart size origin i := by
  rcases Nat.eq_zero_or_pos size with rfl | hsize
  · simp [blockStart]
  · have hsub : i - origin = i - (origin + k * size) + k * size := by omega
    rw [blockStart, blockStart, hsub, Nat.add_mul_div_right _ _ hsize, Nat.add_mul]
    omega

variable {size} in
theorem mapBlocks_of_dvd {k : ℕ} (h : origin + k * size ≤ i) :
    mapBlocks D size f (origin + k * size) i = mapBlocks D size f origin i := by
  have hsub : i - origin = i - (origin + k * size) + k * size := by omega
  rw [mapBlocks, mapBlocks, blockStart_of_dvd h, hsub, Nat.add_mul_mod_self_right]

variable {D size} in
/-- A block of the mapped sequence. -/
theorem window_mapBlocks (hlen : ∀ b : List α, b.length = size → (D b).length = size) :
    window (mapBlocks D size f origin) origin size = D (window f origin size) := by
  refine (eq_window _ (hlen _ (length_window f _ _)) fun j hj => ?_).symm
  have hblock : blockStart size origin (origin + j) = origin := by
    rw [blockStart, Nat.add_sub_cancel_left, Nat.div_eq_of_lt hj]
    omega
  rw [mapBlocks, hblock, Nat.add_sub_cancel_left, Nat.mod_eq_of_lt hj, List.getD_eq_getElem?_getD,
    List.getElem?_eq_getElem (by rw [hlen _ (length_window f _ _)]; exact hj)]
  rfl

end

/-! ## Extents -/

/-- The positions from a start to an end. -/
structure Extent where
  start : ℕ
  stop : ℕ
deriving DecidableEq

namespace Extent

/-- A position lies in an extent. -/
def Mem (r : Extent) (i : ℕ) : Prop := r.start ≤ i ∧ i < r.stop

instance (r : Extent) (i : ℕ) : Decidable (r.Mem i) := inferInstanceAs (Decidable (_ ∧ _))

/-- No position lies in both extents. -/
def Apart (r s : Extent) : Prop := ∀ i, ¬ (r.Mem i ∧ s.Mem i)

instance : Std.Symm Apart := ⟨fun _ _ h i hi => h i hi.symm⟩

end Extent

section
variable (D : List α → List α) (size : ℕ) (f : ℕ → α)

/-- A sequence whose blocks are mapped in some extents. -/
def patched (l : List Extent) (i : ℕ) : α := match l.find? (·.Mem i) with
  | some r => mapBlocks D size f r.start i
  | none => f i

theorem patched_of_notMem {l : List Extent} {i : ℕ} (h : ∀ r ∈ l, ¬ r.Mem i) :
    patched D size f l i = f i := by
  have hfind : l.find? (·.Mem i) = none := List.find?_eq_none.2 fun r hr => by simpa using h r hr
  rw [patched, hfind]

theorem patched_of_mem {l : List Extent} (hl : l.Pairwise Extent.Apart) {r : Extent} (hr : r ∈ l) {i : ℕ}
    (hi : r.Mem i) : patched D size f l i = mapBlocks D size f r.start i := by
  rcases hfind : l.find? (·.Mem i) with _ | s
  · exact absurd hi (by simpa using List.find?_eq_none.1 hfind r hr)
  · have hs : s.Mem i := by simpa using List.find?_some hfind
    have heq : r = s := by
      by_contra hne
      exact hl.forall hr (List.mem_of_find?_eq_some hfind) hne i ⟨hi, hs⟩
    rw [patched, hfind, heq]

/-- The order of the extents does not matter. -/
theorem patched_perm {l l' : List Extent} (h : l.Perm l') (hl : l.Pairwise Extent.Apart) :
    patched D size f l = patched D size f l' := by
  have hl' : l'.Pairwise Extent.Apart := h.pairwise hl fun hrs i hi => hrs i hi.symm
  funext i
  by_cases hmem : ∃ r ∈ l, r.Mem i
  · obtain ⟨r, hr, hi⟩ := hmem
    rw [patched_of_mem D size f hl hr hi, patched_of_mem D size f hl' (h.mem_iff.1 hr) hi]
  · have hnone : ∀ r ∈ l, ¬ r.Mem i := fun r hr hi => hmem ⟨r, hr, hi⟩
    rw [patched_of_notMem D size f hnone, patched_of_notMem D size f fun r hr => hnone r (h.mem_iff.2 hr)]

end

end Fsvfs.Lib
