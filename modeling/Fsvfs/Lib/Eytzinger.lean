/-
  Eytzinger order — a sorted list laid out as a complete binary tree.

  `Eytzinger` is what a user of such a library relies on: `eytzingerize`
  permutes a list, and on a permuted sorted list the search finds a key iff
  it is there.  `Eytzinger.layout` is the layout itself: the children of
  position `i` are `2i + 1` and `2i + 2`, and the sorted list is read off the
  positions in order (`inorder`), so that a search descends like in a search
  tree.
-/
import Mathlib.Data.List.Sort
import Mathlib.Order.Defs.LinearOrder
import Mathlib.Tactic.Common
import Mathlib.Tactic.Linarith

namespace Fsvfs.Lib

/-- Laying out a sorted list for searching, and searching it by a key. -/
structure Eytzinger where
  eytzingerize : {α : Type} → List α → List α
  searchByKey : {α κ : Type} → [LinearOrder κ] → List α → κ → (α → κ) → Option ℕ
  perm : ∀ {α : Type} (l : List α), (eytzingerize l).Perm l
  found : ∀ {α κ : Type} [LinearOrder κ] (l : List α) (k : κ) (f : α → κ),
    (l.map f).SortedLT → ∀ {i}, searchByKey (eytzingerize l) k f = some i →
      ∃ a, (eytzingerize l)[i]? = some a ∧ f a = k
  finds : ∀ {α κ : Type} [LinearOrder κ] (l : List α) (k : κ) (f : α → κ),
    (l.map f).SortedLT → k ∈ l.map f → (searchByKey (eytzingerize l) k f).isSome

namespace Eytzinger

/-! ## Positions in order -/

/-- The positions below `i` of a tree with `n` nodes, in order. -/
def inorder (n : ℕ) : ℕ → ℕ → List ℕ
  | 0, _ => []
  | fuel + 1, i =>
    if i < n then inorder n fuel (2 * i + 1) ++ i :: inorder n fuel (2 * i + 2) else []

/-- Position `j` lies at or below `i`. -/
def Below (i j : ℕ) : Prop := ∃ k, (j + 1) / 2 ^ k = i + 1

theorem below_self (i : ℕ) : Below i i := ⟨0, by simp⟩

theorem below_iff {i j : ℕ} : Below i j ↔ j = i ∨ Below (2 * i + 1) j ∨ Below (2 * i + 2) j := by
  constructor
  · rintro ⟨k, hk⟩
    cases k with
    | zero => left; simpa using hk
    | succ k =>
      right
      rw [pow_succ, ← Nat.div_div_eq_div_mul] at hk
      have : (j + 1) / 2 ^ k = 2 * i + 2 ∨ (j + 1) / 2 ^ k = 2 * i + 3 := by omega
      exact this.imp (fun h => ⟨k, by omega⟩) fun h => ⟨k, by omega⟩
  · rintro (rfl | ⟨k, hk⟩ | ⟨k, hk⟩)
    · exact below_self j
    · exact ⟨k + 1, by rw [pow_succ, ← Nat.div_div_eq_div_mul]; omega⟩
    · exact ⟨k + 1, by rw [pow_succ, ← Nat.div_div_eq_div_mul]; omega⟩

theorem Below.le {i j : ℕ} : Below i j → i ≤ j := by
  rintro ⟨k, hk⟩
  have := Nat.div_le_self (j + 1) (2 ^ k)
  omega

/-- The positions below the two children of a node are different. -/
theorem not_below_both {i j : ℕ} (h₁ : Below (2 * i + 1) j) (h₂ : Below (2 * i + 2) j) : False := by
  obtain ⟨k, hk⟩ := h₁
  obtain ⟨l, hl⟩ := h₂
  have hdiv : ∀ {a b : ℕ}, a < b → (j + 1) / 2 ^ b ≤ (j + 1) / 2 ^ a / 2 := fun {a b} hab => by
    rw [Nat.div_div_eq_div_mul, ← pow_succ]
    exact Nat.div_le_div_left (Nat.pow_le_pow_right (by omega) hab) (by positivity)
  rcases Nat.lt_trichotomy k l with h | rfl | h
  · have := hdiv h; omega
  · omega
  · have := hdiv h; omega

theorem below_zero (j : ℕ) : Below 0 j := by
  induction j using Nat.strong_induction_on with
  | _ j ih =>
    rcases Nat.eq_zero_or_pos j with rfl | hj
    · exact below_self 0
    · obtain ⟨k, hk⟩ := ih ((j - 1) / 2) (by omega)
      refine ⟨k + 1, ?_⟩
      rw [pow_succ, Nat.mul_comm, ← Nat.div_div_eq_div_mul,
        show (j + 1) / 2 = (j - 1) / 2 + 1 by omega, hk]

theorem mem_inorder {n j : ℕ} : ∀ {fuel i : ℕ}, n ≤ fuel + i →
    (j ∈ inorder n fuel i ↔ j < n ∧ Below i j)
  | 0, i, h => by
    simp only [inorder, List.not_mem_nil, false_iff, not_and]
    intro hj hb
    have := hb.le; omega
  | fuel + 1, i, h => by
    unfold inorder
    split_ifs with hi
    · rw [List.mem_append, List.mem_cons, mem_inorder (by omega), mem_inorder (by omega),
        below_iff (i := i)]
      constructor
      · rintro (⟨h1, h2⟩ | rfl | ⟨h1, h2⟩)
        · exact ⟨h1, Or.inr (Or.inl h2)⟩
        · exact ⟨hi, Or.inl rfl⟩
        · exact ⟨h1, Or.inr (Or.inr h2)⟩
      · rintro ⟨h1, rfl | h2 | h2⟩
        · exact Or.inr (Or.inl rfl)
        · exact Or.inl ⟨h1, h2⟩
        · exact Or.inr (Or.inr ⟨h1, h2⟩)
    · simp only [List.not_mem_nil, false_iff, not_and]
      intro hj hb
      have := hb.le; omega

theorem nodup_inorder {n : ℕ} : ∀ {fuel i : ℕ}, n ≤ fuel + i → (inorder n fuel i).Nodup
  | 0, i, _ => List.nodup_nil
  | fuel + 1, i, h => by
    unfold inorder
    split_ifs with hi
    · refine List.nodup_append.2 ⟨nodup_inorder (by omega), List.nodup_cons.2
        ⟨fun hm => ?_, nodup_inorder (by omega)⟩, ?_⟩
      · have := ((mem_inorder (by omega)).1 hm).2.le; omega
      · intro a ha b hb hab
        subst hab
        have h₁ := ((mem_inorder (by omega)).1 ha).2
        rcases List.mem_cons.1 hb with rfl | hb
        · have := h₁.le; omega
        · exact not_below_both h₁ ((mem_inorder (by omega)).1 hb).2
    · exact List.nodup_nil

theorem inorder_perm (n : ℕ) : (inorder n n 0).Perm (List.range n) := by
  refine (List.perm_ext_iff_of_nodup (nodup_inorder (by omega)) List.nodup_range).2 fun j => ?_
  rw [mem_inorder (by omega), List.mem_range]
  exact and_iff_left (below_zero j)

/-! ## The layout -/

/-- The elements of `l` with their positions, sorted by position. -/
def placed {α : Type} (l : List α) : List (ℕ × α) :=
  ((inorder l.length l.length 0).zip l).insertionSort (fun a b => a.1 ≤ b.1)

/-- The element of position `i` is the `i`-th one. -/
def arrange {α : Type} (l : List α) : List α := (placed l).map Prod.snd

/-- Descend from position `i` to the key `k`. -/
def descend {α κ : Type} [LinearOrder κ] (l : List α) (k : κ) (f : α → κ) : ℕ → ℕ → Option ℕ
  | 0, _ => none
  | fuel + 1, i => match l[i]? with
    | none => none
    | some a =>
      if k = f a then some i
      else if k < f a then descend l k f fuel (2 * i + 1) else descend l k f fuel (2 * i + 2)

section
variable {α κ : Type} [LinearOrder κ]

theorem length_inorder (n : ℕ) : (inorder n n 0).length = n := by
  simpa using (inorder_perm n).length_eq

theorem placed_perm (l : List α) : (placed l).Perm ((inorder l.length l.length 0).zip l) :=
  List.perm_insertionSort _ _

theorem map_fst_placed (l : List α) : (placed l).map Prod.fst = List.range l.length := by
  have hp : ((placed l).map Prod.fst).Perm (List.range l.length) := by
    refine ((placed_perm l).map Prod.fst).trans ?_
    rw [List.map_fst_zip (by rw [length_inorder])]
    exact inorder_perm _
  have hs : ((placed l).map Prod.fst).Pairwise (· ≤ ·) := by
    rw [List.pairwise_map]
    exact List.pairwise_insertionSort _ _
  refine hp.eq_of_pairwise (fun a b _ _ => Nat.le_antisymm) hs ?_
  exact List.pairwise_lt_range.imp Nat.le_of_lt

theorem arrange_perm (l : List α) : (arrange l).Perm l := by
  refine ((placed_perm l).map Prod.snd).trans ?_
  rw [List.map_snd_zip (by rw [length_inorder])]

theorem length_arrange (l : List α) : (arrange l).length = l.length := (arrange_perm l).length_eq

/-- Reading the layout in order gives the list back. -/
theorem arrange_inorder (l : List α) :
    (inorder l.length l.length 0).map ((arrange l)[·]?) = l.map some := by
  refine List.ext_getElem? fun k => ?_
  rw [List.getElem?_map, List.getElem?_map]
  have hlen := length_inorder l.length
  by_cases hk : k < l.length
  · rw [List.getElem?_eq_getElem (by omega), List.getElem?_eq_getElem hk]
    simp only [Option.map_some, Option.some.injEq]
    have hk' : k < (inorder l.length l.length 0).length := by omega
    set i := (inorder l.length l.length 0)[k]
    have hmem : (i, l[k]) ∈ placed l := by
      rw [(placed_perm l).mem_iff, List.mem_iff_getElem]
      exact ⟨k, by simp [hlen, hk], by simp [i]⟩
    obtain ⟨j, hj, hij⟩ := List.mem_iff_getElem.1 hmem
    have hji : j = i := by
      have h1 := congrArg (fun m => m[j]?) (map_fst_placed l)
      simp only [List.getElem?_map, List.getElem?_eq_getElem hj, hij, Option.map_some] at h1
      obtain ⟨_, h2⟩ := List.getElem?_eq_some_iff.1 h1.symm
      simpa using h2
    subst hji
    simp [arrange, List.getElem?_eq_getElem hj, hij]
  · rw [List.getElem?_eq_none (by omega), List.getElem?_eq_none (by omega)]; rfl

theorem descend_found (l : List α) (k : κ) (f : α → κ) : ∀ {fuel i j : ℕ},
    descend l k f fuel i = some j → ∃ a, l[j]? = some a ∧ f a = k
  | 0, _, _, h => by cases h
  | fuel + 1, i, j, h => by
    unfold descend at h
    rcases hi : l[i]? with _ | a
    · simp [hi] at h
    · simp only [hi] at h
      split_ifs at h with h1 h2
      · cases h; exact ⟨a, hi, h1.symm⟩
      · exact descend_found l k f h
      · exact descend_found l k f h

/-- Position `a` holds a smaller key than position `b`. -/
def Less (l : List α) (f : α → κ) (a b : ℕ) : Prop :=
  ∀ x y, l[a]? = some x → l[b]? = some y → f x < f y

/-- In a search tree, descending finds every key below the start. -/
theorem descend_finds (l : List α) (k : κ) (f : α → κ) : ∀ {fuel i : ℕ},
    (inorder l.length fuel i).Pairwise (Less l f) →
    (∃ j ∈ inorder l.length fuel i, ∃ a, l[j]? = some a ∧ f a = k) →
      (descend l k f fuel i).isSome
  | 0, _, _, h => by simp [inorder] at h
  | fuel + 1, i, hs, h => by
    unfold inorder at hs h
    split_ifs at hs h with hi
    · obtain ⟨hl, hr, hlr⟩ := List.pairwise_append.1 hs
      obtain ⟨hir, hr⟩ := List.pairwise_cons.1 hr
      obtain ⟨j, hj, a, ha, hk⟩ := h
      have hli : l[i]? = some l[i] := List.getElem?_eq_getElem hi
      simp only [descend, hli]
      split_ifs with h1 h2
      · rfl
      · refine descend_finds l k f hl ⟨j, ?_, a, ha, hk⟩
        rcases List.mem_append.1 hj with hj | hj
        · exact hj
        · rcases List.mem_cons.1 hj with rfl | hj
          · rw [hli] at ha; cases ha; exact absurd hk.symm h1
          · have := hir j hj _ _ hli ha
            rw [hk] at this; exact absurd h2 this.asymm
      · refine descend_finds l k f hr ⟨j, ?_, a, ha, hk⟩
        rcases List.mem_append.1 hj with hj | hj
        · have := hlr j hj i (by simp) _ _ ha hli
          rw [hk] at this; exact absurd this h2
        · rcases List.mem_cons.1 hj with rfl | hj
          · rw [hli] at ha; cases ha; exact absurd hk.symm h1
          · exact hj
    · simp at h

/-- The arranged list is a search tree when the list is sorted. -/
theorem pairwise_less (l : List α) (f : α → κ) (h : (l.map f).SortedLT) :
    (inorder l.length l.length 0).Pairwise (Less (arrange l) f) := by
  have h1 : (l.map some).Pairwise fun a b => ∀ x y, a = some x → b = some y → f x < f y := by
    rw [List.pairwise_map]
    refine (List.pairwise_map.1 h.pairwise).imp fun {a b} hab x y hx hy => ?_
    cases hx; cases hy; exact hab
  rw [← arrange_inorder, List.pairwise_map] at h1
  exact h1

/-- **The Eytzinger layout.** -/
def layout : Eytzinger where
  eytzingerize := arrange
  searchByKey l k f := descend l k f l.length 0
  perm := arrange_perm
  found l k f _ _ h := descend_found _ _ _ h
  finds l k f hs hk := by
    refine descend_finds _ _ _ ?_ ?_
    · rw [length_arrange]; exact pairwise_less l f hs
    · obtain ⟨a, ha, hak⟩ := List.mem_map.1 hk
      obtain ⟨j, hj⟩ := List.mem_iff_getElem?.1 ((arrange_perm l).mem_iff.2 ha)
      refine ⟨j, ?_, a, hj, hak⟩
      obtain ⟨hlt, -⟩ := List.getElem?_eq_some_iff.1 hj
      rw [mem_inorder (by omega)]
      exact ⟨hlt, below_zero j⟩

end

end Eytzinger

end Fsvfs.Lib
