/-
  Vectors that are kept sorted with a binary search.

  `binarySearchBy` is that of the standard library of Rust: it halves what is left
  until one element is.  `upsert` changes the element of a key, or inserts one
  where the search ended.

  * `binarySearchBy_of_ok`, `binarySearchBy_of_error`: what the search finds in a
    vector with ascending keys;
  * `Ascending.upsert`, `find_upsert`: the keys stay ascending, and the vector is a
    map from them.
-/
import Mathlib.Algebra.Order.Ring.Nat
import Mathlib.Data.List.Basic
import Mathlib.Tactic.Common

namespace Fsvfs.Lib.SortedVec

/-! ## The search -/

/-- The loop of the search. -/
def narrow (f : ℕ → Ordering) : ℕ → ℕ → ℕ → ℕ
  | 0, base, _ => base
  | fuel + 1, base, size =>
    if size ≤ 1 then base
    else
      let half := size / 2
      let mid := base + half
      narrow f fuel (if f mid = .gt then base else mid) (size - half)

/-- `slice::binary_search_by`: where an element is found (`ok`), or where it could
    be inserted (`error`). -/
def binarySearchBy (f : ℕ → Ordering) (len : ℕ) : Except ℕ ℕ :=
  if len = 0 then .error 0
  else
    let base := narrow f len 0 len
    match f base with
    | .eq => .ok base
    | .lt => .error (base + 1)
    | .gt => .error base

theorem insertIdx_eq_take_drop {α : Type} {l : List α} {i : ℕ} (h : i ≤ l.length) (a : α) :
    l.insertIdx i a = l.take i ++ a :: l.drop i := by
  induction l generalizing i with
  | nil =>
    obtain rfl : i = 0 := Nat.le_zero.1 h
    rfl
  | cons b l ih =>
    rcases i with _ | i
    · rfl
    · rw [List.insertIdx_succ_cons, ih (Nat.le_of_succ_le_succ h)]
      rfl

/-- What comes before an element that is not too large is too small. -/
def Separates (f : ℕ → Ordering) (len : ℕ) : Prop := ∀ i j, i < j → j < len → f j ≠ .gt → f i = .lt

section
variable {f : ℕ → Ordering} {len : ℕ}

/-- What is left of the vector holds the last element that is not too large. -/
structure Left (f : ℕ → Ordering) (len base size : ℕ) : Prop where
  pos : 0 < size
  le : base + size ≤ len
  start : base = 0 ∨ f base ≠ .gt
  after : ∀ i, base + size ≤ i → i < len → f i = .gt

theorem left_narrow (hf : Separates f len) {fuel base size : ℕ} (h : Left f len base size)
    (hfuel : size ≤ fuel + 1) : Left f len (narrow f fuel base size) 1 := by
  induction fuel generalizing base size with
  | zero =>
    obtain rfl : size = 1 := Nat.le_antisymm hfuel h.pos
    exact h
  | succ fuel ih =>
    rw [narrow]
    by_cases hsize : size ≤ 1
    · rw [if_pos hsize]
      obtain rfl : size = 1 := Nat.le_antisymm hsize h.pos
      exact h
    · rw [if_neg hsize]
      dsimp only
      have hle := h.le
      have hmid : base + size / 2 < len := by omega
      by_cases hgt : f (base + size / 2) = .gt
      · rw [if_pos hgt]
        refine ih ⟨by omega, by omega, h.start, fun i hi hlen => ?_⟩ (by omega)
        by_contra hne
        rcases Nat.eq_or_lt_of_le (show base + size / 2 ≤ i by omega) with rfl | hlt
        · exact hne hgt
        · rw [hf _ i hlt hlen hne] at hgt
          cases hgt
      · rw [if_neg hgt]
        exact ih ⟨by omega, by omega, .inr hgt, fun i hi => h.after i (by omega)⟩ (by omega)

theorem left_search (hf : Separates f len) (hlen : len ≠ 0) : Left f len (narrow f len 0 len) 1 :=
  left_narrow hf ⟨by omega, by omega, .inl rfl, fun i hi hlt => by omega⟩ (by omega)

/-- **An element that is found.** -/
theorem binarySearchBy_of_ok (hf : Separates f len) {i : ℕ} (h : binarySearchBy f len = .ok i) :
    i < len ∧ f i = .eq := by
  rw [binarySearchBy] at h
  split_ifs at h with hlen
  have hleft := left_search hf hlen
  generalize narrow f len 0 len = base at h hleft
  dsimp only at h
  rcases hbase : f base with _ | _ | _ <;> rw [hbase] at h <;> cases h
  exact ⟨hleft.le, hbase⟩

/-- **Where an element that is not found could be inserted.** -/
theorem binarySearchBy_of_error (hf : Separates f len) {i : ℕ} (h : binarySearchBy f len = .error i) :
    i ≤ len ∧ (∀ j < i, f j = .lt) ∧ ∀ j, i ≤ j → j < len → f j = .gt := by
  rw [binarySearchBy] at h
  split_ifs at h with hlen
  · cases h
    exact ⟨Nat.zero_le _, fun j hj => by omega, fun j _ hj => by omega⟩
  · have hleft := left_search hf hlen
    generalize narrow f len 0 len = base at h hleft
    dsimp only at h
    have hle := hleft.le
    rcases hbase : f base with _ | _ | _ <;> rw [hbase] at h <;> cases h
    · refine ⟨hle, fun j hj => ?_, hleft.after⟩
      rcases Nat.eq_or_lt_of_le (Nat.le_of_lt_succ hj) with rfl | hlt
      · exact hbase
      · exact hf j base hlt hle (by rw [hbase]; decide)
    · obtain rfl : i = 0 := hleft.start.resolve_right fun hne => hne hbase
      refine ⟨Nat.zero_le _, fun j hj => by omega, fun j _ hj => ?_⟩
      rcases Nat.eq_zero_or_pos j with rfl | hpos
      · exact hbase
      · exact hleft.after j hpos hj

end

/-! ## Sorted vectors -/

section
variable {ι K : Type} [LinearOrder K] (key : ι → K)

/-- `slice::binary_search_by_key`. -/
def binarySearchByKey (l : List ι) (k : K) : Except ℕ ℕ :=
  binarySearchBy (fun i => (l[i]?.map fun a => compare (key a) k).getD .gt) l.length

/-- Changing the element of a key, or inserting one. -/
def upsert (l : List ι) (k : K) (change : ι → ι) (fresh : ι) : List ι :=
  match binarySearchByKey key l k with
  | .ok i => l.modify i change
  | .error i => l.insertIdx i fresh

/-- The keys are ascending. -/
def Ascending (l : List ι) : Prop := l.Pairwise fun a b => key a < key b

/-- The element of a key. -/
def find (l : List ι) (k : K) : Option ι := l.find? fun a => key a = k

variable {key} {l : List ι} {k : K}

theorem Ascending.separates (hl : Ascending key l) :
    Separates (fun i => (l[i]?.map fun a => compare (key a) k).getD .gt) l.length := by
  intro i j hij hj hne
  dsimp only at hne ⊢
  have hi : i < l.length := hij.trans hj
  have hlt := List.pairwise_iff_getElem.1 hl i j hi hj hij
  rw [List.getElem?_eq_getElem hj] at hne
  rw [List.getElem?_eq_getElem hi]
  exact compare_lt_iff_lt.2 (hlt.trans_le (not_lt.1 fun hgt => hne (compare_gt_iff_gt.2 hgt)))

theorem search_of_ok (hl : Ascending key l) {i : ℕ} (h : binarySearchByKey key l k = .ok i) :
    ∃ a, l[i]? = some a ∧ key a = k := by
  obtain ⟨hi, heq⟩ := binarySearchBy_of_ok hl.separates h
  rw [List.getElem?_eq_getElem hi] at heq ⊢
  exact ⟨_, rfl, compare_eq_iff_eq.1 heq⟩

theorem search_of_error (hl : Ascending key l) {i : ℕ} (h : binarySearchByKey key l k = .error i) :
    i ≤ l.length ∧ (∀ a ∈ l.take i, key a < k) ∧ ∀ a ∈ l.drop i, k < key a := by
  obtain ⟨hle, hlt, hgt⟩ := binarySearchBy_of_error hl.separates h
  refine ⟨hle, fun a ha => ?_, fun a ha => ?_⟩
  · obtain ⟨j, hj, rfl⟩ := List.mem_take_iff_getElem.1 ha
    have hj' := hlt j (lt_of_lt_of_le hj (min_le_left _ _))
    rw [List.getElem?_eq_getElem (lt_of_lt_of_le hj (min_le_right _ _))] at hj'
    exact compare_lt_iff_lt.1 hj'
  · obtain ⟨j, hj, rfl⟩ := List.mem_drop_iff_getElem.1 ha
    have hj' := hgt (i + j) (Nat.le_add_right _ _) (by omega)
    rw [List.getElem?_eq_getElem (by omega)] at hj'
    exact compare_gt_iff_gt.1 hj'

/-- The elements before and after the place of a key. -/
structure Around (key : ι → K) (k : K) (before after : List ι) : Prop where
  before_lt : ∀ a ∈ before, key a < k
  lt_after : ∀ a ∈ after, k < key a

/-- **An element is changed, or inserted.** -/
theorem upsert_cases (hl : Ascending key l) (k : K) (change : ι → ι) (fresh : ι) :
    ∃ before after, Around key k before after ∧
      ((∃ a, key a = k ∧ l = before ++ a :: after ∧
          upsert key l k change fresh = before ++ change a :: after) ∨
        l = before ++ after ∧ upsert key l k change fresh = before ++ fresh :: after) := by
  rw [upsert]
  rcases h : binarySearchByKey key l k with i | i
  · obtain ⟨hle, hlt, hgt⟩ := search_of_error hl h
    refine ⟨l.take i, l.drop i, ⟨hlt, hgt⟩, .inr ⟨(List.take_append_drop i l).symm, ?_⟩⟩
    exact insertIdx_eq_take_drop hle fresh
  · obtain ⟨a, ha, hkey⟩ := search_of_ok hl h
    obtain ⟨hi, rfl⟩ := List.getElem?_eq_some_iff.1 ha
    have hsplit : l = l.take i ++ l[i] :: l.drop (i + 1) := by
      rw [← List.drop_eq_getElem_cons hi, List.take_append_drop]
    have hpair := hl
    rw [Ascending, hsplit, List.pairwise_append, List.pairwise_cons] at hpair
    refine ⟨l.take i, l.drop (i + 1), ⟨fun b hb => ?_, fun b hb => ?_⟩, .inl ⟨l[i], hkey, hsplit, ?_⟩⟩
    · rw [← hkey]
      exact hpair.2.2 b hb _ List.mem_cons_self
    · rw [← hkey]
      exact hpair.2.1.1 b hb
    · exact List.modify_eq_take_cons_drop hi

section
variable (change : ι → ι) (fresh : ι)

/-- **The keys stay ascending.** -/
theorem Ascending.upsert (hl : Ascending key l) (hchange : ∀ a, key (change a) = key a)
    (hfresh : key fresh = k) : Ascending key (upsert key l k change fresh) := by
  obtain ⟨before, after, haround, ⟨a, ha, rfl, hup⟩ | ⟨rfl, hup⟩⟩ := upsert_cases hl k change fresh
  · rw [hup]
    rw [Ascending, List.pairwise_append, List.pairwise_cons] at hl ⊢
    obtain ⟨hbefore, ⟨-, hafter⟩, -⟩ := hl
    refine ⟨hbefore, ⟨fun b hb => ?_, hafter⟩, fun b hb c hc => ?_⟩
    · rw [hchange, ha]
      exact haround.lt_after b hb
    · rcases List.mem_cons.1 hc with rfl | hc
      · rw [hchange, ha]
        exact haround.before_lt b hb
      · exact (haround.before_lt b hb).trans (haround.lt_after c hc)
  · rw [hup]
    rw [Ascending, List.pairwise_append] at hl
    rw [Ascending, List.pairwise_append, List.pairwise_cons]
    obtain ⟨hbefore, hafter, hcross⟩ := hl
    refine ⟨hbefore, ⟨fun b hb => ?_, hafter⟩, fun b hb c hc => ?_⟩
    · rw [hfresh]
      exact haround.lt_after b hb
    · rcases List.mem_cons.1 hc with rfl | hc
      · rw [hfresh]
        exact haround.before_lt b hb
      · exact hcross b hb c hc

theorem find_append_cons {before after : List ι} {a : ι} (h : ∀ b ∈ before, key b ≠ key a) (k' : K) :
    find key (before ++ a :: after) k' = if k' = key a then some a else find key (before ++ after) k' := by
  rw [find, find, List.find?_append, List.find?_append, List.find?_cons]
  by_cases hk : k' = key a
  · subst hk
    have hnone : before.find? (fun b => key b = key a) = none :=
      List.find?_eq_none.2 fun b hb => by simpa using h b hb
    rw [hnone, if_pos rfl]
    simp
  · rw [if_neg hk]
    simp [Ne.symm hk]

theorem find_append_self {before after : List ι} (h : Around key k before after) :
    find key (before ++ after) k = none := by
  refine List.find?_eq_none.2 fun b hb => ?_
  rcases List.mem_append.1 hb with hb | hb
  · simpa using (h.before_lt b hb).ne
  · simpa using (h.lt_after b hb).ne'

/-- **The vector is a map** from its keys. -/
theorem find_upsert (hl : Ascending key l) (hchange : ∀ a, key (change a) = key a) (hfresh : key fresh = k)
    (k' : K) : find key (SortedVec.upsert key l k change fresh) k' =
      if k' = k then some ((find key l k).elim fresh change) else find key l k' := by
  obtain ⟨before, after, haround, ⟨a, rfl, rfl, hup⟩ | ⟨rfl, hup⟩⟩ := upsert_cases hl k change fresh
  · have hne : ∀ b ∈ before, key b ≠ key a := fun b hb => (haround.before_lt b hb).ne
    rw [hup, find_append_cons (by rwa [hchange]), find_append_cons hne, find_append_cons hne, hchange, if_pos rfl]
    split_ifs <;> rfl
  · subst hfresh
    rw [hup, find_append_cons fun b hb => (haround.before_lt b hb).ne, find_append_self haround]
    rfl

end

/-- What is found has its key, and is in the vector. -/
theorem find_eq_some (hl : Ascending key l) {a : ι} : find key l k = some a ↔ a ∈ l ∧ key a = k := by
  constructor
  · intro h
    exact ⟨List.mem_of_find?_eq_some h, by simpa using List.find?_some h⟩
  · rintro ⟨hmem, rfl⟩
    obtain ⟨before, after, rfl⟩ := List.append_of_mem hmem
    rw [Ascending, List.pairwise_append] at hl
    rw [find_append_cons fun b hb => (hl.2.2 b hb a List.mem_cons_self).ne, if_pos rfl]

end

end Fsvfs.Lib.SortedVec
