/-
  Maps with `SrcId` keys (`src/dvdbnd/filesystem.rs`).

  A map collected from pairs has each key once, with the value of its last pair
  (`collect_concat`, `nodup_collect`).  If every key has one value, it holds
  what the list holds, in some order (`get_collect_iff`, `collect_perm`).
-/
import Fsvfs.Dvdbnd.Filesystem

namespace Fsvfs.Dvdbnd.SrcIdMap

variable {V : Type} {l l' : List (SrcId × V)} {id : SrcId} {v : V}

/-! ## Inserting -/

theorem get_insert (m : SrcIdMap V) (id id' : SrcId) (v : V) :
    (insert m id v).get id' = if id' = id then some v else m.get id' := by
  induction m with
  | nil =>
    rw [insert, get, List.lookup_cons, get, List.lookup_nil]
    by_cases h : id' = id
    · simp [h]
    · simp [h, beq_false_of_ne h]
  | cons e m ih =>
    obtain ⟨id₀, v₀⟩ := e
    simp only [get, List.lookup_cons] at ih ⊢
    rw [insert]
    by_cases h₀ : id₀ = id
    · subst h₀
      rw [if_pos rfl, List.lookup_cons]
      by_cases h : id' = id₀
      · simp [h]
      · simp [h, beq_false_of_ne h]
    · rw [if_neg h₀, List.lookup_cons]
      by_cases h : id' = id₀
      · subst h
        simp [h₀]
      · simpa [beq_false_of_ne h] using ih

theorem map_fst_insert (m : SrcIdMap V) (id : SrcId) (v : V) :
    (insert m id v).map Prod.fst =
      if id ∈ m.map Prod.fst then m.map Prod.fst else m.map Prod.fst ++ [id] := by
  induction m with
  | nil => rfl
  | cons e m ih =>
    obtain ⟨id₀, v₀⟩ := e
    rw [insert]
    by_cases h₀ : id₀ = id
    · subst h₀
      simp
    · rw [if_neg h₀, List.map_cons, ih, List.map_cons]
      by_cases h : id ∈ m.map Prod.fst
      · rw [if_pos h, if_pos (List.mem_cons_of_mem _ h)]
      · rw [if_neg h, if_neg (by simpa [Ne.symm h₀] using h)]
        rfl

/-- A new key is put at the end. -/
theorem insert_of_notMem {m : SrcIdMap V} (h : id ∉ m.map Prod.fst) : insert m id v = m ++ [(id, v)] := by
  induction m with
  | nil => rfl
  | cons e m ih =>
    obtain ⟨id₀, v₀⟩ := e
    rw [List.map_cons, List.mem_cons, not_or] at h
    rw [insert, if_neg (Ne.symm h.1), ih h.2]
    rfl

/-! ## Collecting -/

theorem collect_concat (l : List (SrcId × V)) (e : SrcId × V) :
    collect (l ++ [e]) = insert (collect l) e.1 e.2 := by
  rw [collect, List.foldl_append]
  rfl

/-- **A map with distinct keys holds all its pairs.** -/
theorem collect_of_nodup (h : (l.map Prod.fst).Nodup) : collect l = l := by
  induction l using List.reverseRecOn with
  | nil => rfl
  | append_singleton l e ih =>
    rw [List.map_append, List.map_singleton, List.nodup_append] at h
    obtain ⟨hl, -, hdisjoint⟩ := h
    have hmem : e.1 ∉ l.map Prod.fst := fun he => hdisjoint _ he _ (List.mem_singleton_self _) rfl
    rw [collect_concat, ih hl, insert_of_notMem hmem]

theorem nodup_collect (l : List (SrcId × V)) : ((collect l).map Prod.fst).Nodup := by
  induction l using List.reverseRecOn with
  | nil => exact List.nodup_nil
  | append_singleton l e ih =>
    rw [collect_concat, map_fst_insert]
    split_ifs with h
    · exact ih
    · rw [← List.concat_eq_append]
      exact ih.concat h

/-- A key is found with one of its values. -/
theorem mem_of_get (h : (collect l).get id = some v) : (id, v) ∈ l := by
  induction l using List.reverseRecOn with
  | nil => cases h
  | append_singleton l e ih =>
    rw [collect_concat, get_insert] at h
    split_ifs at h with hid
    · cases h
      subst hid
      simp
    · exact List.mem_append_left _ (ih h)

theorem get_isSome (h : (id, v) ∈ l) : ∃ w, (collect l).get id = some w := by
  induction l using List.reverseRecOn with
  | nil => cases h
  | append_singleton l e ih =>
    rw [collect_concat, get_insert]
    split_ifs with hid
    · exact ⟨_, rfl⟩
    · refine ih ((List.mem_append.1 h).resolve_right fun he => hid ?_)
      rw [← List.mem_singleton.1 he]

/-- A pair of a map is found. -/
theorem get_of_mem {m : SrcIdMap V} (hm : (m.map Prod.fst).Nodup) (h : (id, v) ∈ m) :
    m.get id = some v := by
  induction m with
  | nil => cases h
  | cons e m ih =>
    rw [List.map_cons, List.nodup_cons] at hm
    rcases List.mem_cons.1 h with rfl | hmem
    · exact List.lookup_cons_self
    · have hne : id ≠ e.1 := fun he => hm.1 (he ▸ List.mem_map_of_mem (f := Prod.fst) hmem)
      rw [get, List.lookup_cons, beq_false_of_ne hne]
      exact ih hm.2 hmem

theorem mem_of_get' {m : SrcIdMap V} (h : m.get id = some v) : (id, v) ∈ m := by
  induction m with
  | nil => cases h
  | cons e m ih =>
    rw [get, List.lookup_cons] at h
    by_cases hid : id = e.1
    · subst hid
      rw [beq_self_eq_true] at h
      cases h
      exact List.mem_cons_self
    · rw [beq_false_of_ne hid] at h
      exact List.mem_cons_of_mem e (ih h)

/-- Every key has one value. -/
def Functional (l : List (SrcId × V)) : Prop := ∀ id v w, (id, v) ∈ l → (id, w) ∈ l → v = w

theorem get_collect_iff (hl : Functional l) : (collect l).get id = some v ↔ (id, v) ∈ l := by
  refine ⟨mem_of_get, fun h => ?_⟩
  obtain ⟨w, hw⟩ := get_isSome h
  rw [hw, hl id w v (mem_of_get hw) h]

/-- The order of the pairs does not matter. -/
theorem get_collect_congr (hl : Functional l) (h : ∀ e, e ∈ l ↔ e ∈ l') (id : SrcId) :
    (collect l).get id = (collect l').get id := by
  have hl' : Functional l' := fun id v w hv hw => hl id v w ((h _).2 hv) ((h _).2 hw)
  ext v
  rw [get_collect_iff hl, get_collect_iff hl', h]

theorem collect_perm (hl : Functional l) (h : ∀ e, e ∈ l ↔ e ∈ l') :
    (collect l).Perm (collect l') := by
  refine (List.perm_ext_iff_of_nodup (nodup_collect l).of_map (nodup_collect l').of_map).2 ?_
  rintro ⟨id, v⟩
  have hget := get_collect_congr hl h id
  constructor
  · intro hmem
    refine mem_of_get' ?_
    rw [← hget]
    exact get_of_mem (nodup_collect l) hmem
  · intro hmem
    refine mem_of_get' ?_
    rw [hget]
    exact get_of_mem (nodup_collect l') hmem

end Fsvfs.Dvdbnd.SrcIdMap
