/-
  Walking a finite tree with a queue.

  The first node of the queue gives its items, and the nodes below it are put at
  the end (`Walks`).  A tree is finite if it has a height (`Height`).

  * `walks_levels`: the items come level by level;
  * `levels_perm`: they are those of the walk that goes down first;
  * `mem_levels`: they are the items of the nodes that can be reached;
  * `pairwise_levels`, `nodup_levels`: they are sorted by their depth, and differ if
    those of one level do.
-/
import Mathlib.Data.List.Nodup
import Mathlib.Data.List.Perm.Basic
import Mathlib.Logic.Relation
import Mathlib.Tactic.Common

namespace Fsvfs.Lib.Breadth

variable {ν α : Type} (items : ν → List α) (below : ν → List ν)

/-- The items that a queue gives. -/
inductive Walks : List ν → List α → Prop where
  | nil : Walks [] []
  | cons {v : ν} {queue : List ν} {l : List α} (h : Walks (queue ++ below v) l) :
    Walks (v :: queue) (items v ++ l)

/-- The items of some nodes, then of those below them, and so on. -/
def levels : ℕ → List ν → List α
  | 0, _ => []
  | h + 1, vs => vs.flatMap items ++ levels h (vs.flatMap below)

/-- The items of a node, then of what is below the first node below it, and so
    on. -/
def downward : ℕ → ν → List α
  | 0, _ => []
  | h + 1, v => items v ++ (below v).flatMap (downward h)

/-- A node has nothing below it after some steps. -/
def Height : ℕ → ν → Prop
  | 0, _ => False
  | h + 1, v => ∀ w ∈ below v, Height h w

/-- A node is below another, or the same. -/
abbrev Reaches : ν → ν → Prop := Relation.ReflTransGen fun v w => w ∈ below v

variable {items below} {h : ℕ} {vs ws : List ν} {l : List α}

/-- The nodes of a level come one after the other. -/
theorem Walks.append (hwalks : Walks items below (ws ++ vs.flatMap below) l) :
    Walks items below (vs ++ ws) (vs.flatMap items ++ l) := by
  induction vs generalizing ws with
  | nil => simpa using hwalks
  | cons v vs ih =>
    rw [List.flatMap_cons, ← List.append_assoc] at hwalks
    have hrest := ih hwalks
    rw [← List.append_assoc] at hrest
    rw [List.flatMap_cons, List.append_assoc, List.cons_append]
    exact .cons hrest

/-- **The items come level by level.** -/
theorem walks_levels (hvs : ∀ v ∈ vs, Height below h v) : Walks items below vs (levels items below h vs) := by
  induction h generalizing vs with
  | zero =>
    rcases vs with _ | ⟨v, vs⟩
    · exact .nil
    · exact (hvs v List.mem_cons_self).elim
  | succ h ih =>
    have hbelow : ∀ w ∈ vs.flatMap below, Height below h w := by
      intro w hw
      obtain ⟨v, hv, hvw⟩ := List.mem_flatMap.1 hw
      exact hvs v hv w hvw
    have hnext := @Walks.append _ _ items below vs [] _ (by rw [List.nil_append]; exact ih hbelow)
    rwa [List.append_nil] at hnext

/-- **They are those of the walk that goes down first.** -/
theorem levels_perm (h : ℕ) (vs : List ν) :
    (levels items below h vs).Perm (vs.flatMap (downward items below h)) := by
  induction h generalizing vs with
  | zero =>
    have hnil : vs.flatMap (downward items below 0) = [] := List.flatMap_eq_nil_iff.2 fun _ _ => rfl
    rw [hnil]
    rfl
  | succ h ih =>
    have hnext := ih (vs.flatMap below)
    rw [List.flatMap_assoc] at hnext
    exact (hnext.append_left (vs.flatMap items)).trans (List.flatMap_append_perm vs _ _)

theorem mem_downward_of_reaches {v w : ν} {a : α} (hheight : Height below h v)
    (hreaches : Reaches below v w) (ha : a ∈ items w) : a ∈ downward items below h v := by
  induction hreaches using Relation.ReflTransGen.head_induction_on generalizing h with
  | refl =>
    cases h with
    | zero => exact hheight.elim
    | succ h => exact List.mem_append_left _ ha
  | head hstep _ ih =>
    cases h with
    | zero => exact hheight.elim
    | succ h => exact List.mem_append_right _ (List.mem_flatMap.2 ⟨_, hstep, ih (hheight _ hstep)⟩)

theorem reaches_of_mem_downward {v : ν} {a : α} (ha : a ∈ downward items below h v) :
    ∃ w, Reaches below v w ∧ a ∈ items w := by
  induction h generalizing v with
  | zero => cases ha
  | succ h ih =>
    rcases List.mem_append.1 ha with ha | ha
    · exact ⟨v, .refl, ha⟩
    · obtain ⟨u, hu, ha⟩ := List.mem_flatMap.1 ha
      obtain ⟨w, hw, ha⟩ := ih ha
      exact ⟨w, .head hu hw, ha⟩

/-- **They are the items of the nodes that can be reached.** -/
theorem mem_levels {v : ν} {a : α} (hheight : Height below h v) :
    a ∈ levels items below h [v] ↔ ∃ w, Reaches below v w ∧ a ∈ items w := by
  rw [(levels_perm h [v]).mem_iff, List.flatMap_singleton]
  refine ⟨reaches_of_mem_downward, ?_⟩
  rintro ⟨w, hw, ha⟩
  exact mem_downward_of_reaches hheight hw ha

theorem filterMap_levels {β : Type} (f : α → Option β) (h : ℕ) (vs : List ν) :
    (levels items below h vs).filterMap f = levels (fun v => (items v).filterMap f) below h vs := by
  induction h generalizing vs with
  | zero => rfl
  | succ h ih => rw [levels, levels, List.filterMap_append, List.filterMap_flatMap, ih]

/-! ## Depth -/

/-- The items of a node have its depth, and the nodes below it have the next. -/
structure Graded (items : ν → List α) (below : ν → List ν) (rank : α → ℕ) (depth : ν → ℕ) : Prop where
  items : ∀ v, ∀ a ∈ items v, rank a = depth v
  below : ∀ v, ∀ w ∈ below v, depth w = depth v + 1

section
variable {rank : α → ℕ} {depth : ν → ℕ} {n : ℕ}

theorem Graded.below_level (hg : Graded items below rank depth) (hvs : ∀ v ∈ vs, depth v = n) :
    ∀ w ∈ vs.flatMap below, depth w = n + 1 := by
  intro w hw
  obtain ⟨v, hv, hvw⟩ := List.mem_flatMap.1 hw
  rw [hg.below v w hvw, hvs v hv]

theorem Graded.items_level (hg : Graded items below rank depth) (hvs : ∀ v ∈ vs, depth v = n) :
    ∀ a ∈ vs.flatMap items, rank a = n := by
  intro a ha
  obtain ⟨v, hv, hva⟩ := List.mem_flatMap.1 ha
  rw [hg.items v a hva, hvs v hv]

theorem Graded.le_rank (hg : Graded items below rank depth) (hvs : ∀ v ∈ vs, depth v = n) :
    ∀ a ∈ levels items below h vs, n ≤ rank a := by
  induction h generalizing vs n with
  | zero => exact fun a ha => by cases ha
  | succ h ih =>
    intro a ha
    rcases List.mem_append.1 ha with ha | ha
    · exact Nat.le_of_eq (hg.items_level hvs a ha).symm
    · exact Nat.le_of_succ_le (ih (hg.below_level hvs) a ha)

/-- **The items are sorted by their depth.** -/
theorem Graded.pairwise_levels (hg : Graded items below rank depth) (hvs : ∀ v ∈ vs, depth v = n) :
    (levels items below h vs).Pairwise fun a b => rank a ≤ rank b := by
  induction h generalizing vs n with
  | zero => exact .nil
  | succ h ih =>
    rw [levels, List.pairwise_append]
    refine ⟨List.pairwise_of_forall_mem_list fun a ha b hb => ?_, ih (hg.below_level hvs), fun a ha b hb => ?_⟩
    · exact Nat.le_of_eq ((hg.items_level hvs a ha).trans (hg.items_level hvs b hb).symm)
    · rw [hg.items_level hvs a ha]
      exact Nat.le_of_succ_le (hg.le_rank (hg.below_level hvs) b hb)

/-- Different nodes give different things. -/
def Separate {β : Type} (f : ν → List β) : Prop :=
  (∀ v, (f v).Nodup) ∧ ∀ v w b, b ∈ f v → b ∈ f w → v = w

theorem Separate.nodup {β : Type} {f : ν → List β} (hf : Separate f) (hvs : vs.Nodup) : (vs.flatMap f).Nodup := by
  refine List.nodup_flatMap.2 ⟨fun v _ => hf.1 v, List.Pairwise.imp (fun {v w} hne b hv hw => ?_) hvs⟩
  exact hne (hf.2 v w b hv hw)

/-- **The items differ**, if those of one level do. -/
theorem Graded.nodup_levels (hg : Graded items below rank depth) (hitems : Separate items)
    (hbelow : Separate below) (hvs : ∀ v ∈ vs, depth v = n) (hnodup : vs.Nodup) :
    (levels items below h vs).Nodup := by
  induction h generalizing vs n with
  | zero => exact .nil
  | succ h ih =>
    refine List.nodup_append'.2 ⟨hitems.nodup hnodup, ih (hg.below_level hvs) (hbelow.nodup hnodup), ?_⟩
    intro a ha ha'
    have hlevel := hg.items_level hvs a ha
    have hnext := hg.le_rank (hg.below_level hvs) a ha'
    omega

end

end Fsvfs.Lib.Breadth
