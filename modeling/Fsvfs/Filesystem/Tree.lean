/-
  What a filesystem object means: the path tree of its branches, and the path
  tree of its files.

  * `tree_insertPath`, `tree_merge`: inserting a path and merging branches are
    the `insert` and `merge` of path trees;
  * `Reorder.tree`: the meaning does not depend on the order in which the hash
    maps are iterated;
  * `RofsObject.holds_new`, `RofsObject.view_merge`: the same for objects,
    where a leaf stands for the file it is the index of.
-/
import Fsvfs.Lib.PathTree
import Fsvfs.Filesystem.Object

namespace Fsvfs

open Lib

namespace Branch

/-- What a path leads to below a branch. -/
def kindAt : Branch → List Str → Option (Kind ℕ)
  | _, [] => some .dir
  | b, c :: cs => match b.get c with
    | none => none
    | some (.leaf i) => if cs = [] then some (.file i) else none
    | some (.branch s) => s.kindAt cs

theorem kindAt_nil {b : Branch} : b.kindAt [] = some .dir := by
  cases b <;> rfl

theorem kindAt_cons {b : Branch} {c : Str} {cs : List Str} :
    b.kindAt (c :: cs) = match b.get c with
      | none => none
      | some (.leaf i) => if cs = [] then some (.file i) else none
      | some (.branch s) => s.kindAt cs := by
  cases b <;> rfl

theorem kindAt_closed : ∀ (b : Branch) (p : List Str) (c : Str), b.kindAt (p ++ [c]) ≠ none →
    b.kindAt p = some .dir
  | b, [], _, _ => kindAt_nil
  | b, d :: p, c, h => by
    rw [List.cons_append, kindAt_cons] at h
    rw [kindAt_cons]
    rcases hg : b.get d with _ | s | i
    · simp [hg] at h
    · simp only [hg] at h ⊢
      exact kindAt_closed s p c h
    · simp [hg] at h

/-- The path tree of a branch. -/
def tree (b : Branch) : PathTree Str ℕ := ⟨b.kindAt, b.kindAt_closed⟩

@[simp] theorem kind_tree {b : Branch} {p : List Str} : b.tree.kind p = b.kindAt p := rfl

theorem tree_nil : nil.tree = PathTree.root := by
  ext1; funext p
  cases p with
  | nil => rfl
  | cons c cs => simp [kindAt_cons, get, PathTree.root]

/-! ## Below one component -/

theorem blocked_cons {b : Branch} {c : Str} {cs : List Str} : b.tree.Blocked (c :: cs) ↔
    match b.get c with
      | none => False
      | some (.leaf _) => True
      | some (.branch s) => s.tree.Blocked cs := by
  constructor
  · rintro ⟨q, a, hq, ha⟩
    cases q with
    | nil => rw [kind_tree, kindAt_nil] at ha; cases ha
    | cons d q =>
      obtain ⟨rfl, -⟩ := List.cons_prefix_cons.1 hq
      rw [kind_tree, kindAt_cons] at ha
      rcases hg : b.get d with _ | s | i
      · simp [hg] at ha
      · simp only [hg] at ha ⊢
        exact ⟨q, a, (List.cons_prefix_cons.1 hq).2, ha⟩
      · trivial
  · intro h
    rcases hg : b.get c with _ | s | i
    · simp [hg] at h
    · simp only [hg] at h
      obtain ⟨q, a, hq, ha⟩ := h
      exact ⟨c :: q, a, List.cons_prefix_cons.2 ⟨rfl, hq⟩, by simpa [kindAt_cons, hg] using ha⟩
    · exact ⟨[c], i, by simp, by simp [kindAt_cons, hg]⟩

theorem free_cons {b : Branch} {c : Str} {cs : List Str} : b.tree.Free (c :: cs) ↔
    match b.get c with
      | none => True
      | some (.leaf _) => False
      | some (.branch s) => s.tree.Free cs := by
  rw [PathTree.Free, blocked_cons, kind_tree, kindAt_cons]
  rcases b.get c with _ | s | i <;> simp [PathTree.Free]

theorem not_free_nil {b : Branch} : ¬ b.tree.Free [] := fun h => by
  have := h.1
  rw [kind_tree, kindAt_nil] at this; cases this

/-- A tree that gets one new entry. -/
theorem kindAt_push {b : Branch} {c d : Str} {t : TreeNode} {cs : List Str} (h : b.get c = none) :
    (b.push c t).kindAt (d :: cs) = if c = d then (match t with
      | .leaf i => if cs = [] then some (.file i) else none
      | .branch s => s.kindAt cs) else b.kindAt (d :: cs) := by
  rw [kindAt_cons, get_push h, kindAt_cons]
  by_cases hcd : c = d
  · simp only [hcd, if_true]; cases t <;> rfl
  · simp [hcd]

/-- A tree that gets a new subdirectory in the place of an entry. -/
theorem kindAt_set {b : Branch} {c d : Str} {s : Branch} {cs : List Str} (h : b.get c ≠ none) :
    (b.set c (.branch s)).kindAt (d :: cs) =
      if c = d then s.kindAt cs else b.kindAt (d :: cs) := by
  rw [kindAt_cons, get_set h, kindAt_cons]
  by_cases hcd : c = d <;> simp [hcd]

/-! ## Inserting a path -/

/-- Inserting into the path tree, below the first component. -/
theorem kind_insert_cons {b : Branch} {c d : Str} {rest q : List Str} {i : ℕ} :
    (b.tree.insert (c :: rest) i).kind (d :: q) = if c = d then (match b.get c with
      | none => if q <+: rest then (if q = rest then some (.file i) else some .dir) else none
      | some (.leaf j) => if q = [] then some (.file j) else none
      | some (.branch s) => (s.tree.insert rest i).kind q) else b.kindAt (d :: q) := by
  by_cases hcd : c = d
  · subst hcd
    rw [if_pos rfl]
    rcases hg : b.get c with _ | s | j
    · rw [PathTree.kind_insert (by simp [free_cons, hg])]
      simp [kindAt_cons, hg]
    · by_cases hf : s.tree.Free rest
      · rw [PathTree.kind_insert (by simpa [free_cons, hg] using hf)]
        simp [PathTree.kind_insert hf, kindAt_cons, hg]
      · rw [PathTree.insert_of_not_free (by simpa [free_cons, hg] using hf)]
        simp [PathTree.insert_of_not_free hf, kindAt_cons, hg]
    · rw [PathTree.insert_of_not_free (by simp [free_cons, hg])]
      simp [kindAt_cons, hg]
  · rw [if_neg hcd]
    by_cases hf : b.tree.Free (c :: rest)
    · simp [PathTree.kind_insert hf, Ne.symm hcd]
    · rw [PathTree.insert_of_not_free hf, kind_tree]

theorem kind_insert_nil {b : Branch} {components : List Str} {i : ℕ} :
    (b.tree.insert components i).kind [] = some .dir := by
  by_cases hf : b.tree.Free components
  · cases components with
    | nil => exact absurd hf not_free_nil
    | cons c rest => simp [PathTree.kind_insert hf]
  · rw [PathTree.insert_of_not_free hf, kind_tree, kindAt_nil]

theorem kind_insert_root {rest q : List Str} {i : ℕ} (h : rest ≠ []) :
    (nil.tree.insert rest i).kind q =
      if q <+: rest then (if q = rest then some (.file i) else some .dir) else none := by
  obtain ⟨c, rest, rfl⟩ := List.exists_cons_of_ne_nil h
  cases q with
  | nil => rw [kind_insert_nil]; simp
  | cons d q =>
    rw [kind_insert_cons]
    by_cases hcd : c = d
    · simp [hcd, get]
    · simp [kindAt_cons, get, hcd, Ne.symm hcd]

/-- Inserting a path inserts it into the path tree. -/
theorem tree_insertPath : ∀ {components : List Str} {i : ℕ} {b b' : Branch},
    b.insertPath components i = some b' → b'.tree = b.tree.insert components i
  | [], i, b, b', h => by
    cases h
    rw [PathTree.insert_of_not_free not_free_nil]
  | c :: rest, i, b, b', h => by
    by_cases hlen : 255 < c.bytes.length
    · simp [insertPath, hlen] at h
    rw [insertPath, if_neg hlen] at h
    ext1; funext q
    rcases q with _ | ⟨d, q⟩
    · rw [kind_insert_nil, kind_tree, kindAt_nil]
    rw [kind_insert_cons, kind_tree]
    rcases hg : b.get c with _ | next | j
    · simp only [hg] at h
      split_ifs at h with hr
      · cases h
        rw [kindAt_push hg]
        subst hr
        by_cases hq : q = [] <;> simp [hq]
      · obtain ⟨sub, hsub, rfl⟩ := Option.map_eq_some_iff.1 h
        have ih : sub.kindAt q = _ := congrArg (fun t => t.kind q) (tree_insertPath hsub)
        simp only [kind_insert_root hr] at ih
        rw [kindAt_push hg]
        simp only [ih]
    · simp only [hg] at h
      obtain ⟨sub, hsub, rfl⟩ := Option.map_eq_some_iff.1 h
      have ih : sub.kindAt q = _ := congrArg (fun t => t.kind q) (tree_insertPath hsub)
      rw [kindAt_set (by simp [hg]), ih]
    · simp only [hg] at h
      cases h
      by_cases hcd : c = d
      · subst hcd; rw [kindAt_cons, hg]; simp
      · simp [hcd]

theorem tree_insertPaths : ∀ {l : List (List Str × ℕ)} {b b' : Branch},
    b.insertPaths l = some b' → b'.tree = b.tree.insertAll l
  | [], b, b', h => by cases h; rfl
  | (components, i) :: l, b, b', h => by
    obtain ⟨b₁, h1, h2⟩ := Option.bind_eq_some_iff.1 h
    rw [tree_insertPaths h2, tree_insertPath h1]; rfl

/-! ## Merging branches -/

/-- What merging makes of the nodes of one name. -/
def mergeNode : Option TreeNode → Option TreeNode → Option TreeNode
  | none, t => t
  | some (.branch b), some (.branch o) => some (.branch (b.merge o))
  | some t, _ => some t

@[simp] theorem mergeNode_none {t : Option TreeNode} : mergeNode t none = t := by
  rcases t with _ | _ | _ <;> rfl

section
variable {C : Config} {n : ℕ}

theorem get_merge {o : Branch} (ho : o.Wf C n) {b : Branch} {d : Str} :
    (b.merge o).get d = mergeNode (b.get d) (o.get d) := by
  induction o generalizing b with
  | nil => simp [merge, get]
  | leaf name i rest ih =>
    have hrest : rest.get name = none := get_eq_none_iff.2 ho.2.1
    rw [merge, ih ho.2.2.2, get]
    by_cases hd : name = d
    · subst hd
      rcases hg : b.get name with _ | s | j
      · simp [hrest, get_push hg, mergeNode]
      · simp [hrest, hg, mergeNode]
      · simp [hrest, hg, mergeNode]
    · rcases hg : b.get name with _ | s | j
      · simp [hd, get_push hg]
      · simp [hd]
      · simp [hd]
  | branch name o' rest _ ih =>
    have hrest : rest.get name = none := get_eq_none_iff.2 ho.2.1
    rw [merge, ih ho.2.2.2, get]
    by_cases hd : name = d
    · subst hd
      rcases hg : b.get name with _ | s | j
      · simp [hrest, get_push hg, mergeNode]
      · simp [hrest, get_set (show b.get name ≠ none by simp [hg]), mergeNode]
      · simp [hrest, hg, mergeNode]
    · rcases hg : b.get name with _ | s | j
      · simp [hd, get_push hg]
      · simp [hd, get_set (show b.get name ≠ none by simp [hg])]
      · simp [hd]

/-- Merging branches merges their path trees. -/
theorem kindAt_merge : ∀ {p : List Str} {b o : Branch}, o.Wf C n →
    (b.merge o).kindAt p = (b.tree.merge o.tree).kind p
  | [], b, o, _ => by
    rw [kindAt_nil, PathTree.merge_of_some (k := .dir) (by rw [kind_tree, kindAt_nil])]
  | c :: p, b, o, ho => by
    rw [kindAt_cons, get_merge ho]
    rcases hg : b.get c with _ | s | i
    · rw [PathTree.merge_of_free (by simp [free_cons, hg]), kind_tree, kindAt_cons]
      rfl
    · rcases ho' : o.get c with _ | o' | j
      · rcases s.tree.cases_kind p with ⟨k, hk⟩ | ⟨hn, hb⟩ | hf
        · rw [PathTree.merge_of_some (k := k) (by simpa [kindAt_cons, hg] using hk)]
          simpa using hk
        · rw [PathTree.merge_of_blocked (by simpa [kindAt_cons, hg] using hn)
            (by simpa [blocked_cons, hg] using hb)]
          simpa using hn
        · rw [PathTree.merge_of_free (by simpa [free_cons, hg] using hf)]
          simpa [kindAt_cons, ho'] using hf.1
      · have ih := kindAt_merge (p := p) (b := s) (wf_branch.1 (ho.get ho').2).2
        simp only [mergeNode, ih]
        rcases s.tree.cases_kind p with ⟨k, hk⟩ | ⟨hn, hb⟩ | hf
        · rw [PathTree.merge_of_some hk, PathTree.merge_of_some (k := k)]
          simpa [kindAt_cons, hg] using hk
        · rw [PathTree.merge_of_blocked hn hb, PathTree.merge_of_blocked]
          · simpa [kindAt_cons, hg] using hn
          · simpa [blocked_cons, hg] using hb
        · rw [PathTree.merge_of_free hf, PathTree.merge_of_free]
          · simp [kindAt_cons, ho']
          · simpa [free_cons, hg] using hf
      · rcases s.tree.cases_kind p with ⟨k, hk⟩ | ⟨hn, hb⟩ | hf
        · rw [PathTree.merge_of_some (k := k) (by simpa [kindAt_cons, hg] using hk)]
          simpa [mergeNode] using hk
        · rw [PathTree.merge_of_blocked (by simpa [kindAt_cons, hg] using hn)
            (by simpa [blocked_cons, hg] using hb)]
          simpa [mergeNode] using hn
        · rw [PathTree.merge_of_free (by simpa [free_cons, hg] using hf)]
          have hp : p ≠ [] := by rintro rfl; exact not_free_nil hf
          simpa [mergeNode, kindAt_cons, ho', hp] using hf.1
    · have hb : b.tree.Blocked (c :: p) := by simp [blocked_cons, hg]
      have hm : mergeNode (some (.leaf i)) (o.get c) = some (.leaf i) := by
        rcases o.get c with _ | _ | _ <;> rfl
      rw [hm]
      by_cases hp : p = []
      · rw [PathTree.merge_of_some (k := .file i)] <;> simp [kindAt_cons, hg, hp]
      · rw [PathTree.merge_of_blocked _ hb] <;> simp [kindAt_cons, hg, hp]

theorem tree_merge {b o : Branch} (ho : o.Wf C n) : (b.merge o).tree = b.tree.merge o.tree := by
  ext1; funext p
  exact kindAt_merge ho

end

/-! ## Shifting indices -/

/-- A node with its indices shifted. -/
def adjustNode (offset : ℕ) : TreeNode → TreeNode
  | .leaf i => .leaf (i + offset)
  | .branch b => .branch (b.adjustFiles offset)

theorem get_adjustFiles {offset : ℕ} {b : Branch} {c : Str} :
    (b.adjustFiles offset).get c = (b.get c).map (adjustNode offset) := by
  induction b with
  | nil => rfl
  | leaf name i rest ih => by_cases h : name = c <;> simp [adjustFiles, get, h, ih, adjustNode]
  | branch name s rest _ ih => by_cases h : name = c <;> simp [adjustFiles, get, h, ih, adjustNode]

theorem kindAt_adjustFiles {offset : ℕ} : ∀ {p : List Str} {b : Branch},
    (b.adjustFiles offset).kindAt p = (b.kindAt p).map (Kind.map (· + offset))
  | [], b => by simp [kindAt_nil, Kind.map]
  | c :: p, b => by
    rw [kindAt_cons, kindAt_cons, get_adjustFiles]
    rcases b.get c with _ | s | i
    · rfl
    · exact kindAt_adjustFiles
    · by_cases hp : p = [] <;> simp [adjustNode, hp, Kind.map]

theorem tree_adjustFiles {offset : ℕ} {b : Branch} :
    (b.adjustFiles offset).tree = b.tree.map (· + offset) := by
  ext1; funext p
  exact kindAt_adjustFiles

/-! ## Iteration orders -/

theorem kindAt_entry {name c : Str} {node : TreeNode} {rest : Branch} {p : List Str} :
    (cons name node rest).kindAt (c :: p) = if name = c then (match node with
      | .leaf i => if p = [] then some (.file i) else none
      | .branch s => s.kindAt p) else rest.kindAt (c :: p) := by
  rw [kindAt_cons, kindAt_cons, get]
  by_cases h : name = c
  · simp only [h, if_true]; cases node <;> rfl
  · simp [h]

/-- What a reordering keeps: the length, the names, well-formedness and what
    every path leads to. -/
structure Same (C : Config) (n : ℕ) (b b' : Branch) : Prop where
  wf : b'.Wf C n
  length : b'.length = b.length
  keys : ∀ c, c ∈ b'.keys ↔ c ∈ b.keys
  kindAt : ∀ p, b'.kindAt p = b.kindAt p

theorem Same.ne_nil {C : Config} {n : ℕ} {b b' : Branch} (h : Same C n b b') (hb : b ≠ nil) :
    b' ≠ nil := fun h' => hb (length_eq_zero.1 (by rw [← h.length, h']; rfl))

/-- **The meaning of a tree does not depend on the iteration order.** -/
theorem Reorder.same {C : Config} {n : ℕ} {b b' : Branch} (h : Reorder b b') (hb : b.Wf C n) :
    Same C n b b' := by
  induction h with
  | nil => exact ⟨hb, rfl, fun _ => Iff.rfl, fun _ => rfl⟩
  | @leaf name i b b' _ ih =>
    have hs := ih hb.2.2.2
    refine ⟨⟨hb.1, by rw [hs.keys]; exact hb.2.1, hb.2.2.1, hs.wf⟩, by simp [Branch.length, hs.length],
      fun c => by simp [Branch.keys, hs.keys], fun p => ?_⟩
    cases p with
    | nil => rw [kindAt_nil, kindAt_nil]
    | cons c p => rw [kindAt_entry, kindAt_entry, hs.kindAt]
  | @branch name s s' b b' _ _ ih₁ ih₂ =>
    have hs := ih₁ hb.2.2.1.2
    have hr := ih₂ hb.2.2.2
    refine ⟨⟨hb.1, by rw [hr.keys]; exact hb.2.1, ⟨hs.ne_nil hb.2.2.1.1, hs.wf⟩, hr.wf⟩,
      by simp [Branch.length, hr.length], fun c => by simp [Branch.keys, hr.keys], fun p => ?_⟩
    cases p with
    | nil => rw [kindAt_nil, kindAt_nil]
    | cons c p => simp only [kindAt_entry, hr.kindAt, hs.kindAt]
  | @swap name t name' t' b =>
    obtain ⟨h1, h2, h3, h1', h2', h3', h4⟩ := hb
    simp only [Branch.keys, List.mem_cons, not_or] at h2
    refine ⟨⟨h1', by simp [Branch.keys, h2', Ne.symm h2.1], h3', h1, h2.2, h3, h4⟩, rfl,
      fun c => by simp [Branch.keys, or_left_comm], fun p => ?_⟩
    cases p with
    | nil => rw [kindAt_nil, kindAt_nil]
    | cons c p =>
      simp only [kindAt_entry]
      by_cases hc : name = c
      · subst hc; simp [Ne.symm h2.1]
      · simp [hc]
  | trans _ _ ih₁ ih₂ =>
    have h₁ := ih₁ hb
    have h₂ := ih₂ h₁.wf
    exact ⟨h₂.wf, h₂.length.trans h₁.length, fun c => (h₂.keys c).trans (h₁.keys c),
      fun p => (h₂.kindAt p).trans (h₁.kindAt p)⟩

theorem Reorder.refl (b : Branch) : Reorder b b := by
  induction b with
  | nil => exact .nil
  | leaf name i rest ih => exact .leaf ih
  | branch name s rest ih₁ ih₂ => exact .branch ih₁ ih₂

/-- A reordered root is again the only entry. -/
theorem Reorder.root {r r' : Branch} (h : Reorder r r') : ∀ {name b},
    r = cons name (.branch b) .nil → ∃ b', r' = cons name (.branch b') .nil ∧ Reorder b b' := by
  induction h with
  | nil => intro _ _ h; cases h
  | leaf => intro _ _ h; cases h
  | @branch _ s s' b b' hs hr _ _ =>
    intro name b₀ h
    cases h
    have : b' = .nil := by
      have := (hr.same (C := {}) (n := 0) trivial).length
      exact length_eq_zero.1 this
    exact ⟨s', by rw [this], hs⟩
  | swap => intro _ _ h; cases h
  | trans _ _ ih₁ ih₂ =>
    intro name b₀ h
    obtain ⟨b₁, h₁, hr₁⟩ := ih₁ h
    obtain ⟨b₂, h₂, hr₂⟩ := ih₂ h₁
    exact ⟨b₂, h₂, hr₁.trans hr₂⟩

theorem Reorder.nil_left {r : Branch} (h : Reorder .nil r) : r = .nil := by
  have := (h.same (C := {}) (n := 0) trivial).length
  exact length_eq_zero.1 this

end Branch

/-! ## Objects -/

namespace RofsObject
variable {C : Config} {T : Type}

/-- The tree below the root of an object; the default object has none. -/
def branch (obj : RofsObject C T) : Option Branch := match obj.root with
  | .cons _ (.branch b) _ => some b
  | _ => none

/-- The path tree of an object's indices. -/
def tree (obj : RofsObject C T) : PathTree Str ℕ := match obj.branch with
  | some b => b.tree
  | none => PathTree.empty

/-- The path tree of an object's files. -/
def view (obj : RofsObject C T) : PathTree Str (Option T) := obj.tree.map (obj.files[·]?)

/-- Either the default object, or a root with a well-formed tree below it. -/
theorem cases_root (obj : RofsObject C T) :
    (obj.root = .nil ∧ obj.files = [] ∧ obj.branch = none) ∨
    ∃ b, obj.root = .cons [] (.branch b) .nil ∧ obj.branch = some b ∧ b.Wf C obj.files.length := by
  rcases obj.wf with ⟨h1, h2⟩ | ⟨b, hb, hw⟩
  · exact Or.inl ⟨h1, h2, by simp [branch, h1]⟩
  · exact Or.inr ⟨b, hb, by simp [branch, hb], hw⟩

theorem tree_of_branch {obj : RofsObject C T} {b : Branch} (h : obj.branch = some b) :
    obj.tree = b.tree := by simp [tree, h]

theorem tree_of_none {obj : RofsObject C T} (h : obj.branch = none) :
    obj.tree = PathTree.empty := by simp [tree, h]

/-- The leaves of a well-formed branch are below its bound. -/
theorem lt_of_kindAt {n i : ℕ} : ∀ {p : List Str} {b : Branch}, b.Wf C n →
    b.kindAt p = some (.file i) → i < n
  | [], b, _, h => by rw [Branch.kindAt_nil] at h; cases h
  | c :: p, b, hb, h => by
    rw [Branch.kindAt_cons] at h
    rcases hg : b.get c with _ | s | j
    · simp [hg] at h
    · simp only [hg] at h
      exact lt_of_kindAt (Branch.wf_branch.1 (hb.get hg).2).2 h
    · simp only [hg] at h
      split_ifs at h
      cases h
      exact Branch.wf_leaf.1 (hb.get hg).2

theorem lt_of_tree {obj : RofsObject C T} {p : List Str} {i : ℕ}
    (h : obj.tree.kind p = some (.file i)) : i < obj.files.length := by
  rcases obj.cases_root with ⟨-, -, hb⟩ | ⟨b, -, hb, hw⟩
  · rw [tree_of_none hb] at h; cases h
  · rw [tree_of_branch hb] at h
    exact lt_of_kindAt hw h

theorem view_file_iff {obj : RofsObject C T} {p : List Str} {x : Option T} :
    obj.view.kind p = some (.file x) ↔ ∃ i, obj.tree.kind p = some (.file i) ∧ obj.files[i]? = x :=
  PathTree.map_eq_file

theorem view_dir_iff {obj : RofsObject C T} {p : List Str} :
    obj.view.kind p = some .dir ↔ obj.tree.kind p = some .dir := PathTree.map_eq_dir

@[simp] theorem branch_default : (default : RofsObject C T).branch = none := rfl

@[simp] theorem view_default : (default : RofsObject C T).view = PathTree.empty := rfl

/-- The paths and indices `RofsObject::new` files. -/
def entries (C : Config) (files : List (Str × T)) : List (List Str × ℕ) :=
  (files.map fun f => filePath C f.1).zipIdx

theorem new_eq_some {files : List (Str × T)} {obj : RofsObject C T} (h : new files = some obj) :
    ∃ b, Branch.nil.insertPaths (entries C files) = some b ∧ obj.branch = some b ∧
      obj.files = files.map Prod.snd := by
  unfold new at h
  simp only at h
  split_ifs at h
  split at h
  · cases h
  · rename_i b hb
    cases h
    exact ⟨b, hb, rfl, rfl⟩

/-- **`RofsObject::new` keeps exactly the survivors.** -/
theorem holds_new {files : List (Str × T)} {obj : RofsObject C T} (h : new files = some obj) :
    obj.tree.Holds (PathTree.survivors (entries C files)) := by
  obtain ⟨b, hb, hobj, -⟩ := new_eq_some h
  rw [tree_of_branch hobj, Branch.tree_insertPaths hb, Branch.tree_nil]
  exact PathTree.holds_insertAll_root _

/-- What `RofsObject::merge` returns, by whether the objects have a root. -/
theorem merge_eq_some {a b c : RofsObject C T} (h : a.merge b = some c) :
    (a.branch = none ∧ a.files = [] ∧ c = b) ∨ (b.branch = none ∧ b.files = [] ∧ c = a) ∨
    ∃ ta tb, a.branch = some ta ∧ b.branch = some tb ∧ tb.Wf C b.files.length ∧
      c.branch = some (ta.merge (tb.adjustFiles a.files.length)) ∧
      c.files = a.files ++ b.files := by
  unfold merge at h
  rcases a.cases_root with ⟨ha, haf, hab⟩ | ⟨ta, ha, hab, -⟩
  · exact Or.inl ⟨hab, haf, by simpa [ha, Branch.length] using h.symm⟩
  · rcases b.cases_root with ⟨hb, hbf, hbb⟩ | ⟨tb, hb, hbb, hwb⟩
    · exact Or.inr (Or.inl ⟨hbb, hbf, by simpa [ha, hb, Branch.length] using h.symm⟩)
    · refine Or.inr (Or.inr ⟨ta, tb, hab, hbb, hwb, ?_⟩)
      have hla : a.root.length ≠ 0 := by simp [ha]
      have hlb : b.root.length ≠ 0 := by simp [hb]
      simp only [hla, hlb, or_self, dite_false] at h
      split_ifs at h with hlen
      cases h
      refine ⟨?_, rfl⟩
      have hmod : a.files.length % 4294967296 = a.files.length := Nat.mod_eq_of_lt a.files_lt
      simp [branch, ha, hb, Branch.adjustFiles, Branch.merge, Branch.get, Branch.set, hmod]

/-- The files of a merged object are those of both. -/
theorem files_merge {a b c : RofsObject C T} (h : a.merge b = some c) :
    c.files = a.files ++ b.files := by
  rcases merge_eq_some h with ⟨-, ha, rfl⟩ | ⟨-, hb, rfl⟩ | ⟨_, _, -, -, -, -, hf⟩
  · simp [ha]
  · simp [hb]
  · exact hf

/-- Merging objects merges their trees, the indices of the right one shifted by
    the number of files of the left one. -/
theorem tree_merge {a b c : RofsObject C T} (h : a.merge b = some c) :
    c.tree = a.tree.merge (b.tree.map (· + a.files.length)) := by
  rcases merge_eq_some h with ⟨ha, hfa, rfl⟩ | ⟨hb, -, rfl⟩ | ⟨ta, tb, ha, hb, hwb, hc, -⟩
  · rw [tree_of_none ha, hfa, PathTree.empty_merge]
    exact PathTree.map_id.symm
  · rw [tree_of_none hb, PathTree.map_empty, PathTree.merge_empty]
  · rw [tree_of_branch hc, Branch.tree_merge hwb.adjustFiles, Branch.tree_adjustFiles,
      tree_of_branch ha, tree_of_branch hb]

/-- **Merging objects merges their path trees.** -/
theorem view_merge {a b c : RofsObject C T} (h : a.merge b = some c) :
    c.view = a.view.merge b.view := by
  have hf := files_merge h
  rw [view, tree_merge h, PathTree.map_merge]
  congr 1
  · -- the indices of `a` stay where they are
    ext1; funext p
    rcases hk : a.tree.kind p with _ | _ | i
    · simp [view, hk]
    · simp [view, hk, Kind.map]
    · simp [view, hk, Kind.map, hf, List.getElem?_append_left (lt_of_tree hk)]
  · -- those of `b` follow
    ext1; funext p
    rcases hk : b.tree.kind p with _ | _ | i
    · simp [view, hk]
    · simp [view, hk, Kind.map]
    · simp [view, hk, Kind.map, hf, List.getElem?_append_right]

end RofsObject

end Fsvfs
