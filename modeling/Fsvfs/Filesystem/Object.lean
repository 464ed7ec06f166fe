/-
  Filesystem objects (`src/filesystem/object.rs`): the tree `RofsObject::new`
  builds from a list of paths, and `RofsObject::merge`.

  A hash map is the list of its entries, in the order its iterator yields
  them; a new entry is put at the end, and since the real order is arbitrary
  everything that iterates is stated up to `Branch.Reorder`.  A panic is
  `none`.

  A `Branch` that is `Wf` has distinct, well-formed names, no empty
  subdirectory, and leaves below a bound; an object carries that its tree is
  well-formed for its own files and that they fit in a `u32`.
-/
import Fsvfs.Filesystem.Path

namespace Fsvfs

mutual

/-- `TreeNode`. -/
inductive TreeNode where
  | branch (b : Branch)
  | leaf (dataIndex : ℕ)

/-- `Branch`, a hash map from names to nodes. -/
inductive Branch where
  | nil
  | cons (name : Str) (node : TreeNode) (rest : Branch)

end

@[elab_as_elim, induction_eliminator]
theorem Branch.ind {P : Branch → Prop} (nil : P .nil)
    (leaf : ∀ name i rest, P rest → P (.cons name (.leaf i) rest))
    (branch : ∀ name sub rest, P sub → P rest → P (.cons name (.branch sub) rest)) : ∀ b, P b
  | .nil => nil
  | .cons name (.leaf i) rest => leaf name i rest (Branch.ind nil leaf branch rest)
  | .cons name (.branch sub) rest =>
    branch name sub rest (Branch.ind nil leaf branch sub) (Branch.ind nil leaf branch rest)

namespace Branch

/-- `HashMap::len`. -/
def length : Branch → ℕ
  | nil => 0
  | cons _ _ rest => rest.length + 1

def keys : Branch → List Str
  | nil => []
  | cons name _ rest => name :: rest.keys

/-- `HashMap::get`. -/
def get : Branch → Str → Option TreeNode
  | nil, _ => none
  | cons name node rest, c => if name = c then some node else rest.get c

/-- `VacantEntry::insert`. -/
def push : Branch → Str → TreeNode → Branch
  | nil, c, t => cons c t nil
  | cons name node rest, c, t => cons name node (rest.push c t)

/-- Writing through the `&mut` to the node of `c`. -/
def set : Branch → Str → TreeNode → Branch
  | nil, _, _ => nil
  | cons name node rest, c, t => if name = c then cons name t rest else cons name node (rest.set c t)

/-- The loop of `RofsObject::new` over the components of one path. -/
def insertPath (node : Branch) (components : List Str) (fileNode : ℕ) : Option Branch :=
  match components with
  | [] => some node
  | component :: rest =>
    -- "file names must be shorter than 256 bytes"
    if 255 < component.bytes.length then none
    else match node.get component with
      | none =>
        if rest = [] then some (node.push component (.leaf fileNode))
        else (insertPath nil rest fileNode).map fun sub => node.push component (.branch sub)
      | some (.branch next) =>
        (insertPath next rest fileNode).map fun sub => node.set component (.branch sub)
      | some (.leaf _) => some node

/-- The loop of `RofsObject::new` over the paths. -/
def insertPaths : Branch → List (List Str × ℕ) → Option Branch
  | root, [] => some root
  | root, (components, fileNode) :: rest =>
    (root.insertPath components fileNode).bind fun root => root.insertPaths rest

/-- `BranchExt::adjust_files`.  An index that no longer fits in a `u32` makes
    the assertion in `RofsObject::merge` fail as well. -/
def adjustFiles (offset : ℕ) : Branch → Branch
  | nil => nil
  | cons name (.leaf i) rest => cons name (.leaf (i + offset)) (rest.adjustFiles offset)
  | cons name (.branch b) rest => cons name (.branch (b.adjustFiles offset)) (rest.adjustFiles offset)

/-- `BranchExt::merge`. -/
def merge (self : Branch) : Branch → Branch
  | nil => self
  | cons name (.leaf i) rest =>
    (match self.get name with
      | none => self.push name (.leaf i)
      | some _ => self).merge rest
  | cons name (.branch other) rest =>
    (match self.get name with
      | none => self.push name (.branch other)
      | some (.branch b) => self.set name (.branch (b.merge other))
      | some (.leaf _) => self).merge rest

/-- The same map, iterated in another order. -/
inductive Reorder : Branch → Branch → Prop
  | nil : Reorder nil nil
  | leaf {name i b b'} : Reorder b b' → Reorder (cons name (.leaf i) b) (cons name (.leaf i) b')
  | branch {name s s' b b'} : Reorder s s' → Reorder b b' →
      Reorder (cons name (.branch s) b) (cons name (.branch s') b')
  | swap {name t name' t' b} :
      Reorder (cons name t (cons name' t' b)) (cons name' t' (cons name t b))
  | trans {b b' b''} : Reorder b b' → Reorder b' b'' → Reorder b b''

/-! ## Well-formed trees -/

/-- The names of a tree: in lowercase, free of separators, short enough for
    their length byte, and neither `""` nor `"."`. -/
structure IsName (C : Config) (name : Str) : Prop where
  ne_nil : name ≠ []
  ne_dot : name ≠ ['.']
  sep : ∀ x ∈ name, x ∉ C.separators
  lower : name.lower = name
  len : name.bytes.length ≤ 255

end Branch

mutual

/-- A leaf below `n`, or a non-empty well-formed subdirectory. -/
def TreeNode.Wf (C : Config) (n : ℕ) : TreeNode → Prop
  | .leaf i => i < n
  | .branch b => b ≠ .nil ∧ b.Wf C n

/-- Distinct names, no empty subdirectory, and leaves below `n`. -/
def Branch.Wf (C : Config) (n : ℕ) : Branch → Prop
  | .nil => True
  | .cons name node rest =>
    Branch.IsName C name ∧ name ∉ rest.keys ∧ node.Wf C n ∧ rest.Wf C n

end

namespace Branch

@[simp] theorem length_eq_zero {b : Branch} : b.length = 0 ↔ b = nil := by
  cases b <;> simp [length]

theorem get_eq_none_iff {c : Str} : ∀ {b : Branch}, b.get c = none ↔ c ∉ b.keys
  | nil => by simp [get, keys]
  | cons name node rest => by
    by_cases h : name = c
    · simp [get, keys, h]
    · simp [get, keys, h, Ne.symm h, get_eq_none_iff]

theorem get_push {c d : Str} {t : TreeNode} : ∀ {b : Branch}, b.get c = none →
    (b.push c t).get d = if c = d then some t else b.get d
  | nil, _ => by simp [push, get]
  | cons name node rest, h => by
    have hne : name ≠ c := by rintro rfl; simp [get] at h
    rw [get, if_neg hne] at h
    rw [push, get, get, get_push h]
    by_cases hd : name = d
    · simp [hd, Ne.symm (hd ▸ hne : d ≠ c)]
    · simp [hd]

theorem get_set {c d : Str} {t : TreeNode} : ∀ {b : Branch}, b.get c ≠ none →
    (b.set c t).get d = if c = d then some t else b.get d
  | nil, h => absurd rfl h
  | cons name node rest, h => by
    by_cases hc : name = c
    · subst hc
      by_cases hd : name = d <;> simp [set, get, hd]
    · rw [get, if_neg hc] at h
      simp only [set, if_neg hc, get, get_set h]
      by_cases hd : name = d
      · simp [hd, Ne.symm (hd ▸ hc : d ≠ c)]
      · simp [hd]

@[simp] theorem keys_push {c : Str} {t : TreeNode} : ∀ {b : Branch}, (b.push c t).keys = b.keys ++ [c]
  | nil => rfl
  | cons name node rest => by simp [push, keys, keys_push]

@[simp] theorem keys_set {c : Str} {t : TreeNode} : ∀ {b : Branch}, (b.set c t).keys = b.keys
  | nil => rfl
  | cons name node rest => by
    unfold set
    split_ifs with h
    · simp [keys, h]
    · simp [keys, keys_set]

@[simp] theorem keys_adjustFiles {offset : ℕ} {b : Branch} : (b.adjustFiles offset).keys = b.keys := by
  induction b with
  | nil => rfl
  | leaf name i rest ih => simp [adjustFiles, keys, ih]
  | branch name s rest _ ih => simp [adjustFiles, keys, ih]

theorem push_ne_nil {b : Branch} {c : Str} {t : TreeNode} : b.push c t ≠ nil := by
  cases b <;> simp [push]

theorem set_ne_nil {c : Str} {t : TreeNode} : ∀ {b : Branch}, b ≠ nil → b.set c t ≠ nil
  | nil, h => absurd rfl h
  | cons name node rest, _ => by unfold set; split_ifs <;> simp

section
variable {C : Config} {n : ℕ}

@[simp] theorem wf_nil : nil.Wf C n := trivial

@[simp] theorem wf_leaf {i : ℕ} : (TreeNode.leaf i).Wf C n ↔ i < n := Iff.rfl

@[simp] theorem wf_branch {b : Branch} : (TreeNode.branch b).Wf C n ↔ b ≠ nil ∧ b.Wf C n := Iff.rfl

theorem Wf.push {c : Str} {t : TreeNode} (hc : IsName C c) (ht : t.Wf C n) : ∀ {b : Branch},
    b.Wf C n → b.get c = none → (b.push c t).Wf C n
  | nil, _, _ => by simp [Branch.push, Branch.Wf, keys, hc, ht]
  | cons name node rest, ⟨h1, h2, h3, h4⟩, h => by
    have hne : name ≠ c := by rintro rfl; simp [get] at h
    rw [get, if_neg hne] at h
    exact ⟨h1, by simp [h2, hne], h3, Wf.push hc ht h4 h⟩

theorem Wf.set {c : Str} {t : TreeNode} (ht : t.Wf C n) : ∀ {b : Branch},
    b.Wf C n → (b.set c t).Wf C n
  | nil, h => h
  | cons name node rest, ⟨h1, h2, h3, h4⟩ => by
    unfold Branch.set
    split_ifs with hc
    · exact ⟨h1, h2, ht, h4⟩
    · exact ⟨h1, by simpa using h2, h3, Wf.set ht h4⟩

theorem Wf.get {c : Str} {t : TreeNode} : ∀ {b : Branch}, b.Wf C n → b.get c = some t →
    IsName C c ∧ t.Wf C n
  | nil, _, h => by simp [Branch.get] at h
  | cons name node rest, ⟨h1, _, h3, h4⟩, h => by
    unfold Branch.get at h
    split_ifs at h with hc
    · subst hc; cases h; exact ⟨h1, h3⟩
    · exact Wf.get h4 h

theorem Wf.insertPath : ∀ {components : List Str} {i : ℕ} {b b' : Branch}, b.Wf C n → i < n →
    (∀ c ∈ components, c.bytes.length ≤ 255 → IsName C c) → b.insertPath components i = some b' →
      b'.Wf C n ∧ (components ≠ [] ∨ b ≠ nil → b' ≠ nil)
  | [], i, b, b', hb, _, _, h => by
    cases h; exact ⟨hb, by simp⟩
  | component :: rest, i, b, b', hb, hi, hcs, h => by
    by_cases hlen : 255 < component.bytes.length
    · simp [Branch.insertPath, hlen] at h
    rw [Branch.insertPath, if_neg hlen] at h
    have hname : IsName C component := hcs _ (by simp) (by omega)
    have hrest : ∀ c ∈ rest, c.bytes.length ≤ 255 → IsName C c := fun c hc => hcs c (by simp [hc])
    rcases hg : b.get component with _ | next | j
    · simp only [hg] at h
      split_ifs at h with hr
      · cases h
        exact ⟨hb.push hname (wf_leaf.2 hi) hg, fun _ => push_ne_nil⟩
      · obtain ⟨sub, hsub, rfl⟩ := Option.map_eq_some_iff.1 h
        obtain ⟨hwf, hne⟩ := Wf.insertPath wf_nil hi hrest hsub
        exact ⟨hb.push hname (wf_branch.2 ⟨hne (Or.inl hr), hwf⟩) hg, fun _ => push_ne_nil⟩
    · simp only [hg] at h
      obtain ⟨sub, hsub, rfl⟩ := Option.map_eq_some_iff.1 h
      have hn : next ≠ nil ∧ next.Wf C n := (hb.get hg).2
      obtain ⟨hwf, hne⟩ := Wf.insertPath hn.2 hi hrest hsub
      refine ⟨hb.set (wf_branch.2 ⟨hne (Or.inr hn.1), hwf⟩), fun _ => set_ne_nil ?_⟩
      rintro rfl
      simp [Branch.get] at hg
    · simp only [hg] at h
      cases h
      refine ⟨hb, fun _ => ?_⟩
      rintro rfl
      simp [Branch.get] at hg

theorem Wf.insertPaths : ∀ {l : List (List Str × ℕ)} {b b' : Branch}, b.Wf C n →
    (∀ p ∈ l, p.2 < n ∧ ∀ c ∈ p.1, c.bytes.length ≤ 255 → IsName C c) →
      b.insertPaths l = some b' → b'.Wf C n
  | [], _, _, hb, _, h => by cases h; exact hb
  | (components, i) :: l, b, b', hb, hl, h => by
    obtain ⟨b₁, h1, h2⟩ := Option.bind_eq_some_iff.1 h
    obtain ⟨hi, hcs⟩ := hl (components, i) (by simp)
    exact (hb.insertPath hi hcs h1).1.insertPaths (fun p hp => hl p (by simp [hp])) h2

theorem Wf.mono {m : ℕ} (hnm : n ≤ m) {b : Branch} (h : b.Wf C n) : b.Wf C m := by
  induction b with
  | nil => trivial
  | leaf name i rest ih => exact ⟨h.1, h.2.1, lt_of_lt_of_le h.2.2.1 hnm, ih h.2.2.2⟩
  | branch name s rest ih₁ ih₂ => exact ⟨h.1, h.2.1, ⟨h.2.2.1.1, ih₁ h.2.2.1.2⟩, ih₂ h.2.2.2⟩

theorem Wf.adjustFiles {offset : ℕ} {b : Branch} (h : b.Wf C n) :
    (b.adjustFiles offset).Wf C (n + offset) := by
  induction b with
  | nil => trivial
  | leaf name i rest ih =>
    exact ⟨h.1, by simpa using h.2.1, Nat.add_lt_add_right h.2.2.1 offset, ih h.2.2.2⟩
  | branch name s rest ih₁ ih₂ =>
    refine ⟨h.1, by simpa using h.2.1, ⟨?_, ih₁ h.2.2.1.2⟩, ih₂ h.2.2.2⟩
    have hs := h.2.2.1.1
    cases s with
    | nil => exact absurd rfl hs
    | cons name t rest => cases t <;> simp [Branch.adjustFiles]

theorem merge_ne_nil {b o : Branch} (h : b ≠ nil) : b.merge o ≠ nil := by
  induction o generalizing b with
  | nil => exact h
  | leaf name i rest ih =>
    rw [merge]
    refine ih ?_
    split
    · exact push_ne_nil
    · exact h
  | branch name s rest _ ih =>
    rw [merge]
    refine ih ?_
    split
    · exact push_ne_nil
    · exact set_ne_nil h
    · exact h

theorem Wf.merge {b o : Branch} (hb : b.Wf C n) (ho : o.Wf C n) : (b.merge o).Wf C n := by
  induction o generalizing b with
  | nil => exact hb
  | leaf name i rest ih =>
    obtain ⟨h1, -, h3, h4⟩ := ho
    rw [Branch.merge]
    refine ih ?_ h4
    split
    · exact hb.push h1 h3 ‹_›
    · exact hb
  | branch name s rest ih₁ ih₂ =>
    obtain ⟨h1, -, h3, h4⟩ := ho
    rw [Branch.merge]
    refine ih₂ ?_ h4
    split
    · exact hb.push h1 h3 ‹_›
    · rename_i next hg
      have hn : next ≠ nil ∧ next.Wf C n := (hb.get hg).2
      exact hb.set (wf_branch.2 ⟨merge_ne_nil hn.1, ih₁ hn.2 h3.2⟩)
    · exact hb

end

end Branch

/-! ## Objects -/

/-- `RofsObject`: a tree whose root is the only entry, under the name `""`, and
    the files its leaves are indices of.  The default object has no root. -/
structure RofsObject (C : Config) (T : Type) where
  root : Branch
  files : List T
  /-- `assert_u32(files.len())` -/
  files_lt : files.length < 2 ^ 32
  wf : root = .nil ∧ files = [] ∨
    ∃ b : Branch, root = .cons [] (.branch b) .nil ∧ b.Wf C files.length

namespace RofsObject
variable {C : Config} {T : Type}

theorem length_nil_lt : ([] : List T).length < 2 ^ 32 := Nat.two_pow_pos 32

/-- `RofsObject::default`. -/
def default : RofsObject C T := ⟨.nil, [], length_nil_lt, Or.inl ⟨rfl, rfl⟩⟩

/-- The components a path of `RofsObject::new` is filed under. -/
def filePath (C : Config) (path : Str) : List Str :=
  components C (toAsciiLowercase (normalizePath C path)).1

theorem filePath_eq (path : Str) : filePath C path = components C (normalizePath C path).lower := by
  rw [filePath, toAsciiLowercase_fst]

theorem isName_filePath {path c : Str} (h : c ∈ filePath C path) (hlen : c.bytes.length ≤ 255) :
    Branch.IsName C c := by
  rw [filePath_eq, components, List.mem_filter] at h
  obtain ⟨hc, hne⟩ := h
  obtain ⟨hsep, hin⟩ := mem_splitPath hc
  obtain ⟨h1, h2⟩ : c ≠ [] ∧ c ≠ ['.'] := by simpa using hne
  refine ⟨h1, h2, hsep, ?_, hlen⟩
  refine (List.map_congr_left fun x hx => ?_).trans c.map_id
  obtain ⟨y, -, rfl⟩ := List.mem_map.1 (hin.subset hx)
  exact toLower_toLower y

/-- `RofsObject::new`. -/
def new (files : List (Str × T)) : Option (RofsObject C T) :=
  let filePaths := (files.map fun f => filePath C f.1).zipIdx
  if hlen : files.length < 2 ^ 32 then
    match hroot : Branch.nil.insertPaths filePaths with
    | none => none
    | some root => some
      { root := .cons [] (.branch root) .nil
        files := files.map Prod.snd
        files_lt := by simpa using hlen
        wf := Or.inr ⟨root, rfl, by
          refine Branch.Wf.insertPaths Branch.wf_nil (fun p hp => ?_) hroot
          obtain ⟨hi, hp⟩ := List.mem_zipIdx' hp
          simp only [List.length_map, List.getElem_map] at hi hp ⊢
          exact ⟨hi, fun c hc => isName_filePath (hp ▸ hc)⟩⟩ }
  else none

/-- `RofsObject::merge`. -/
def merge (self other : RofsObject C T) : Option (RofsObject C T) :=
  if h0 : other.root.length = 0 ∨ self.root.length = 0 then
    some (if self.root.length ≠ 0 then self else other)
  else
    let filesOffset := self.files.length % 2 ^ 32
    let files := self.files ++ other.files
    if hlen : files.length < 2 ^ 32 then some
      { root := self.root.merge (other.root.adjustFiles filesOffset)
        files := files
        files_lt := hlen
        wf := by
          obtain ⟨h1, h2⟩ := not_or.1 h0
          obtain ⟨b, hb, hbwf⟩ := self.wf.resolve_left fun h => h2 (by simp [h.1])
          obtain ⟨o, ho, howf⟩ := other.wf.resolve_left fun h => h1 (by simp [h.1])
          have hoff : filesOffset = self.files.length := Nat.mod_eq_of_lt self.files_lt
          refine Or.inr ⟨b.merge (o.adjustFiles filesOffset), ?_, ?_⟩
          · simp [hb, ho, Branch.adjustFiles, Branch.merge, Branch.get, Branch.set]
          · have hf : files.length = self.files.length + other.files.length := List.length_append
            refine (hbwf.mono (by omega)).merge ?_
            rw [hf, Nat.add_comm, hoff]
            exact howf.adjustFiles }
    else none

end RofsObject

end Fsvfs
