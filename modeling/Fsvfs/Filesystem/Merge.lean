/-
  Merging objects (`RofsObject::merge`), as the `reduce` of `finish` does.

  * `merge_default`, `default_merge`: the default object is an identity;
  * `merge_assoc`: regrouping two merges changes no answer unless a file of the
    middle object hides, on one side only, a directory of the right one; and
    then it does change one;
  * `not_merge_assoc`: three objects for which it does;
  * `merge_files`: merging keeps the files of the left object and adds exactly
    those of the right one that do not conflict, each with its own data.
-/
import Fsvfs.Filesystem.Build

namespace Fsvfs

open Lib

/-! ## Asking for a path -/

/-- A list of names as a path. -/
def joinPath (cs : List Str) : Str := ['/'].intercalate cs

section
variable {C : Config}

/-- A joined path is resolved to its components. -/
theorem components_joinPath (hC : '/' ∈ C.separators) {cs : List Str}
    (h : ∀ c ∈ cs, IsComponent C c) : components C (normalizePath C (joinPath cs)) = cs := by
  rw [components_normalizePath hC, resolved]
  by_cases hcs : cs = []
  · subst hcs
    rw [joinPath, show ['/'].intercalate [] = ([] : Str) from rfl, splitPath_nil]
    rfl
  · rw [joinPath, splitPath_intercalate hC hcs fun c hc => (h c hc).sep,
      foldl_pushComponent [] fun c hc => (h c hc).ne_dots, List.nil_append, List.filter_eq_self]
    intro c hc
    simp [(h c hc).ne_nil, (h c hc).ne_dot]

end

namespace Branch

theorem size_adjustFiles {offset : ℕ} {b : Branch} : (b.adjustFiles offset).size = b.size := by
  induction b with
  | nil => rfl
  | leaf name i rest ih => simp [adjustFiles, size, ih]
  | branch name s rest ih₁ ih₂ => simp [adjustFiles, size, ih₁, ih₂]

theorem size_merge_le (b o : Branch) : (b.merge o).size ≤ b.size + o.size := by
  induction o generalizing b with
  | nil => exact Nat.le_refl _
  | leaf name i rest ih =>
    rw [merge, size]
    refine (ih _).trans ?_
    split
    · rw [size_push_leaf]; omega
    · omega
  | branch name s rest ih₁ ih₂ =>
    rw [merge, size]
    refine (ih₂ _).trans ?_
    split
    · rw [size_push_branch]; omega
    · rename_i next hg
      have h1 := size_set (next.merge s) hg
      have h2 := ih₁ next
      omega
    · omega

end Branch

namespace RofsObject
variable {C : Config} {T : Type} {E : Eytzinger}

/-- Asking for a joined path in lowercase. -/
theorem queryTree_joinPath {α : Type} (hC : '/' ∈ C.separators) (hl : C.CaseClosed)
    (t : PathTree Str α) {cs : List Str} (h : ∀ c ∈ cs, IsComponent C c ∧ c.lower = c) :
    queryTree t C (joinPath cs) = t.kind cs := by
  have hcs := components_joinPath hC fun c hc => (h c hc).1
  have hlow : norm C (joinPath cs) = cs := by
    rw [norm, ← components_normalizePath hC, hcs]
    exact (List.map_congr_left fun c hc => (h c hc).2).trans cs.map_id
  rw [queryTree, components_lower_normalizePath hC hl, hcs, hlow, Option.or_self]

/-- Everything in a built object lies above the path of a file. -/
theorem prefix_of_new {files : List (Str × T)} {obj : RofsObject C T} (h : new files = some obj)
    {p : List Str} (hp : obj.view.kind p ≠ none) :
    p = [] ∨ ∃ s ∈ PathTree.survivors (entries C files), p <+: s.1 := by
  have hholds := holds_new h
  rw [view, ne_eq, PathTree.map_eq_none] at hp
  rcases hk : obj.tree.kind p with _ | _ | i
  · exact absurd hk hp
  · rcases (hholds.dir p).1 hk with rfl | ⟨s, hs, hps, -⟩
    · exact Or.inl rfl
    · exact Or.inr ⟨s, hs, hps⟩
  · exact Or.inr ⟨_, (hholds.file p i).1 hk, List.prefix_rfl⟩

/-- The names of a built object are components in lowercase. -/
theorem isComponent_of_new (hC : '/' ∈ C.separators) (hl : C.CaseClosed) {files : List (Str × T)}
    {obj : RofsObject C T} (h : new files = some obj) {p : List Str} (hp : obj.view.kind p ≠ none) :
    ∀ c ∈ p, IsComponent C c ∧ c.lower = c := by
  intro c hc
  rcases prefix_of_new h hp with rfl | ⟨s, hs, hps⟩
  · cases hc
  · have hcs := hps.subset hc
    obtain ⟨hi, hs⟩ := List.mem_zipIdx' (PathTree.mem_survivors hs)
    rw [hs, List.getElem_map, filePath_eq_norm hC hl, norm, List.mem_map] at hcs
    obtain ⟨d, hd, rfl⟩ := hcs
    have hlower : d.lower.lower = d.lower := by
      rw [Str.lower, Str.lower, List.map_map]
      exact List.map_congr_left fun x _ => toLower_toLower x
    exact ⟨(isComponent_resolved hd).lower hl, hlower⟩

/-! ## The identity -/

theorem merge_isSome {a b : RofsObject C T} (h : a.files.length + b.files.length < 2 ^ 32) :
    ∃ c, a.merge b = some c := by
  have hlen : (a.files ++ b.files).length < 2 ^ 32 := by rwa [List.length_append]
  by_cases h0 : b.root.length = 0 ∨ a.root.length = 0
  · exact ⟨_, dif_pos h0⟩
  · exact ⟨_, (dif_neg h0).trans (dif_pos hlen)⟩

/-- The default object is a left identity. -/
theorem default_merge (a : RofsObject C T) : (default : RofsObject C T).merge a = some a := by
  simp [merge, default, Branch.length]

/-- The default object is a right identity. -/
theorem merge_default (a : RofsObject C T) : a.merge default = some a := by
  rcases a.cases_root with ⟨hr, hf, -⟩ | ⟨b, hr, -⟩
  · obtain ⟨root, files, _, _⟩ := a
    obtain rfl : root = .nil := hr
    obtain rfl : files = [] := hf
    simp [merge, default, Branch.length]
  · simp [merge, default, hr, Branch.length]

theorem merge_isSome_iff {a b : RofsObject C T} :
    (a.merge b).isSome ↔ a.files.length + b.files.length < 2 ^ 32 := by
  constructor
  · intro h
    obtain ⟨c, hc⟩ := Option.isSome_iff_exists.1 h
    rw [← List.length_append, ← files_merge hc]
    exact c.files_lt
  · intro h
    exact Option.isSome_iff_exists.2 (merge_isSome h)

/-- Merging adds at most the names of the other object. -/
theorem size_merge {a b c : RofsObject C T} (h : a.merge b = some c) :
    c.size ≤ a.size + b.size := by
  rcases merge_eq_some h with ⟨-, -, rfl⟩ | ⟨-, -, rfl⟩ | ⟨ta, tb, ha, hb, -, hc, -⟩
  · omega
  · omega
  · rw [size_of_branch ha, size_of_branch hb, size_of_branch hc]
    exact (Branch.size_merge_le ta _).trans (by rw [Branch.size_adjustFiles])

/-! ## Regrouping -/

/-- Both groupings panic on the same objects. -/
theorem isSome_regroup (a b c : RofsObject C T) : ((a.merge b).bind (·.merge c)).isSome =
    ((b.merge c).bind a.merge).isSome := by
  have key : ∀ x : Option (RofsObject C T), ∀ f : RofsObject C T → Option (RofsObject C T),
      ∀ n m k : ℕ, (x.isSome ↔ n + m < 2 ^ 32) → (∀ y, x = some y → ((f y).isSome ↔ n + m + k < 2 ^ 32)) →
        ((x.bind f).isSome ↔ n + m + k < 2 ^ 32) := by
    intro x f n m k hx hf
    rcases x with _ | y
    · simp only [Option.isSome_none, Bool.false_eq_true, false_iff] at hx
      simp only [Option.bind_none, Option.isSome_none, Bool.false_eq_true, false_iff]
      omega
    · exact hf y rfl
  have hl := key (a.merge b) (·.merge c) _ _ c.files.length merge_isSome_iff fun y hy => by
    rw [merge_isSome_iff, files_merge hy, List.length_append]
  have hr := key (b.merge c) a.merge _ _ a.files.length merge_isSome_iff fun y hy => by
    rw [merge_isSome_iff, files_merge hy, List.length_append, Nat.add_comm]
  rw [Bool.eq_iff_iff, hl, hr]
  omega

variable {a b c l r : RofsObject C T} {fl fr : Rofs C T}

theorem view_left (h : (a.merge b).bind (·.merge c) = some l) :
    l.view = (a.view.merge b.view).merge c.view := by
  obtain ⟨ab, hab, hl⟩ := Option.bind_eq_some_iff.1 h
  rw [view_merge hl, view_merge hab]

theorem view_right (h : (b.merge c).bind a.merge = some r) :
    r.view = a.view.merge (b.view.merge c.view) := by
  obtain ⟨bc, hbc, hr⟩ := Option.bind_eq_some_iff.1 h
  rw [view_merge hr, view_merge hbc]

/-- Regrouping loses the path at which it shows. -/
theorem find_ne_of_regroups (hC : '/' ∈ C.separators) (hcl : C.CaseClosed)
    {files : List (Str × T)} (hc : new files = some c) (hl : (a.merge b).bind (·.merge c) = some l)
    (hr : (b.merge c).bind a.merge = some r) (hfl : l.IntoRofs E fl) (hfr : r.IntoRofs E fr)
    (h : PathTree.Regroups a.view b.view c.view) : ∃ q, fl.find E q ≠ fr.find E q := by
  obtain ⟨p, q, hpq, ha, ⟨x, hb⟩, hfree, hq⟩ := h
  obtain ⟨h1, h2⟩ := PathTree.merge_assoc_ne hpq ha hb hfree hq
  have hnames := isComponent_of_new hC hcl hc hq
  refine ⟨joinPath q, ?_⟩
  rw [hfl.find_eq, hfr.find_eq, queryTree_joinPath hC hcl _ hnames,
    queryTree_joinPath hC hcl _ hnames, view_left hl, view_right hr, h1, h2]
  exact hq

/-- **Merging objects is a monoid up to regrouping**: the default object is its
    identity, and for built objects the two groupings give the same answers iff
    no file of the middle object hides, in one grouping only, what the right one
    has below a directory of the left one. -/
theorem merge_assoc {files : List (Str × T)} (hc : new files = some c) :
    (a.merge default = some a ∧ default.merge a = some a) ∧
    ((a.merge b).bind (·.merge c)).isSome = ((b.merge c).bind a.merge).isSome ∧
    ∀ l r fl fr, (a.merge b).bind (·.merge c) = some l → (b.merge c).bind a.merge = some r →
      l.IntoRofs E fl → r.IntoRofs E fr →
        (¬ PathTree.Regroups a.view b.view c.view → ∀ q, fl.find E q = fr.find E q) ∧
        ('/' ∈ C.separators → C.CaseClosed →
          ((∀ q, fl.find E q = fr.find E q) ↔ ¬ PathTree.Regroups a.view b.view c.view)) := by
  refine ⟨⟨merge_default a, default_merge a⟩, isSome_regroup a b c, ?_⟩
  intro l r fl fr hl hr hfl hfr
  have hsame : ¬ PathTree.Regroups a.view b.view c.view → ∀ q, fl.find E q = fr.find E q := by
    intro h q
    rw [hfl.find_eq, hfr.find_eq, view_left hl, view_right hr, PathTree.merge_assoc_iff.2 h]
  refine ⟨hsame, fun hC hcl => ⟨fun hq h => ?_, hsame⟩⟩
  obtain ⟨q, hne⟩ := find_ne_of_regroups hC hcl hc hl hr hfl hfr h
  exact hne (hq q)

/-! ## Objects that can be regrouped, and objects that cannot -/

/-- Small objects are merged and flattened in both groupings. -/
theorem exists_regroup (E : Eytzinger) (a b c : RofsObject C T)
    (hlen : a.files.length + b.files.length + c.files.length < 2 ^ 32)
    (hsize : a.size + b.size + c.size + 1 < 2 ^ 32) :
    ∃ (l r : RofsObject C T) (fl fr : Rofs C T), (a.merge b).bind (·.merge c) = some l ∧
      (b.merge c).bind a.merge = some r ∧ l.IntoRofs E fl ∧ r.IntoRofs E fr := by
  obtain ⟨ab, hab⟩ := merge_isSome (a := a) (b := b) (by omega)
  obtain ⟨bc, hbc⟩ := merge_isSome (a := b) (b := c) (by omega)
  obtain ⟨l, hl⟩ := merge_isSome (a := ab) (b := c) (by
    rw [files_merge hab, List.length_append]; omega)
  obtain ⟨r, hr⟩ := merge_isSome (a := a) (b := bc) (by
    rw [files_merge hbc, List.length_append]; omega)
  have h1 := size_merge hab
  have h2 := size_merge hbc
  have h3 := size_merge hl
  have h4 := size_merge hr
  obtain ⟨fl, hfl⟩ := exists_intoRofs_of_size E l (by omega)
  obtain ⟨fr, hfr⟩ := exists_intoRofs_of_size E r (by omega)
  exact ⟨l, r, fl, fr, by rw [hab]; exact hl, by rw [hbc]; exact hr, hfl, hfr⟩

/-- An object with one file, built. -/
theorem exists_one (path : Str) (i : ℕ)
    (h : ∀ c ∈ filePath DefaultConfig path, c.bytes.length ≤ 255)
    (hsize : pathSize (filePath DefaultConfig path) ≤ 255) :
    ∃ obj : RofsObject DefaultConfig ℕ, new [(path, i)] = some obj ∧ obj.files.length = 1 ∧
      obj.size ≤ 255 := by
  obtain ⟨obj, b, hobj, hb, hle⟩ := new_isSome (C := DefaultConfig) [(path, i)] (by simp)
    (by simpa using h)
  obtain ⟨_, -, -, hfiles⟩ := new_eq_some hobj
  refine ⟨obj, hobj, by rw [hfiles]; rfl, ?_⟩
  rw [size_of_branch hb]
  simp only [filesSize, List.map_cons, List.map_nil, List.sum_cons, List.sum_nil] at hle
  omega

/-- A file may hide a directory of the same name if nobody else looks there. -/
theorem merge_assoc_apart : ∃ (a b c l r : RofsObject DefaultConfig ℕ) (fl fr : Rofs DefaultConfig ℕ),
    new [("x/y".toList, 0)] = some a ∧ new [("x".toList, 1)] = some b ∧
      new [("z".toList, 2)] = some c ∧ (a.merge b).bind (·.merge c) = some l ∧
      (b.merge c).bind a.merge = some r ∧ l.IntoRofs Eytzinger.layout fl ∧
      r.IntoRofs Eytzinger.layout fr ∧
      ∀ q, fl.find Eytzinger.layout q = fr.find Eytzinger.layout q := by
  obtain ⟨a, ha, hla, hsa⟩ := exists_one "x/y".toList 0 (by decide) (by decide)
  obtain ⟨b, hb, hlb, hsb⟩ := exists_one "x".toList 1 (by decide) (by decide)
  obtain ⟨c, hc, hlc, hsc⟩ := exists_one "z".toList 2 (by decide) (by decide)
  obtain ⟨l, r, fl, fr, hl, hr, hfl, hfr⟩ := exists_regroup Eytzinger.layout a b c
    (by omega) (by omega)
  refine ⟨a, b, c, l, r, fl, fr, ha, hb, hc, hl, hr, hfl, hfr, ?_⟩
  refine ((merge_assoc (a := a) (b := b) hc).2.2 l r fl fr hl hr hfl hfr).1 ?_
  rintro ⟨p, q, hpq, -, ⟨x, hx⟩, -, hq⟩
  have hsb : PathTree.survivors (entries DefaultConfig [("x".toList, 1)]) = [([['x']], 0)] := by decide
  have hsc : PathTree.survivors (entries DefaultConfig [("z".toList, 2)]) = [([['z']], 0)] := by decide
  -- `p` is the path of the file of `b`, and `q` lies above that of `c`
  obtain ⟨i, hi, -⟩ := view_file_iff.1 hx
  have hp := ((holds_new hb).file p i).1 hi
  rw [hsb, List.mem_singleton] at hp
  obtain rfl : p = [['x']] := congrArg Prod.fst hp
  have hxq : ['x'] ∈ q := hpq.subset (by simp)
  rcases prefix_of_new hc hq with rfl | ⟨s, hs, hqs⟩
  · cases hxq
  · rw [hsc, List.mem_singleton] at hs
    have hxs := hqs.subset hxq
    rw [hs] at hxs
    revert hxs
    decide

/-- Three objects with the files `x/y`, `x` and `x/z`: merged from the left they
    have a file `x/z`, merged from the right they do not. -/
theorem not_merge_assoc : ∃ (a b c l r : RofsObject DefaultConfig ℕ) (fl fr : Rofs DefaultConfig ℕ),
    new [("x/y".toList, 0)] = some a ∧ new [("x".toList, 1)] = some b ∧
      new [("x/z".toList, 2)] = some c ∧ (a.merge b).bind (·.merge c) = some l ∧
      (b.merge c).bind a.merge = some r ∧ l.IntoRofs Eytzinger.layout fl ∧
      r.IntoRofs Eytzinger.layout fr ∧
      ∃ q, fl.find Eytzinger.layout q ≠ fr.find Eytzinger.layout q := by
  obtain ⟨a, ha, hla, hsa⟩ := exists_one "x/y".toList 0 (by decide) (by decide)
  obtain ⟨b, hb, hlb, hsb⟩ := exists_one "x".toList 1 (by decide) (by decide)
  obtain ⟨c, hc, hlc, hsc⟩ := exists_one "x/z".toList 2 (by decide) (by decide)
  obtain ⟨l, r, fl, fr, hl, hr, hfl, hfr⟩ := exists_regroup Eytzinger.layout a b c
    (by omega) (by omega)
  refine ⟨a, b, c, l, r, fl, fr, ha, hb, hc, hl, hr, hfl, hfr, ?_⟩
  have hclosed := Config.caseClosed_of_letterFree letterFree_defaultConfig
  refine find_ne_of_regroups (by decide) hclosed hc hl hr hfl hfr
    ⟨[['x']], [['x'], ['z']], by simp, ?_, ?_, ⟨?_, ?_⟩, ?_⟩
  · exact view_dir_iff.2 (((holds_new ha).dir _).2 (by decide))
  · exact ⟨_, view_file_iff.2 ⟨0, ((holds_new hb).file _ _).2 (by decide), rfl⟩⟩
  · by_contra h
    rcases prefix_of_new ha h with h | ⟨s, hs, hp⟩
    · cases h
    · revert s
      decide
  · rintro ⟨q, x, hq, hx⟩
    obtain ⟨i, hi, -⟩ := view_file_iff.1 hx
    have hs := ((holds_new ha).file q i).1 hi
    have hsa : PathTree.survivors (entries DefaultConfig [("x/y".toList, 0)]) =
        [([['x'], ['y']], 0)] := by decide
    rw [hsa, List.mem_singleton] at hs
    obtain rfl : q = [['x'], ['y']] := congrArg Prod.fst hs
    revert hq
    decide
  · have hk : c.view.kind [['x'], ['z']] = _ :=
      view_file_iff.2 ⟨0, ((holds_new hc).file _ _).2 (by decide), rfl⟩
    rw [hk]
    simp

/-! ## The files of a merged object -/

variable (E) in
/-- `lookup` finds the file `i` at a path, and `entry` reads its data `x`. -/
structure FileAt (fs : Rofs C T) (q : Str) (i : ℕ) (x : T) : Prop where
  located : (fs.locate E q).map Node.kind = some (.file i)
  data : fs.files[i]? = some x
  found : fs.find E q = some (.file (some x))

/-- Asking for a path in lowercase. -/
theorem queryTree_of_lower {α : Type} (t : PathTree Str α) {q : Str}
    (hq : (normalizePath C q).lower = normalizePath C q) :
    queryTree t C q = t.kind (components C (normalizePath C q)) := by
  rw [queryTree, hq, Option.or_self]

/-- The files of a flattened object are those of its tree. -/
theorem IntoRofs.fileAt_iff {obj : RofsObject C T} {fs : Rofs C T} (h : obj.IntoRofs E fs) {q : Str}
    (hq : (normalizePath C q).lower = normalizePath C q) {i : ℕ} {x : T} : FileAt E fs q i x ↔
      obj.tree.kind (components C (normalizePath C q)) = some (.file i) ∧ obj.files[i]? = some x := by
  have hloc := h.locate_eq q
  rw [queryTree_of_lower _ hq] at hloc
  have hfiles := h.flattened.1
  constructor
  · intro hat
    exact ⟨by rw [← hloc, hat.located], by rw [← hfiles, hat.data]⟩
  · rintro ⟨hk, hx⟩
    rw [← hloc] at hk
    obtain ⟨node, hn, hkind⟩ := Option.map_eq_some_iff.1 hk
    refine ⟨hk, by rw [hfiles, hx], ?_⟩
    rw [Rofs.find_eq_locate, hn, Option.map_some, hkind, hfiles, Kind.map, hx]

/-- The data of every file exists. -/
theorem exists_file {obj : RofsObject C T} {p : List Str} {i : ℕ}
    (h : obj.tree.kind p = some (.file i)) : ∃ x, obj.files[i]? = some x :=
  ⟨_, List.getElem?_eq_getElem (lt_of_tree h)⟩

/-- What `lookup` and `entry` find is a file of the tree. -/
theorem IntoRofs.exists_fileAt {obj : RofsObject C T} {fs : Rofs C T} (h : obj.IntoRofs E fs)
    {q : Str} (hq : (normalizePath C q).lower = normalizePath C q) {y : Option T}
    (hy : fs.find E q = some (.file y)) : ∃ i x, y = some x ∧ FileAt E fs q i x := by
  rw [h.find_eq, queryTree_of_lower _ hq] at hy
  obtain ⟨i, hi, rfl⟩ := view_file_iff.1 hy
  obtain ⟨x, hx⟩ := exists_file hi
  exact ⟨i, x, hx, (h.fileAt_iff hq).2 ⟨hi, hx⟩⟩

/-- The files of a merged tree: those of the left one, and those of the right
    one where the left one is free, moved behind them. -/
theorem tree_merge_file_iff (h : a.merge b = some c) {p : List Str} {k : ℕ} :
    c.tree.kind p = some (.file k) ↔ a.tree.kind p = some (.file k) ∨
      ∃ j, k = a.files.length + j ∧ b.tree.kind p = some (.file j) ∧ a.tree.Free p := by
  rw [tree_merge h, PathTree.merge_file_iff, PathTree.map_eq_file]
  constructor
  · rintro (hk | ⟨hfree, j, hj, rfl⟩)
    · exact Or.inl hk
    · exact Or.inr ⟨j, Nat.add_comm _ _, hj, hfree⟩
  · rintro (hk | ⟨j, rfl, hj, hfree⟩)
    · exact Or.inl hk
    · exact Or.inr ⟨hfree, j, hj, Nat.add_comm _ _⟩

/-- A path that is neither a directory nor at or below a file is free. -/
theorem free_iff {t : PathTree Str ℕ} {p : List Str} :
    t.Free p ↔ ¬ t.Blocked p ∧ t.kind p ≠ some .dir := by
  constructor
  · rintro ⟨hn, hb⟩
    exact ⟨hb, by simp [hn]⟩
  · rintro ⟨hb, hd⟩
    refine ⟨?_, hb⟩
    rcases hk : t.kind p with _ | _ | i
    · rfl
    · exact absurd hk hd
    · exact absurd ⟨p, i, List.prefix_rfl, hk⟩ hb

/-- **Merging keeps the left object and adds exactly what does not conflict.**
    For a path in lowercase: what is a file of the left object is the same file
    of the merged one; otherwise it is a file of the merged one iff it is a file
    of the right one, the left one has no file at or above it and no directory
    there, and then it is the same file, behind those of the left one. -/
theorem merge_files {fs : Rofs C T} (h : a.merge b = some c) (hfs : c.IntoRofs E fs) {q : Str}
    (hq : (normalizePath C q).lower = normalizePath C q) {p : List Str}
    (hp : components C (normalizePath C q) = p) :
    (∀ i, a.tree.kind p = some (.file i) → ∃ x, a.files[i]? = some x ∧ FileAt E fs q i x) ∧
    ((∀ i, a.tree.kind p ≠ some (.file i)) →
      (∀ j, b.tree.kind p = some (.file j) → ¬ a.tree.Blocked p → a.tree.kind p ≠ some .dir →
        ∃ x, b.files[j]? = some x ∧ FileAt E fs q (a.files.length + j) x) ∧
      ∀ y, fs.find E q = some (.file y) → ∃ j x, b.tree.kind p = some (.file j) ∧
        ¬ a.tree.Blocked p ∧ a.tree.kind p ≠ some .dir ∧ b.files[j]? = some x ∧ y = some x ∧
        FileAt E fs q (a.files.length + j) x) := by
  subst hp
  have hfiles := files_merge h
  refine ⟨fun i hi => ?_, fun hno => ⟨fun j hj hb hd => ?_, fun y hy => ?_⟩⟩
  · obtain ⟨x, hx⟩ := exists_file hi
    refine ⟨x, hx, (hfs.fileAt_iff hq).2 ⟨(tree_merge_file_iff h).2 (Or.inl hi), ?_⟩⟩
    rw [hfiles, List.getElem?_append_left (lt_of_tree hi), hx]
  · obtain ⟨x, hx⟩ := exists_file hj
    refine ⟨x, hx, (hfs.fileAt_iff hq).2 ⟨(tree_merge_file_iff h).2 (Or.inr ?_), ?_⟩⟩
    · exact ⟨j, rfl, hj, free_iff.2 ⟨hb, hd⟩⟩
    · rw [hfiles, List.getElem?_append_right (Nat.le_add_right _ _), Nat.add_sub_cancel_left, hx]
  · obtain ⟨k, x, rfl, hat⟩ := hfs.exists_fileAt hq hy
    obtain ⟨hk, hx⟩ := (hfs.fileAt_iff hq).1 hat
    rcases (tree_merge_file_iff h).1 hk with hk | ⟨j, rfl, hj, hfree⟩
    · exact absurd hk (hno k)
    · obtain ⟨hb, hd⟩ := free_iff.1 hfree
      rw [hfiles, List.getElem?_append_right (Nat.le_add_right _ _), Nat.add_sub_cancel_left] at hx
      exact ⟨j, x, hj, hb, hd, hx, rfl, hat⟩

/-- The file `z` of the right object is the second file of the merged one. -/
theorem merge_files_apart : ∃ (a b c : RofsObject DefaultConfig ℕ) (fs : Rofs DefaultConfig ℕ),
    new [("x/y".toList, 5)] = some a ∧ new [("z".toList, 7)] = some b ∧ a.merge b = some c ∧
      c.IntoRofs Eytzinger.layout fs ∧ FileAt Eytzinger.layout fs "z".toList 1 7 := by
  obtain ⟨a, ha, hla, hsa⟩ := exists_one "x/y".toList 5 (by decide) (by decide)
  obtain ⟨b, hb, hlb, hsb⟩ := exists_one "z".toList 7 (by decide) (by decide)
  obtain ⟨c, hc⟩ := merge_isSome (a := a) (b := b) (by omega)
  obtain ⟨fs, hfs⟩ := exists_intoRofs_of_size Eytzinger.layout c (by
    have := size_merge hc
    omega)
  refine ⟨a, b, c, fs, ha, hb, hc, hfs, ?_⟩
  obtain ⟨-, hright⟩ := merge_files hc hfs (q := "z".toList) (p := [['z']]) (by decide) (by decide)
  have hsa : PathTree.survivors (entries DefaultConfig [("x/y".toList, 5)]) =
      [([['x'], ['y']], 0)] := by decide
  have hfile : ∀ (p : List Str) (i : ℕ), a.tree.kind p = some (.file i) → p = [['x'], ['y']] := by
    intro p i hi
    have hs := ((holds_new ha).file p i).1 hi
    rw [hsa, List.mem_singleton] at hs
    exact congrArg Prod.fst hs
  have hno : ∀ i, a.tree.kind [['z']] ≠ some (.file i) := by
    intro i hi
    have := hfile _ i hi
    revert this
    decide
  have hblocked : ¬ a.tree.Blocked [['z']] := by
    rintro ⟨r, i, hr, hi⟩
    have := hfile r i hi
    subst this
    revert hr
    decide
  have hdir : a.tree.kind [['z']] ≠ some .dir := by
    intro hd
    rcases ((holds_new ha).dir _).1 hd with h | ⟨s, hs, hps, -⟩
    · cases h
    · rw [hsa, List.mem_singleton] at hs
      subst hs
      revert hps
      decide
  obtain ⟨x, hx, hat⟩ := (hright hno).1 0 (((holds_new hb).file _ _).2 (by decide)) hblocked hdir
  obtain ⟨_, -, -, hfb⟩ := new_eq_some hb
  rw [hfb] at hx
  obtain rfl : (7 : ℕ) = x := by simpa using hx
  rwa [hla] at hat

end RofsObject

end Fsvfs
