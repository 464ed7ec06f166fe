/-
  Building a filesystem from a list of paths.

  * `new_isSome`, `into_rofs_isSome`: building panics only on a name that is
    too long or if the paths do not fit in a `u32`;
  * `size_le_survivors`: the paths that count are those of the survivors;
  * `lookup_new`: lookup in a built filesystem is lookup in the reference map,
    the normal forms of the surviving paths, if no ASCII letter is a separator
    in one case only;
  * `not_lookup_new`: otherwise it is not, since paths are put in lowercase
    before they are split.
-/
import Fsvfs.Filesystem.Lookup

namespace Fsvfs

open Lib

/-! ## Totality -/

/-- The bytes of the components of a path, with their length bytes. -/
def pathSize (components : List Str) : ℕ := (components.map fun c => c.bytes.length + 1).sum

@[simp] theorem pathSize_nil : pathSize [] = 0 := rfl

@[simp] theorem pathSize_cons {c : Str} {cs : List Str} :
    pathSize (c :: cs) = c.bytes.length + 1 + pathSize cs := by simp [pathSize]

namespace Branch

theorem size_push_leaf {b : Branch} {c : Str} {i : ℕ} :
    (b.push c (.leaf i)).size = b.size + (c.bytes.length + 1) := by
  induction b with
  | nil => simp [push, size]
  | leaf name j rest ih => simp only [push, size, ih]; omega
  | branch name s rest _ ih => simp only [push, size, ih]; omega

theorem size_push_branch {b sub : Branch} {c : Str} :
    (b.push c (.branch sub)).size = b.size + (c.bytes.length + 1) + sub.size := by
  induction b with
  | nil => simp [push, size]
  | leaf name j rest ih => simp only [push, size, ih]; omega
  | branch name s rest _ ih => simp only [push, size, ih]; omega

theorem size_set {b next : Branch} {c : Str} (sub : Branch) (h : b.get c = some (.branch next)) :
    (b.set c (.branch sub)).size + next.size = b.size + sub.size := by
  induction b with
  | nil => cases h
  | leaf name j rest ih =>
    by_cases hc : name = c
    · simp [get, hc] at h
    · simp only [get, hc, if_false] at h
      have := ih h
      simp only [set, hc, if_false, size]; omega
  | branch name s rest _ ih =>
    by_cases hc : name = c
    · simp only [get, hc, if_true, Option.some.injEq, TreeNode.branch.injEq] at h
      subst h
      simp only [set, hc, if_true, size]; omega
    · simp only [get, hc, if_false] at h
      have := ih h
      simp only [set, hc, if_false, size]; omega

/-- Inserting a path adds at most its names, and panics only on a long one. -/
theorem insertPath_isSome : ∀ {components : List Str} {i : ℕ} {b : Branch},
    (∀ c ∈ components, c.bytes.length ≤ 255) →
      ∃ b', b.insertPath components i = some b' ∧ b'.size ≤ b.size + pathSize components
  | [], _, b, _ => ⟨b, rfl, by omega⟩
  | c :: rest, i, b, h => by
    obtain ⟨hc, hrest⟩ := List.forall_mem_cons.1 h
    rw [insertPath, if_neg (by omega), pathSize_cons]
    rcases hg : b.get c with _ | next | j
    · simp only
      split_ifs with hr
      · exact ⟨_, rfl, by rw [size_push_leaf]; omega⟩
      · obtain ⟨sub, hsub, hsize⟩ := insertPath_isSome (i := i) (b := nil) hrest
        refine ⟨_, by rw [hsub]; rfl, ?_⟩
        rw [size_push_branch]
        rw [size] at hsize; omega
    · obtain ⟨sub, hsub, hsize⟩ := insertPath_isSome (i := i) (b := next) hrest
      refine ⟨_, by simp only [hsub]; rfl, ?_⟩
      have := size_set sub hg
      dsimp only
      omega
    · exact ⟨b, rfl, by omega⟩

theorem insertPaths_isSome : ∀ {l : List (List Str × ℕ)} {b : Branch},
    (∀ p ∈ l, ∀ c ∈ p.1, c.bytes.length ≤ 255) →
      ∃ b', b.insertPaths l = some b' ∧ b'.size ≤ b.size + (l.map fun p => pathSize p.1).sum
  | [], b, _ => ⟨b, rfl, by simp⟩
  | (components, i) :: l, b, h => by
    obtain ⟨hc, hl⟩ := List.forall_mem_cons.1 h
    obtain ⟨b₁, h1, hs1⟩ := insertPath_isSome (i := i) (b := b) hc
    obtain ⟨b₂, h2, hs2⟩ := insertPaths_isSome (b := b₁) hl
    refine ⟨b₂, by rw [insertPaths, h1]; exact h2, ?_⟩
    rw [List.map_cons, List.sum_cons]
    dsimp only at hs1 ⊢
    omega

/-- A path that something is in the way of adds no names. -/
theorem size_insertPath_of_not_free : ∀ {components : List Str} {i : ℕ} {b b' : Branch},
    b.insertPath components i = some b' → ¬ b.tree.Free components → b'.size = b.size
  | [], _, _, _, h, _ => by cases h; rfl
  | c :: rest, i, b, b', h, hfree => by
    by_cases hlen : 255 < c.bytes.length
    · simp [insertPath, hlen] at h
    rw [insertPath, if_neg hlen] at h
    rw [free_cons] at hfree
    rcases hg : b.get c with _ | next | j
    · rw [hg] at hfree
      exact absurd trivial hfree
    · simp only [hg] at h hfree
      obtain ⟨sub, hsub, rfl⟩ := Option.map_eq_some_iff.1 h
      have hsame := size_insertPath_of_not_free hsub hfree
      have hset := size_set sub hg
      omega
    · simp only [hg] at h
      cases h
      rfl

/-- **Only the survivors add names.** -/
theorem size_insertPaths : ∀ {l : List (List Str × ℕ)} {b b' : Branch} {kept : List (List Str × ℕ)},
    b.tree.Holds kept → (∀ p ∈ l, ∀ c ∈ p.1, c.bytes.length ≤ 255) → b.insertPaths l = some b' →
      b.size ≤ (kept.map fun s => pathSize s.1).sum →
        b'.size ≤ ((l.foldl PathTree.survive kept).map fun s => pathSize s.1).sum
  | [], _, _, _, _, _, h, hle => by cases h; exact hle
  | (components, i) :: l, b, b', kept, hholds, hlen, h, hle => by
    obtain ⟨hc, hl⟩ := List.forall_mem_cons.1 hlen
    obtain ⟨b₁, h₁, h₂⟩ := Option.bind_eq_some_iff.1 h
    have hnext := hholds.insert (components, i)
    rw [← tree_insertPath h₁] at hnext
    rw [List.foldl_cons]
    refine size_insertPaths hnext hl h₂ ?_
    by_cases hfree : b.tree.Free components
    · obtain ⟨b₂, hb₂, hsize⟩ := insertPath_isSome (i := i) (b := b) hc
      cases h₁.symm.trans hb₂
      rw [PathTree.survive, if_pos ((hholds.free_iff _).1 hfree), List.map_append, List.sum_append]
      dsimp only at hsize
      simp only [List.map_cons, List.map_nil, List.sum_singleton]
      omega
    · rw [size_insertPath_of_not_free h₁ hfree, PathTree.survive,
        if_neg fun hs => hfree ((hholds.free_iff _).2 hs)]
      exact hle

end Branch

namespace RofsObject
variable {C : Config} {T : Type} {E : Eytzinger}

/-- The bytes of the names `RofsObject::new` files, with their length bytes. -/
def filesSize (C : Config) (files : List (Str × T)) : ℕ :=
  (files.map fun f => pathSize (filePath C f.1)).sum

theorem length_bytes_entries {files : List (Str × T)} (h : ∀ f ∈ files, ∀ c ∈ filePath C f.1, c.bytes.length ≤ 255) :
    ∀ p ∈ entries C files, ∀ c ∈ p.1, c.bytes.length ≤ 255 := by
  intro p hp
  obtain ⟨hi, hp⟩ := List.mem_zipIdx' hp
  rw [List.getElem_map] at hp
  rw [hp]
  exact h _ (List.getElem_mem _)

/-- **`RofsObject::new` panics only on long names or too many files.** -/
theorem new_isSome (files : List (Str × T)) (hlen : files.length < 2 ^ 32)
    (h : ∀ f ∈ files, ∀ c ∈ filePath C f.1, c.bytes.length ≤ 255) :
    ∃ obj b, (new files : Option (RofsObject C T)) = some obj ∧ obj.branch = some b ∧
      b.size ≤ filesSize C files := by
  have hents : ∀ p ∈ entries C files, ∀ c ∈ p.1, c.bytes.length ≤ 255 := length_bytes_entries h
  have hsum : ((entries C files).map fun p => pathSize p.1).sum = filesSize C files := by
    rw [filesSize, entries, show (fun p : List Str × ℕ => pathSize p.1) = pathSize ∘ Prod.fst from rfl,
      ← List.map_map, List.zipIdx_map_fst, List.map_map]
    rfl
  obtain ⟨b, hb, hsize⟩ := Branch.insertPaths_isSome (b := .nil) hents
  have hnew : ∃ obj, (new files : Option (RofsObject C T)) = some obj := by
    unfold new
    simp only [hlen, dite_true]
    split
    · rename_i hnone
      rw [show (files.map fun f => filePath C f.1).zipIdx = entries C files from rfl, hb] at hnone
      cases hnone
    · exact ⟨_, rfl⟩
  obtain ⟨obj, hobj⟩ := hnew
  obtain ⟨b', hb', hbr, -⟩ := new_eq_some hobj
  rw [hb] at hb'
  cases hb'
  exact ⟨obj, b, hobj, hbr, by rw [← hsum]; simpa [Branch.size] using hsize⟩

/-- **`into_rofs` panics only if the names do not fit in a `u32`.** -/
theorem into_rofs_isSome {obj : RofsObject C T} {b root : Branch} (hb : obj.branch = some b)
    (h : b.size + 1 < 2 ^ 32) (hroot : obj.root.Reorder root) :
    ∃ fs : Rofs C T, intoRofs E root obj.files = some fs := by
  rcases obj.cases_root with ⟨-, -, hn⟩ | ⟨b', hr, hb', -⟩
  · rw [hn] at hb; cases hb
  · rw [hb] at hb'
    cases hb'
    obtain ⟨s, rfl, hs⟩ := hroot.root hr
    exact Option.isSome_iff_exists.1 (intoRofs_isSome (by rw [hs.size]; exact h))

/-- The bytes of the names of an object, with their length bytes. -/
def size (obj : RofsObject C T) : ℕ := match obj.branch with
  | some b => b.size
  | none => 0

theorem size_of_branch {obj : RofsObject C T} {b : Branch} (h : obj.branch = some b) :
    obj.size = b.size := by simp [size, h]

/-- An object whose names fit in a `u32` is flattened. -/
theorem exists_intoRofs_of_size (E : Eytzinger) (obj : RofsObject C T)
    (h : obj.size + 1 < 2 ^ 32) : ∃ fs : Rofs C T, obj.IntoRofs E fs := by
  rcases obj.cases_root with ⟨hr, -, -⟩ | ⟨b, -, hb, -⟩
  · exact ⟨_, .nil, by rw [hr]; exact .nil, intoRofs_nil⟩
  · rw [size_of_branch hb] at h
    obtain ⟨fs, hfs⟩ := into_rofs_isSome (E := E) hb h (.refl _)
    exact ⟨fs, obj.root, .refl _, hfs⟩

/-- An object has no more names than the paths that survive. -/
theorem size_le_survivors {files : List (Str × T)} {obj : RofsObject C T} (hnew : new files = some obj)
    (h : ∀ f ∈ files, ∀ c ∈ filePath C f.1, c.bytes.length ≤ 255) :
    obj.size ≤ ((PathTree.survivors (entries C files)).map fun s => pathSize s.1).sum := by
  obtain ⟨b, hb, hbranch, -⟩ := new_eq_some hnew
  have hroot : Branch.nil.tree.Holds [] := Branch.tree_nil ▸ PathTree.holds_root
  rw [size_of_branch hbranch]
  exact Branch.size_insertPaths hroot (length_bytes_entries h) hb (Nat.le_refl 0)

/-- Short lists of short paths are built and flattened. -/
theorem exists_intoRofs (C : Config) (E : Eytzinger) (files : List (Str × T))
    (hlen : files.length < 2 ^ 32) (hsize : filesSize C files + 1 < 2 ^ 32)
    (h : ∀ f ∈ files, ∀ c ∈ filePath C f.1, c.bytes.length ≤ 255) :
    ∃ (obj : RofsObject C T) (fs : Rofs C T), new files = some obj ∧ obj.IntoRofs E fs := by
  obtain ⟨obj, b, hobj, hb, hle⟩ := new_isSome (C := C) files hlen h
  obtain ⟨fs, hfs⟩ := exists_intoRofs_of_size E obj (by rw [size_of_branch hb]; omega)
  exact ⟨obj, fs, hobj, hfs⟩

/-! ## The reference map -/

/-- The reference map: the normal forms of the surviving paths, with the
    indices of their files. -/
def survivors (C : Config) (files : List (Str × T)) : List (List Str × ℕ) :=
  PathTree.survivors ((files.map fun f => norm C f.1).zipIdx)

theorem filePath_eq_norm (hC : '/' ∈ C.separators) (hl : C.CaseClosed) (path : Str) :
    filePath C path = norm C path := by
  rw [filePath_eq, components_lower_normalizePath hC hl]

theorem survivors_eq (hC : '/' ∈ C.separators) (hl : C.CaseClosed) (files : List (Str × T)) :
    PathTree.survivors (entries C files) = survivors C files := by
  simp only [survivors, entries, filePath_eq_norm hC hl]

/-- Everything in a built tree is in lowercase. -/
theorem lower_of_kindAt {n : ℕ} : ∀ {p : List Str} {b : Branch}, b.Wf C n →
    b.kindAt p ≠ none → p.map Str.lower = p
  | [], _, _, _ => rfl
  | c :: p, b, hb, h => by
    rw [Branch.kindAt_cons] at h
    rcases hg : b.get c with _ | s | i
    · simp [hg] at h
    · simp only [hg] at h
      have hw := hb.get hg
      rw [List.map_cons, lower_of_kindAt hw.2.2 h, hw.1.lower]
    · simp only [hg, ne_eq, ite_eq_right_iff, reduceCtorEq, imp_false, not_not] at h
      rw [h, List.map_cons, (hb.get hg).1.lower]; rfl

/-- If no letter is a separator in one case only, lookup asks for the normal
    form. -/
theorem query_eq (hC : '/' ∈ C.separators) (hl : C.CaseClosed) {n : ℕ} {b : Branch}
    (hb : b.Wf C n) (path : Str) :
    Rofs.query b C (normalizePath C path) = b.kindAt (norm C path) := by
  rw [Rofs.query, components_lower_normalizePath hC hl]
  by_cases h : b.kindAt (components C (normalizePath C path)) = none
  · rw [h, Option.none_or]
  · have hlow : norm C path = components C (normalizePath C path) := by
      rw [← components_lower_normalizePath hC hl, components_lower hl, lower_of_kindAt hb h]
    rw [hlow, Option.or_self]

section
variable (hC : '/' ∈ C.separators) (hl : C.CaseClosed) {files : List (Str × T)} {obj : RofsObject C T}
  {fs : Rofs C T} (hnew : new files = some obj) (hfs : obj.IntoRofs E fs)
include hC hl hnew

/-- An object has the reference map. -/
theorem holds_survivors : obj.tree.Holds (survivors C files) := by
  have hholds := holds_new hnew
  rwa [survivors_eq hC hl] at hholds

include hfs

/-- Lookup goes by the normal form. -/
theorem lookup_norm (q : Str) : (fs.locate E q).map Node.kind = obj.tree.kind (norm C q) ∧
    (fs.lookup E q = .error .notFound ↔ obj.tree.kind (norm C q) = none) := by
  obtain ⟨b, -, hb, -⟩ := new_eq_some hnew
  obtain ⟨-, hfl⟩ := hfs.flattened
  rw [hb] at hfl
  have hwf : b.Wf C obj.files.length := by
    rcases obj.cases_root with ⟨-, -, hn⟩ | ⟨b', -, hb', hw⟩
    · rw [hn] at hb; cases hb
    · rw [hb] at hb'; cases hb'; exact hw
  have hspec := hfl.lookup_spec q
  rw [query_eq hC hl hwf] at hspec
  rw [tree_of_branch hb, Branch.kind_tree]
  rcases hspec with ⟨_, node, hlookup, hlocate, hkind⟩ | ⟨hlookup, hlocate, hkind⟩
  · rw [hlookup, hlocate, hkind]
    exact ⟨rfl, iff_of_false nofun nofun⟩
  · rw [hlookup, hlocate, hkind]
    exact ⟨rfl, iff_of_true rfl rfl⟩

/-- A path leads to a file exactly if it is that of a survivor. -/
theorem locate_file_iff (q : Str) (i : ℕ) :
    (fs.locate E q).map Node.kind = some (.file i) ↔ (norm C q, i) ∈ survivors C files := by
  rw [(lookup_norm hC hl hnew hfs q).1]
  exact (holds_survivors hC hl hnew).file _ _

end

/-- **Lookup in a built filesystem is lookup in the reference map**, if no ASCII
    letter is a separator in one case only; building panics if there are too many
    files, and otherwise only if names are too long or do not fit in a `u32`. -/
theorem lookup_new (hC : '/' ∈ C.separators) (hl : C.CaseClosed) (files : List (Str × T)) :
    (2 ^ 32 ≤ files.length → (new files : Option (RofsObject C T)) = none) ∧
    (files.length < 2 ^ 32 → (∀ f ∈ files, ∀ c ∈ norm C f.1, c.bytes.length ≤ 255) →
      ∃ obj, (new files : Option (RofsObject C T)) = some obj ∧
        obj.size ≤ ((survivors C files).map fun s => pathSize s.1).sum ∧
        (obj.size + 1 < 2 ^ 32 →
          ∀ root, obj.root.Reorder root → ∃ fs : Rofs C T, intoRofs E root obj.files = some fs)) ∧
    ∀ (obj : RofsObject C T) (fs : Rofs C T), new files = some obj → obj.IntoRofs E fs → ∀ q,
      (∀ i, (fs.locate E q).map Node.kind = some (.file i) ↔ (norm C q, i) ∈ survivors C files) ∧
      (∀ i, (norm C q, i) ∈ survivors C files →
        fs.find E q = some (.file (files[i]?.map Prod.snd))) ∧
      ((fs.locate E q).map Node.kind = some .dir ↔
        norm C q = [] ∨ ∃ s ∈ survivors C files, norm C q <+: s.1 ∧ norm C q ≠ s.1) ∧
      (fs.lookup E q = .error .notFound ↔
        norm C q ≠ [] ∧ ∀ s ∈ survivors C files, ¬ norm C q <+: s.1) := by
  refine ⟨fun hlen => ?_, fun hlen h => ?_, fun obj fs hnew hfs q => ?_⟩
  · rw [new, dif_neg (Nat.not_lt.2 hlen)]
  · simp only [← filePath_eq_norm hC hl] at h
    obtain ⟨obj, b, hobj, hb, -⟩ := new_isSome (C := C) files hlen h
    have hsize := size_le_survivors hobj h
    rw [survivors_eq hC hl] at hsize
    refine ⟨obj, hobj, hsize, fun hfits root hroot => ?_⟩
    rw [size_of_branch hb] at hfits
    exact into_rofs_isSome hb hfits hroot
  · obtain ⟨hloc, hnone⟩ := lookup_norm hC hl hnew hfs q
    have hholds := holds_survivors hC hl hnew
    have hdir := hholds.dir (norm C q)
    refine ⟨locate_file_iff hC hl hnew hfs q, fun i hi => ?_, by rw [hloc]; exact hdir, ?_⟩
    · obtain ⟨-, -, -, hof⟩ := new_eq_some hnew
      obtain ⟨node, hn, hk⟩ := Option.map_eq_some_iff.1 ((locate_file_iff hC hl hnew hfs q i).2 hi)
      rw [Rofs.find_eq_locate, hn, hfs.flattened.1, hof, Option.map_some, hk]
      simp [Kind.map]
    · rw [hnone]
      constructor
      · intro h
        refine ⟨fun hq => ?_, fun s hs hp => ?_⟩
        · rw [hdir.2 (Or.inl hq)] at h; cases h
        · by_cases hne : norm C q = s.1
          · rw [(hholds.file _ s.2).2 (by rw [hne]; exact hs)] at h; cases h
          · rw [hdir.2 (Or.inr ⟨s, hs, hp, hne⟩)] at h; cases h
      · rintro ⟨hq, hs⟩
        rcases hk : obj.tree.kind (norm C q) with _ | _ | i
        · rfl
        · rcases hdir.1 hk with h | ⟨s, hmem, hp, -⟩
          · exact absurd h hq
          · exact absurd hp (hs s hmem)
        · exact absurd List.prefix_rfl (hs _ ((hholds.file _ i).1 hk))

theorem caseClosed_dvdbndConfig : DvdbndConfig.CaseClosed :=
  Config.caseClosed_of_letterFree letterFree_dvdbndConfig

/-- A path is found under another spelling; of two files of one path the first one
    is kept, and there is nothing below it. -/
theorem lookup_new_dvdbnd : ∃ (obj : RofsObject DvdbndConfig ℕ) (fs : Rofs DvdbndConfig ℕ),
    new [("/Map\\m10.bhd".toList, 7), ("map/M10.bhd".toList, 8), ("map/m10.bhd/x".toList, 9),
      ("map/b".toList, 10)] = some obj ∧ obj.IntoRofs Eytzinger.layout fs ∧
      fs.find Eytzinger.layout "map/./x/../M10.BHD".toList = some (.file (some 7)) ∧
      fs.find Eytzinger.layout "MAP\\b".toList = some (.file (some 10)) ∧
      (fs.locate Eytzinger.layout "map//".toList).map Node.kind = some .dir ∧
      fs.lookup Eytzinger.layout "map/m10.bhd/x".toList = .error .notFound := by
  obtain ⟨-, h1, h2⟩ := lookup_new (C := DvdbndConfig) (E := Eytzinger.layout) (by decide)
    caseClosed_dvdbndConfig [("/Map\\m10.bhd".toList, 7), ("map/M10.bhd".toList, 8), ("map/m10.bhd/x".toList, 9),
      ("map/b".toList, 10)]
  obtain ⟨obj, hobj, hsize, htotal⟩ := h1 (by decide) (by decide)
  have hfits : obj.size + 1 < 2 ^ 32 := Nat.lt_of_le_of_lt (Nat.succ_le_succ hsize) (by decide)
  obtain ⟨fs, hfs⟩ := htotal hfits obj.root (.refl _)
  have hfs' : obj.IntoRofs Eytzinger.layout fs := ⟨obj.root, .refl _, hfs⟩
  have hspec := h2 obj fs hobj hfs'
  exact ⟨obj, fs, hobj, hfs', (hspec _).2.1 0 (by decide), (hspec _).2.1 3 (by decide),
    (hspec _).2.2.1.2 (.inr (by decide)), (hspec _).2.2.2.2 (by decide)⟩

/-- With the separators `'/'` and `'A'`, the path `"xAy"` is filed as `"xay"`,
    although its normal form is `["x", "y"]`. -/
theorem not_lookup_new : ¬ ∀ (C : Config) (files : List (Str × ℕ)) (obj : RofsObject C ℕ)
    (fs : Rofs C ℕ) (q : Str), '/' ∈ C.separators →
      (∀ f ∈ files, ∀ c ∈ norm C f.1, c.bytes.length ≤ 255) → new files = some obj →
      obj.IntoRofs Eytzinger.layout fs → ∀ i,
        ((fs.locate Eytzinger.layout q).map Node.kind = some (.file i) ↔
          (norm C q, i) ∈ survivors C files) := by
  intro h
  set C : Config := { separators := ['/', 'A'] } with hC
  set files : List (Str × ℕ) := [("xAy".toList, 0)] with hfiles
  obtain ⟨obj, fs, hobj, hfs'⟩ := exists_intoRofs C Eytzinger.layout files
    (by decide) (by decide) (by decide)
  have hloc := (h C files obj fs "x/y".toList (by decide) (by decide) hobj hfs' 0).2 (by decide)
  have hfind := hfs'.find_eq "x/y".toList
  obtain ⟨node, hn, hk⟩ := Option.map_eq_some_iff.1 hloc
  have hq : components C (normalizePath C "x/y".toList) = [['x'], ['y']] := by decide
  have hq' : components C (normalizePath C "x/y".toList).lower = [['x'], ['y']] := by decide
  rw [Rofs.find_eq_locate, hn, Option.map_some, hk, Kind.map, queryTree, hq, hq',
    Option.or_self] at hfind
  obtain ⟨i, hi, -⟩ := view_file_iff.1 hfind.symm
  -- the only survivor is `["xay"]`
  have hmem := ((holds_new hobj).file _ _).1 hi
  have hsurv : PathTree.survivors (entries C files) = [(["xay".toList], 0)] := by decide
  rw [hsurv] at hmem
  simp at hmem

end RofsObject

end Fsvfs
