/-
  Objects built by `RofsObject::new` and merges, and what `into_rofs` makes of
  them.

  Paths are put in lowercase after their `".."` are resolved and before they are
  split.  No name is `".."` unless a letter is a separator in lowercase only
  (`Built.no_dots`), and then there are paths that are filed under it
  (`filePath_dots`).

  * `intoRofs_represents`: the nodes of a built object represent its tree, and
    no name is `".."` unless a letter is a separator in lowercase only;
  * `not_no_dots`: an object with an entry of that name.
-/
import Fsvfs.Filesystem.Represents
import Fsvfs.Filesystem.Merge

namespace Fsvfs

open Lib

/-! ## Lowercasing and `".."` -/

section
variable {C : Config}

/-- No letter is a separator in lowercase only. -/
def Config.LowerClosed (C : Config) : Prop := ∀ x : Char, x.toLower ∈ C.separators → x ∈ C.separators

theorem Config.CaseClosed.lowerClosed (h : C.CaseClosed) : C.LowerClosed := fun x => (h x).1

theorem mem_intercalate {x : Char} : ∀ {cs : List Str}, x ∈ ['/'].intercalate cs →
    x = '/' ∨ ∃ c ∈ cs, x ∈ c
  | [], h => by cases h
  | [c], h => by
    rw [show ['/'].intercalate [c] = c by simp [List.intercalate]] at h
    exact Or.inr ⟨c, List.mem_cons_self, h⟩
  | c :: d :: cs, h => by
    have hj : ['/'].intercalate (c :: d :: cs) = c ++ '/' :: ['/'].intercalate (d :: cs) := by
      simp [List.intercalate]
    rw [hj, List.mem_append, List.mem_cons] at h
    rcases h with h | rfl | h
    · exact Or.inr ⟨c, List.mem_cons_self, h⟩
    · exact Or.inl rfl
    · rcases mem_intercalate h with hx | ⟨e, he, hx⟩
      · exact Or.inl hx
      · exact Or.inr ⟨e, List.mem_cons_of_mem c he, hx⟩

/-- Joined components are not `".."`. -/
theorem intercalate_ne_dots {cs : List Str} (h : ∀ c ∈ cs, c ≠ ['.', '.']) :
    ['/'].intercalate cs ≠ ['.', '.'] := by
  rcases cs with _ | ⟨c, _ | ⟨d, cs⟩⟩
  · simp [List.intercalate]
  · rw [show ['/'].intercalate [c] = c by simp [List.intercalate]]
    exact h c List.mem_cons_self
  · intro heq
    have hmem : '/' ∈ ['/'].intercalate (c :: d :: cs) := by simp [List.intercalate]
    rw [heq] at hmem
    revert hmem
    decide

/-- No piece of a normalised path is `".."`. -/
theorem dots_not_mem_normalizePath (path : Str) :
    ['.', '.'] ∉ splitPath C (normalizePath C path) := by
  unfold normalizePath
  split_ifs with h1 h2
  · intro hmem
    have := (mem_splitPath hmem).2.length_le
    revert this
    decide
  · rw [← resolved]
    by_cases hC : '/' ∈ C.separators
    · by_cases hr : resolved C path = []
      · rw [hr, show ['/'].intercalate ([] : List Str) = [] from rfl, splitPath_nil]
        decide
      · rw [splitPath_intercalate hC hr fun c hc => (isComponent_resolved hc).sep]
        exact fun hmem => (isComponent_resolved hmem).ne_dots rfl
    · -- nothing to split at
      rw [splitPath_of_forall fun x hx => ?_, List.mem_singleton]
      · exact (intercalate_ne_dots fun c hc => (isComponent_resolved hc).ne_dots).symm
      · rcases mem_intercalate hx with rfl | ⟨c, hc, hx⟩
        · exact hC
        · exact (isComponent_resolved hc).sep x hx
  · exact fun hmem => h2 (mem_splitPath hmem).2

/-- Pieces of a lowercased path without letters are pieces of the path. -/
theorem splitPath_of_lower (hC : C.LowerClosed) : ∀ path : Str, ∃ d ds e es,
    splitPath C path.lower = d :: ds ∧ splitPath C path = e :: es ∧
      ((∀ x ∈ d, x.isAlpha = false) → d = e) ∧
      ∀ c ∈ ds, (∀ x ∈ c, x.isAlpha = false) → c ∈ es
  | [] => ⟨[], [], [], [], splitPath_nil, splitPath_nil, fun _ => rfl, by simp⟩
  | x :: path => by
    obtain ⟨d, ds, e, es, hd, he, hhead, htail⟩ := splitPath_of_lower hC path
    by_cases hlow : x.toLower ∈ C.separators
    · refine ⟨[], d :: ds, [], e :: es, ?_, ?_, fun _ => rfl, ?_⟩
      · rw [Str.lower, List.map_cons, splitPath_cons_sep hlow, hd]
      · rw [splitPath_cons_sep (hC x hlow), he]
      · intro c hc halpha
        rcases List.mem_cons.1 hc with rfl | hc
        · rw [hhead halpha]
          exact List.mem_cons_self
        · exact List.mem_cons_of_mem e (htail c hc halpha)
    · have hl : splitPath C (Str.lower (x :: path)) = (x.toLower :: d) :: ds := by
        rw [Str.lower, List.map_cons, splitPath_cons hlow, hd]
        rfl
      by_cases hx : x ∈ C.separators
      · -- the path is split at an uppercase letter, its lowercase is not
        refine ⟨_, ds, [], e :: es, hl, by rw [splitPath_cons_sep hx, he], ?_, ?_⟩
        · intro halpha
          have hsame : x.toLower = x := ((toLower_eq_iff (halpha _ List.mem_cons_self)).1 rfl).symm
          rw [hsame] at hlow
          exact absurd hx hlow
        · intro c hc halpha
          exact List.mem_cons_of_mem e (htail c hc halpha)
      · refine ⟨_, ds, x :: e, es, hl, by rw [splitPath_cons hx, he]; rfl, ?_, htail⟩
        intro halpha
        rw [← (toLower_eq_iff (halpha _ List.mem_cons_self)).1 rfl,
          hhead fun y hy => halpha y (List.mem_cons_of_mem _ hy)]

/-- No component a file is filed under is `".."`, unless a letter is a separator
    in lowercase only. -/
theorem dots_not_mem_filePath (hC : '.' ∈ C.separators ∨ C.LowerClosed) (path : Str) :
    ['.', '.'] ∉ RofsObject.filePath C path := by
  rw [RofsObject.filePath_eq, components, List.mem_filter]
  rintro ⟨hmem, -⟩
  rcases hC with hdot | hlow
  · exact (mem_splitPath hmem).1 '.' List.mem_cons_self hdot
  · obtain ⟨d, ds, e, es, hd, he, hhead, htail⟩ := splitPath_of_lower hlow (normalizePath C path)
    have halpha : ∀ x ∈ ['.', '.'], x.isAlpha = false := by
      intro x hx
      obtain rfl | rfl := List.mem_pair.1 hx
      · rfl
      · rfl
    apply dots_not_mem_normalizePath (C := C) path
    rw [hd] at hmem
    rw [he]
    rcases List.mem_cons.1 hmem with rfl | hmem
    · rw [hhead halpha]
      exact List.mem_cons_self
    · exact List.mem_cons_of_mem e (htail _ hmem halpha)

/-- A path of one component that ends in `".."`. -/
theorem normalizePath_dots {x : Char} (hdot : '.' ∉ C.separators) (hx : x ∉ C.separators) :
    splitPath C ['.', x, '.', '.'] = [['.', x, '.', '.']] ∧
      normalizePath C ['.', x, '.', '.'] = ['.', x, '.', '.'] := by
  have hpieces : splitPath C ['.', x, '.', '.'] = [['.', x, '.', '.']] := by
    refine splitPath_of_forall fun y hy => ?_
    simp only [List.mem_cons, List.not_mem_nil, or_false] at hy
    rcases hy with rfl | rfl | rfl | rfl <;> assumption
  refine ⟨hpieces, ?_⟩
  rw [normalizePath, if_neg (by simp), if_neg (not_not.2 ⟨['.', x], [], rfl⟩), hpieces]
  simp [pushComponent, List.intercalate]

/-- If one is, a path is filed under `".."`. -/
theorem filePath_dots {x : Char} (hdot : '.' ∉ C.separators) (hx : x ∉ C.separators)
    (hlow : x.toLower ∈ C.separators) : RofsObject.filePath C ['.', x, '.', '.'] = [['.', '.']] := by
  have hdots : splitPath C ['.', '.'] = [['.', '.']] :=
    splitPath_of_forall fun y hy => by
      obtain rfl | rfl : y = '.' ∨ y = '.' := by simpa using hy
      · exact hdot
      · exact hdot
  rw [RofsObject.filePath_eq, (normalizePath_dots hdot hx).2, components]
  have hsplit : splitPath C (Str.lower ['.', x, '.', '.']) = [['.'], ['.', '.']] := by
    have hl : Str.lower ['.', x, '.', '.'] = ['.', x.toLower, '.', '.'] := rfl
    rw [hl, splitPath_cons hdot, splitPath_cons_sep hlow, hdots]
    rfl
  rw [hsplit]
  rfl

end

/-! ## Built objects -/

namespace RofsObject
variable {C : Config} {T : Type} {E : Eytzinger} {fs : Rofs C T} {obj : RofsObject C T} {n : ℕ}

/-- Objects built by `n` calls of `RofsObject::new` and any merges. -/
inductive Built : ℕ → RofsObject C T → Prop
  | default : Built 0 default
  | new {files obj} : new files = some obj → Built 1 obj
  | merge {m n a b c} : Built m a → Built n b → a.merge b = some c → Built (m + n) c

/-- With a call of `RofsObject::new`, there is a root. -/
theorem Built.exists_branch (h : Built n obj) (hn : 0 < n) : ∃ b, obj.branch = some b := by
  induction h with
  | default => exact absurd hn (Nat.lt_irrefl 0)
  | new h =>
    obtain ⟨b, -, hb, -⟩ := new_eq_some h
    exact ⟨b, hb⟩
  | @merge m n a b c _ _ h iha ihb =>
    rcases merge_eq_some h with ⟨ha, -, rfl⟩ | ⟨hb, -, rfl⟩ | ⟨ta, tb, -, -, -, hc, -⟩
    · -- the left object is the default, so it took no calls
      rcases Nat.eq_zero_or_pos m with rfl | hm
      · exact ihb (by omega)
      · obtain ⟨b', hb'⟩ := iha hm
        rw [ha] at hb'
        cases hb'
    · rcases Nat.eq_zero_or_pos n with rfl | hn'
      · exact iha (by omega)
      · obtain ⟨b', hb'⟩ := ihb hn'
        rw [hb] at hb'
        cases hb'
    · exact ⟨_, hc⟩

/-- No name of a built object is `".."`, unless a letter is a separator in
    lowercase only. -/
theorem Built.no_dots (h : Built n obj) (hC : '.' ∈ C.separators ∨ C.LowerClosed) :
    ∀ p, obj.tree.kind p ≠ none → ['.', '.'] ∉ p := by
  induction h with
  | default =>
    intro p hp
    exact absurd rfl hp
  | new h =>
    intro p hp hmem
    rcases prefix_of_new h (by rwa [view, ne_eq, PathTree.map_eq_none]) with rfl | ⟨s, hs, hps⟩
    · cases hmem
    · obtain ⟨hi, hs⟩ := List.mem_zipIdx' (PathTree.mem_survivors hs)
      have hin := hps.subset hmem
      rw [hs, List.getElem_map] at hin
      exact dots_not_mem_filePath hC _ hin
  | @merge m n a b c _ _ h iha ihb =>
    intro p hp
    rw [tree_merge h] at hp
    rcases a.tree.cases_kind p with ⟨k, hk⟩ | ⟨hn, hb⟩ | hf
    · exact iha p (by simp [hk])
    · exact absurd (PathTree.merge_of_blocked hn hb) hp
    · rw [PathTree.merge_of_free hf, ne_eq, PathTree.map_eq_none] at hp
      exact ihb p hp

/-- Nor is any name of a node. -/
theorem Built.nodeName_ne_dots (h : Built n obj) (hn : 0 < n) (hfs : obj.IntoRofs E fs)
    (hC : '.' ∈ C.separators ∨ C.LowerClosed) : ∀ node ∈ fs.nodes, fs.nodeName node ≠ ['.', '.'] := by
  obtain ⟨b, hb⟩ := h.exists_branch hn
  have hrep := hfs.represents hb
  intro node hnode hdots
  obtain ⟨k, hk⟩ := List.mem_iff_getElem?.1 hnode
  obtain ⟨p, hat, -⟩ := hrep.path k (List.getElem?_eq_some_iff.1 hk).1
  have hkind := hrep.kind k p node hat hk
  cases hat with
  | root =>
    obtain ⟨node₀, r, hnode₀, -, hname⟩ := hrep.root
    obtain rfl : node₀ = node := Option.some.inj (hnode₀.symm.trans hk)
    rw [hname] at hdots
    cases hdots
  | @child d _ p node' hat howns hk' =>
    obtain rfl : node = node' := Option.some.inj (hk.symm.trans hk')
    refine h.no_dots hC _ (by rw [hkind]; simp) ?_
    rw [hdots]
    exact List.mem_append_right _ List.mem_cons_self

/-- **The nodes of a built object represent its tree**, and no name is `".."`
    unless a letter is a separator in lowercase only. -/
theorem intoRofs_represents (h : Built n obj) (hn : 0 < n) (hfs : obj.IntoRofs E fs) :
    fs.Represents obj.tree ∧ ('.' ∈ C.separators ∨ C.LowerClosed →
      ∀ node ∈ fs.nodes, fs.nodeName node ≠ ['.', '.']) := by
  obtain ⟨b, hb⟩ := h.exists_branch hn
  exact ⟨hfs.represents hb, h.nodeName_ne_dots hn hfs⟩

/-- The filesystem of two merged objects. -/
theorem intoRofs_represents_merge : ∃ (a b c : RofsObject DefaultConfig ℕ) (fs : Rofs DefaultConfig ℕ),
    new [("x/Y".toList, 0)] = some a ∧ new [("x/z".toList, 1)] = some b ∧ a.merge b = some c ∧
      c.IntoRofs Eytzinger.layout fs ∧ fs.Represents c.tree ∧
      ∀ node ∈ fs.nodes, fs.nodeName node ≠ ['.', '.'] := by
  obtain ⟨a, ha, hla, hsa⟩ := exists_one "x/Y".toList 0 (by decide) (by decide)
  obtain ⟨b, hb, hlb, hsb⟩ := exists_one "x/z".toList 1 (by decide) (by decide)
  obtain ⟨c, hc⟩ := merge_isSome (a := a) (b := b) (by omega)
  obtain ⟨fs, hfs⟩ := exists_intoRofs_of_size Eytzinger.layout c (by
    have := size_merge hc
    omega)
  have hbuilt : Built 2 c := .merge (.new ha) (.new hb) hc
  have hlower := (Config.caseClosed_of_letterFree letterFree_defaultConfig).lowerClosed
  obtain ⟨hrep, hdots⟩ := intoRofs_represents hbuilt (by decide) hfs
  exact ⟨a, b, c, fs, ha, hb, hc, hfs, hrep, hdots (Or.inr hlower)⟩

/-- If a letter is a separator in lowercase only, an object has the name `".."`. -/
theorem exists_dots {x : Char} (hdot : '.' ∉ C.separators) (hx : x ∉ C.separators)
    (hlow : x.toLower ∈ C.separators) (a : T) : ∃ (obj : RofsObject C T) (fs : Rofs C T),
      Built 1 obj ∧ obj.IntoRofs E fs ∧ ∃ node ∈ fs.nodes, fs.nodeName node = ['.', '.'] := by
  have hpath := filePath_dots hdot hx hlow
  have hbytes : Str.bytes ['.', '.'] = [46, 46] := by decide
  obtain ⟨obj, fs, hnew, hfs⟩ := exists_intoRofs C E [(['.', x, '.', '.'], a)] (by simp)
    (by simp [filesSize, hpath, hbytes]) (by simp [hpath, hbytes])
  refine ⟨obj, fs, .new hnew, hfs, ?_⟩
  have hentries : entries C [(['.', x, '.', '.'], a)] = [([['.', '.']], 0)] := by
    simp [entries, hpath]
  have hkind : obj.tree.kind [['.', '.']] = some (.file 0) := by
    rw [(holds_new hnew).file, hentries]
    decide
  obtain ⟨b, -, hb, -⟩ := new_eq_some hnew
  have hrep := hfs.represents hb
  obtain ⟨node, r, hnode, hr, -⟩ := hrep.root
  obtain ⟨k, child, -, hk, hname⟩ := (hrep.children 0 [] node r .root hnode hr ['.', '.']).1 (by
    rw [List.nil_append, hkind]
    simp)
  exact ⟨child, List.mem_of_getElem? hk, hname⟩

/-- With the separators `'/'` and `'a'`, the path `".A.."` is filed as `".."`. -/
theorem not_no_dots : ∃ (C : Config) (obj : RofsObject C ℕ) (fs : Rofs C ℕ), Built 1 obj ∧
    obj.IntoRofs Eytzinger.layout fs ∧ ∃ node ∈ fs.nodes, fs.nodeName node = ['.', '.'] :=
  ⟨{ separators := ['/', 'a'] }, exists_dots (x := 'A') (by decide) (by decide) (by decide) 0⟩

end RofsObject

end Fsvfs
