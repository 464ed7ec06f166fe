/-
  Looking up the components of a path one by one.

  * `lookupInDir_eq_ok`: a path leads to what its normal form does, if no separator
    is an ASCII letter in one case only;
  * `foldlM_lookupInDir`: looking up some pieces one after the other is looking up
    the pieces joined with a separator, unless one of them has `".."`.
-/
import Fsvfs.Filesystem.Listing
import Fsvfs.Filesystem.Reaches

namespace Fsvfs

open Lib

/-! ## Joined paths -/

section
variable {C : Config}

/-- Joined pieces are split at the separator. -/
theorem splitPath_append {x : Char} (hx : x ∈ C.separators) (a b : Str) :
    splitPath C (a ++ x :: b) = splitPath C a ++ splitPath C b := by
  induction a with
  | nil => rw [List.nil_append, splitPath_cons_sep hx, splitPath_nil, List.singleton_append]
  | cons y a ih =>
    by_cases hy : y ∈ C.separators
    · rw [List.cons_append, splitPath_cons_sep hy, splitPath_cons_sep hy, ih, List.cons_append]
    · obtain ⟨d, ds, hd, -⟩ := splitPath_eq_cons C a
      rw [List.cons_append, splitPath_cons hy, splitPath_cons hy, ih, hd]
      rfl

/-- Without `".."`, the normal form has the pieces that are not `""` or `"."`. -/
theorem norm_eq {path : Str} (h : ['.', '.'] ∉ splitPath C path) : norm C path =
    ((splitPath C path).filter fun c => decide (c ≠ [] ∧ c ≠ ['.'])).map Str.lower := by
  rw [norm, resolved, foldl_pushComponent [] fun c hc heq => h (heq ▸ hc), List.nil_append]

theorem splitPath_intercalate_flatMap {x : Char} (hx : x ∈ C.separators) {cs : List Str} (hcs : cs ≠ []) :
    splitPath C ([x].intercalate cs) = cs.flatMap (splitPath C) := by
  induction cs with
  | nil => exact absurd rfl hcs
  | cons c cs ih =>
    rcases cs with _ | ⟨d, cs⟩
    · simp [List.intercalate]
    · have hjoin : [x].intercalate (c :: d :: cs) = c ++ x :: [x].intercalate (d :: cs) := by
        simp [List.intercalate]
      rw [hjoin, splitPath_append hx, ih (List.cons_ne_nil _ _)]
      rfl

/-- **The normal form of joined pieces.** -/
theorem norm_intercalate {x : Char} (hx : x ∈ C.separators) {cs : List Str}
    (h : ∀ c ∈ cs, ['.', '.'] ∉ splitPath C c) : norm C ([x].intercalate cs) = cs.flatMap (norm C) := by
  rcases eq_or_ne cs [] with rfl | hcs
  · rw [norm_eq (by simp [List.intercalate, splitPath_nil])]
    simp [List.intercalate, splitPath_nil]
  · have hsplit := splitPath_intercalate_flatMap hx hcs
    rw [norm_eq (by rw [hsplit]; simpa using h), hsplit]
    clear hsplit hcs
    induction cs with
    | nil => rfl
    | cons c cs ih =>
      obtain ⟨hc, hcs⟩ := List.forall_mem_cons.1 h
      rw [List.flatMap_cons, List.flatMap_cons, List.filter_append, List.map_append, norm_eq hc, ih hcs]

end

/-! ## Where a path leads -/

namespace Rofs
variable {C : Config} {T : Type} {E : Eytzinger} {fs : Rofs C T}

theorem reaches_append {cs ds : List Str} {i j : ℕ} :
    fs.Reaches i (cs ++ ds) j ↔ ∃ k, fs.Reaches i cs k ∧ fs.Reaches k ds j := by
  induction cs generalizing i with
  | nil =>
    constructor
    · exact fun h => ⟨i, .refl, h⟩
    · rintro ⟨k, hk, h⟩
      cases hk
      exact h
  | cons c cs ih =>
    constructor
    · intro h
      cases h with
      | step howns hchild hrest =>
        obtain ⟨k, hk, h⟩ := ih.1 hrest
        exact ⟨k, .step howns hchild hk, h⟩
    · rintro ⟨k, hk, h⟩
      cases hk with
      | step howns hchild hrest => exact .step howns hchild (ih.2 ⟨k, hrest, h⟩)

/-- What is found at a path that leads to a file. -/
theorem exists_of_find {path : Str} {data : Option T} (h : fs.find E path = some (.file data)) :
    ∃ inode e, fs.lookup E path = .ok inode ∧ fs.entry inode = .ok e ∧ e.kind = .file data := by
  rw [find] at h
  rcases hlookup : fs.lookup E path with _ | inode
  · rw [hlookup] at h
    cases h
  · rw [hlookup] at h
    dsimp only at h
    rcases he : fs.entry inode with _ | e
    · rw [he] at h
      cases h
    · rw [he] at h
      dsimp only at h
      rcases hkind : e.kind with ⟨start, stop⟩ | data'
      · rw [hkind] at h
        cases h
      · rw [hkind] at h
        cases h
        exact ⟨inode, e, rfl, he, hkind⟩

theorem lookupInDir_error {p : UInt64} {path : Str} {e : RofsError} (h : fs.lookupInDir E p path = .error e) :
    e = .notFound := by
  rw [lookupInDir] at h
  split at h
  · cases h
  · cases h
    rfl

theorem foldlM_lookupInDir_error {p : UInt64} {cs : List Str} {e : RofsError}
    (h : cs.foldlM (fs.lookupInDir E) p = .error e) : e = .notFound := by
  induction cs generalizing p with
  | nil => cases h
  | cons c cs ih =>
    rw [List.foldlM_cons] at h
    rcases hc : fs.lookupInDir E p c with e' | next
    · rw [hc] at h
      cases h
      exact lookupInDir_error hc
    · rw [hc] at h
      exact ih h

end Rofs

namespace RofsObject.IntoRofs
variable {C : Config} {T : Type} {E : Eytzinger} {obj : RofsObject C T} {fs : Rofs C T}

/-- **A path leads to what its normal form does**, if no letter is a separator in one
    case only. -/
theorem find_eq_norm (hC : '/' ∈ C.separators) (hl : C.CaseClosed) (h : obj.IntoRofs E fs) (path : Str) :
    fs.find E path = obj.view.kind (norm C path) := by
  have htree : queryTree obj.tree C path = obj.tree.kind (norm C path) := by
    rcases obj.cases_root with ⟨-, -, hb⟩ | ⟨b, -, hb, hw⟩
    · rw [tree_of_none hb]
      rfl
    · rw [tree_of_branch hb]
      exact query_eq hC hl hw path
  rw [Rofs.find_eq_locate, view, PathTree.kind_map, ← htree, ← h.locate_eq, h.flattened.1, Option.map_map]
  rfl

/-- Names are in lowercase. -/
theorem lower_of_reaches (h : obj.IntoRofs E fs) {i j : ℕ} {cs : List Str} (hreach : fs.Reaches i cs j) :
    cs.map Str.lower = cs := by
  induction hreach with
  | refl => rfl
  | @step _ k _ child _ howns hchild _ ih =>
    rcases hb : obj.branch with _ | b
    · rw [h.flattened.2.of_none hb] at hchild
      cases hchild
    · obtain ⟨name, hat, hname⟩ := h.child_named hb howns hchild
      rw [List.map_cons, ih, Rofs.nodeName_of_nameAt hat, hname.lower]

/-- What is found in a directory that exists, exists. -/
theorem exists_entry_of_lookupInDir (h : obj.IntoRofs E fs) {p inode : UInt64} {path : Str}
    (hp : ∃ e, fs.entry p = .ok e) (hlookup : fs.lookupInDir E p path = .ok inode) : ∃ e, fs.entry inode = .ok e := by
  have h32 := h.flattened.2.length_lt
  have hlt := Rofs.entry_eq_ok_iff.1 hp
  obtain ⟨j, hj, rfl⟩ := h.lookupInDir_eq_ok_iff.1 hlookup
  rw [Nat.mod_eq_of_lt (hlt.trans h32)] at hj
  obtain ⟨cs, hcs⟩ := hj.reaches
  have hjlt := hcs.lt hlt
  rw [Rofs.entry_eq_ok_iff, UInt64.add_sub_cancel, UInt64.toNat_ofNat']
  omega

/-- The file of every entry exists. -/
theorem entry_not_missing (h : obj.IntoRofs E fs) {inode : UInt64} {entry : Entry T}
    (hentry : fs.entry inode = .ok entry) : entry.missing = false := by
  obtain ⟨node, hnode, rfl⟩ := Rofs.entry_eq_ok.1 hentry
  rcases hcontent : node.content with ⟨childIndex, childCount⟩ | i
  · simp [Entry.missing, Rofs.nodeEntry, hcontent]
  · have hi := h.file_lt (List.mem_of_getElem? hnode) hcontent
    simp [Entry.missing, Rofs.nodeEntry, hcontent, hi]

section
variable (hC : '/' ∈ C.separators) (hl : C.CaseClosed)
include hC hl

/-- A path leads to what its normal form does. -/
theorem leads_iff (h : obj.IntoRofs E fs) {i j : ℕ} {path : Str} :
    fs.Leads i (normalizePath C path) j ↔ fs.Reaches i (norm C path) j := by
  rw [Rofs.Leads, components_lower_normalizePath hC hl, components_normalizePath hC]
  constructor
  · rintro (hexact | ⟨-, hlower⟩)
    · -- the components are in lowercase already
      rwa [norm, show (resolved C path).map (·.map Char.toLower) = _ from h.lower_of_reaches hexact]
    · exact hlower
  · intro hreach
    by_cases hexact : ∃ k, fs.Reaches i (resolved C path) k
    · obtain ⟨k, hk⟩ := hexact
      have hsame : norm C path = resolved C path := h.lower_of_reaches hk
      exact .inl (hsame ▸ hreach)
    · exact .inr ⟨not_exists.1 hexact, hreach⟩

/-- **`lookup_in_dir` returns the inode of what the normal form leads to.** -/
theorem lookupInDir_eq_ok (h : obj.IntoRofs E fs) {p inode : UInt64} {path : Str} :
    fs.lookupInDir E p path = .ok inode ↔
      ∃ j, fs.Reaches ((p - C.inodeRoot).toNat % 2 ^ 32) (norm C path) j ∧ inode = UInt64.ofNat j + C.inodeRoot := by
  rw [h.lookupInDir_eq_ok_iff]
  exact exists_congr fun j => and_congr_left fun _ => h.leads_iff hC hl

/-- What some lookups in a row lead to. -/
theorem foldlM_eq_ok (h : obj.IntoRofs E fs) {p inode : UInt64} (hp : ∃ e, fs.entry p = .ok e) {cs : List Str} :
    cs.foldlM (fs.lookupInDir E) p = .ok inode ↔
      ∃ j, fs.Reaches (p - C.inodeRoot).toNat (cs.flatMap (norm C)) j ∧ inode = UInt64.ofNat j + C.inodeRoot := by
  have h32 := h.flattened.2.length_lt
  induction cs generalizing p with
  | nil =>
    rw [List.foldlM_nil, List.flatMap_nil]
    constructor
    · intro heq
      cases heq
      refine ⟨_, .refl, ?_⟩
      rw [UInt64.ofNat_toNat, UInt64.sub_add_cancel]
    · rintro ⟨j, hj, rfl⟩
      cases hj
      rw [UInt64.ofNat_toNat, UInt64.sub_add_cancel]
      rfl
  | cons c cs ih =>
    have hlt := Rofs.entry_eq_ok_iff.1 hp
    have hmod := Nat.mod_eq_of_lt (hlt.trans h32)
    have hindex : ∀ {j : ℕ}, j < fs.nodes.length → (UInt64.ofNat j + C.inodeRoot - C.inodeRoot).toNat = j := by
      intro j hj
      rw [UInt64.add_sub_cancel, UInt64.toNat_ofNat']
      omega
    have hnext : ∀ {j : ℕ}, fs.Reaches (p - C.inodeRoot).toNat (norm C c) j →
        (∃ e, fs.entry (UInt64.ofNat j + C.inodeRoot) = .ok e) ∧
          (UInt64.ofNat j + C.inodeRoot - C.inodeRoot).toNat = j := by
      intro j hj
      have hjlt := hj.lt hlt
      exact ⟨Rofs.entry_eq_ok_iff.2 (by rwa [hindex hjlt]), hindex hjlt⟩
    rw [List.foldlM_cons, List.flatMap_cons]
    constructor
    · intro heq
      rcases hc : fs.lookupInDir E p c with e | next
      · rw [hc] at heq
        cases heq
      · rw [hc] at heq
        obtain ⟨j, hj, rfl⟩ := (h.lookupInDir_eq_ok hC hl).1 hc
        rw [hmod] at hj
        obtain ⟨hexists, hat⟩ := hnext hj
        obtain ⟨k, hk, rfl⟩ := (ih hexists).1 heq
        rw [hat] at hk
        exact ⟨k, Rofs.reaches_append.2 ⟨j, hj, hk⟩, rfl⟩
    · rintro ⟨k, hk, rfl⟩
      obtain ⟨j, hj, hk⟩ := Rofs.reaches_append.1 hk
      obtain ⟨hexists, hat⟩ := hnext hj
      have hc : fs.lookupInDir E p c = .ok (UInt64.ofNat j + C.inodeRoot) :=
        (h.lookupInDir_eq_ok hC hl).2 ⟨j, by rwa [hmod], rfl⟩
      rw [hc]
      exact (ih hexists).2 ⟨k, by rwa [hat], rfl⟩

/-- **Looking up some pieces one after the other is looking up the pieces
    joined.** -/
theorem foldlM_lookupInDir (h : obj.IntoRofs E fs) {p : UInt64} (hp : ∃ e, fs.entry p = .ok e) {cs : List Str}
    (hcs : ∀ c ∈ cs, ['.', '.'] ∉ splitPath C c) {x : Char} (hx : x ∈ C.separators) :
    cs.foldlM (fs.lookupInDir E) p = fs.lookupInDir E p ([x].intercalate cs) := by
  have h32 := h.flattened.2.length_lt
  have hiff : ∀ inode, cs.foldlM (fs.lookupInDir E) p = .ok inode ↔
      fs.lookupInDir E p ([x].intercalate cs) = .ok inode := by
    intro inode
    rw [h.foldlM_eq_ok hC hl hp, h.lookupInDir_eq_ok hC hl, norm_intercalate hx hcs,
      Nat.mod_eq_of_lt ((Rofs.entry_eq_ok_iff.1 hp).trans h32)]
  rcases hone : fs.lookupInDir E p ([x].intercalate cs) with e | inode
  · rcases hall : cs.foldlM (fs.lookupInDir E) p with e' | inode
    · rw [Rofs.lookupInDir_error hone, Rofs.foldlM_lookupInDir_error hall]
    · rw [(hiff inode).1 hall] at hone
      cases hone
  · exact (hiff inode).2 hone

end

/-- `A`, then `b`, in a filesystem with `a/B`. -/
theorem foldlM_lookupInDir_nested : ∃ (obj : RofsObject DefaultConfig ℕ) (fs : Rofs DefaultConfig ℕ),
    RofsObject.new [("a/B".toList, 0)] = some obj ∧ obj.IntoRofs Eytzinger.layout fs ∧
      ["A".toList, "b".toList].foldlM (fs.lookupInDir Eytzinger.layout) 1 =
        fs.lookupInDir Eytzinger.layout 1 "A/b".toList := by
  obtain ⟨obj, fs, hobj, hfs⟩ := RofsObject.exists_intoRofs DefaultConfig Eytzinger.layout
    [("a/B".toList, 0)] (by decide) (by decide) (by decide)
  obtain ⟨b, -, hb, -⟩ := RofsObject.new_eq_some hobj
  obtain ⟨e, _, _, he, -⟩ := hfs.root_dir hb
  exact ⟨obj, fs, hobj, hfs, hfs.foldlM_lookupInDir (by decide)
    (Config.caseClosed_of_letterFree letterFree_defaultConfig) ⟨e, he⟩ (by decide) (x := '/') (by decide)⟩

end RofsObject.IntoRofs

end Fsvfs
