/-
  The inode numbers of `lookup`, `entry` and directory listings.

  `entry` and `lookup` subtract and add `INODE_ROOT`, but `node_entry`, which
  numbers the result of `entry` and the children of a listing, subtracts it
  once more instead of adding it.

  * `lookupInDir_child`: looking up the name of a child gives its index plus
    `INODE_ROOT`;
  * `inodesAgree_iff`: the three agree iff there are no nodes at all, or
    subtracting `INODE_ROOT` is adding it and no entry has the name `".."`.
-/
import Fsvfs.Filesystem.Build

namespace Fsvfs

open Lib

/-! ## Names as paths -/

section
variable {C : Config}

/-- A name of a tree is normalized. -/
theorem normalizePath_name {name : Str} (h : Branch.IsName C name) (hd : name ≠ ['.', '.']) :
    normalizePath C name = name := by
  have hs : splitPath C name = [name] := splitPath_of_forall h.sep
  rw [normalizePath, if_neg h.ne_nil]
  split_ifs with hdots
  · simp [hs, pushComponent, h.ne_nil, h.ne_dot, hd, List.intercalate]
  · rfl

/-- It is a path with that one component. -/
theorem components_normalizePath_name {name : Str} (h : Branch.IsName C name)
    (hd : name ≠ ['.', '.']) : components C (normalizePath C name) = [name] := by
  have hs : splitPath C name = [name] := splitPath_of_forall h.sep
  rw [normalizePath_name h hd, components, hs]
  simp [h.ne_nil, h.ne_dot]

/-- The name `".."` is a path without components. -/
theorem components_normalizePath_dots (h : Branch.IsName C ['.', '.']) :
    components C (normalizePath C ['.', '.']) = [] := by
  have hs : splitPath C ['.', '.'] = [['.', '.']] := splitPath_of_forall h.sep
  have hn : normalizePath C ['.', '.'] = [] := by
    rw [normalizePath, if_neg h.ne_nil, if_neg (by simp), hs]
    rfl
  rw [hn, components, splitPath_nil]
  rfl

end

namespace Rofs
variable {C : Config} {T : Type} {E : Eytzinger} {n : ℕ} {fs : Rofs C T}

/-! ## The children of a directory -/

/-- No two nodes of a directory have the same name. -/
theorem Laid.unique {start k k' : ℕ} {raw : List Node} {a a' : Node} (h : fs.Laid E start raw)
    (hk : (fs.slice start (start + raw.length))[k]? = some a)
    (hk' : (fs.slice start (start + raw.length))[k']? = some a')
    (heq : fs.nodeKey a = fs.nodeKey a') : k = k' := by
  obtain ⟨sorted, -, hsorted, hslice⟩ := h
  rw [slice, Nat.add_sub_cancel_left, hslice] at hk hk'
  have hnd : ((E.eytzingerize sorted).map fs.nodeKey).Nodup :=
    (((E.perm sorted).map fs.nodeKey).nodup_iff).2 hsorted.nodup
  refine (List.getElem?_inj (i := k) (j := k') ?_ hnd).1 ?_
  · rw [List.length_map]
    exact (List.getElem?_eq_some_iff.1 hk).1
  · rw [List.getElem?_map, List.getElem?_map, hk, hk', Option.map_some, Option.map_some, heq]

/-- The child at position `k` of a directory. -/
structure Child (E : Eytzinger) (fs : Rofs C T) (b : Branch) (start k : ℕ) (node : Node)
    (name : Str) : Prop where
  at_slice : (fs.slice start (start + b.length))[k]? = some node
  at_nodes : fs.nodes[start + k]? = some node
  nodeName : fs.nodeName node = name
  isName : Branch.IsName C name
  get : ∃ t, b.get name = some t

theorem child_of_slice {b : Branch} {raw : List Node} {start k : ℕ} {node : Node}
    (hs : fs.Shows E b raw) (hl : fs.Laid E start raw) (hb : b.Wf C n)
    (hk : (fs.slice start (start + b.length))[k]? = some node) :
    ∃ name, fs.Child E b start k node name := by
  obtain ⟨hraw, hnode⟩ := hl.get (by rw [hs.length]; exact hk)
  obtain ⟨name, t, hg, hat, -⟩ := hs.of_mem hb hraw
  exact ⟨name, hk, hnode, nodeName_of_nameAt hat, (hb.get hg).1, t, hg⟩

/-- **Looking up the name of a child** gives its index plus `INODE_ROOT`; but the
    name `".."` gives the directory itself. -/
theorem lookupInDir_child {d : UInt64} {node node' : Node} {b : Branch} {childIndex k : ℕ}
    {raw : List Node} {name : Str} (hlt : fs.nodes.length < 2 ^ 32) (hb : b.Wf C n)
    (hn : fs.nodes[(d - C.inodeRoot).toNat]? = some node)
    (hcontent : node.content = .dir childIndex b.length) (hs : fs.Shows E b raw)
    (hl : fs.Laid E childIndex raw) (hc : fs.Child E b childIndex k node' name) :
    fs.lookupInDir E d name =
      .ok (if name = ['.', '.'] then d else UInt64.ofNat (childIndex + k) + C.inodeRoot) := by
  have hidx : (d - C.inodeRoot).toNat < 2 ^ 32 :=
    lt_trans (List.getElem?_eq_some_iff.1 hn).1 hlt
  have hparent : (d - C.inodeRoot).toUInt32.toNat = (d - C.inodeRoot).toNat := by
    rw [UInt64.toNat_toUInt32]; omega
  split_ifs with hd
  · subst hd
    have hpath : fs.inodeByPathIgnoreAsciiCase E (d - C.inodeRoot).toUInt32
        (normalizePath C ['.', '.']) = some (d - C.inodeRoot).toUInt32 := by
      rw [inodeByPathIgnoreAsciiCase, inodeByPath, components_normalizePath_dots hc.isName]
    have hback : (d - C.inodeRoot).toUInt32.toUInt64 = d - C.inodeRoot := by
      rw [← UInt64.toNat_inj, UInt32.toNat_toUInt64, hparent]
    rw [lookupInDir]
    simp only [hpath, hback, UInt64.sub_add_cancel]
  · -- the search finds a node of that name, and there is only one
    obtain ⟨t, hg⟩ := hc.get
    obtain ⟨content, nameIndex⟩ := node
    obtain rfl : content = _ := hcontent
    rcases search_laid hs hl hb name with ⟨hn', -⟩ | ⟨t', k', a, -, hsearch, hk', -, hat, -⟩
    · rw [hg] at hn'; cases hn'
    obtain ⟨name', t'', hg'', hat'', -⟩ := hs.of_mem hb (hl.get (by rw [hs.length]; exact hc.at_slice)).1
    have hname : name' = name := by rw [← nodeName_of_nameAt hat'', hc.nodeName]
    have hkk : k' = k := by
      refine hl.unique (by rw [hs.length]; exact hk') (by rw [hs.length]; exact hc.at_slice) ?_
      rw [nodeKey, nodeKey, hat.nameBytes, hat''.nameBytes, hname]
    have hpath : fs.inodeByPathIgnoreAsciiCase E (d - C.inodeRoot).toUInt32 (normalizePath C name) =
        some (childIndex + k).toUInt32 := by
      rw [inodeByPathIgnoreAsciiCase, inodeByPath, components_normalizePath_name hc.isName hd]
      simp only [hparent, walk, hn, hsearch, hkk, Option.map_some, Nat.add_comm k]
    have hto : (childIndex + k).toUInt32.toUInt64 = UInt64.ofNat (childIndex + k) := by
      have hk32 := lt_trans (List.getElem?_eq_some_iff.1 hc.at_nodes).1 hlt
      rw [← UInt64.toNat_inj, UInt32.toNat_toUInt64, Nat.toUInt32_eq, UInt32.toNat_ofNat',
        UInt64.toNat_ofNat']
      omega
    rw [lookupInDir]
    simp only [hpath, hto]

/-! ## Agreement -/

variable (E) in
/-- The child `c` of the directory `d` is found under its inode. -/
structure ChildAgrees (fs : Rofs C T) (d : UInt64) (c : Entry T) : Prop where
  lookup : fs.lookupInDir E d c.name = .ok c.inode
  entry : ∃ e, fs.entry c.inode = .ok e ∧ e.name = c.name ∧ e.kind = c.kind

variable (E) in
/-- The inodes of `lookup`, `entry` and directory listings agree. -/
structure InodesAgree (fs : Rofs C T) : Prop where
  entry : ∀ i e, fs.entry i = .ok e → e.inode = i
  child : ∀ d e start stop, fs.entry d = .ok e → e.kind = .dir start stop →
    ∀ c ∈ fs.dirIter start stop, fs.ChildAgrees E d c
  distinct : ∀ d e start stop, fs.entry d = .ok e → e.kind = .dir start stop →
    ((fs.dirIter start stop).map Entry.inode).Nodup

theorem entry_eq_ok {i : UInt64} {e : Entry T} : fs.entry i = .ok e ↔
    ∃ node, fs.nodes[(i - C.inodeRoot).toNat]? = some node ∧
      e = fs.nodeEntry (i - C.inodeRoot).toNat node := by
  rcases h : fs.nodes[(i - C.inodeRoot).toNat]? with _ | node
  · simp [entry, h]
  · simp [entry, h, eq_comm]

theorem entry_of_getElem {i : ℕ} {node : Node} (hi : i < 2 ^ 64) (hn : fs.nodes[i]? = some node) :
    fs.entry (UInt64.ofNat i + C.inodeRoot) = .ok (fs.nodeEntry i node) := by
  have hidx : (UInt64.ofNat i + C.inodeRoot - C.inodeRoot).toNat = i := by
    rw [UInt64.add_sub_cancel, UInt64.toNat_ofNat']
    omega
  exact entry_eq_ok.2 ⟨node, by rw [hidx, hn], by rw [hidx]⟩

/-- The child at a position of a listing. -/
theorem mem_dirIter {start stop : ℕ} {c : Entry T} : c ∈ fs.dirIter start stop ↔
    ∃ k node, (fs.slice start stop)[k]? = some node ∧ c = fs.nodeEntry (start + k) node := by
  rw [dirIter, List.mem_iff_getElem?]
  refine exists_congr fun k => ?_
  rw [List.getElem?_mapIdx]
  rcases (fs.slice start stop)[k]? with _ | node
  · simp
  · simp [eq_comm]

/-- Entries of different indices have different inodes. -/
theorem nodup_dirIter {start stop : ℕ} (hlt : fs.nodes.length < 2 ^ 32) :
    ((fs.dirIter start stop).map Entry.inode).Nodup := by
  refine List.pairwise_iff_getElem.2 fun i j hi hj hij heq => ?_
  simp only [dirIter, List.length_map, List.length_mapIdx, slice, List.length_take,
    List.length_drop] at hi hj
  simp only [dirIter, List.getElem_map, List.getElem_mapIdx, nodeEntry, UInt64.sub_left_inj] at heq
  have h := congrArg UInt64.toNat heq
  rw [UInt64.toNat_ofNat', UInt64.toNat_ofNat'] at h
  omega

theorem kind_nodeEntry {i start stop : ℕ} {node : Node} :
    (fs.nodeEntry i node).kind = .dir start stop ↔
      ∃ count, node.content = .dir start count ∧ stop = start + count := by
  obtain ⟨content, nameIndex⟩ := node
  cases content with
  | file i => simp [nodeEntry]
  | dir childIndex childCount =>
    simp only [nodeEntry, EntryKind.dir.injEq, NodeContent.dir.injEq]
    constructor
    · rintro ⟨rfl, rfl⟩; exact ⟨childCount, ⟨rfl, rfl⟩, rfl⟩
    · rintro ⟨count, ⟨rfl, rfl⟩, rfl⟩; exact ⟨rfl, rfl⟩

/-- Without nodes there is nothing to agree on. -/
theorem inodesAgree_of_nil (h : fs.nodes = []) : fs.InodesAgree E := by
  have hno : ∀ i e, fs.entry i ≠ .ok e := fun i e he => by
    obtain ⟨node, hn, -⟩ := entry_eq_ok.1 he
    rw [h] at hn; cases hn
  exact ⟨fun i e he => absurd he (hno i e), fun d e _ _ he => absurd he (hno d e),
    fun d e _ _ he => absurd he (hno d e)⟩

/-- The inode `entry` gives to the root is `INODE_ROOT` only if subtracting it
    is adding it. -/
theorem InodesAgree.root_add_root (h : fs.InodesAgree E) {node : Node}
    (hn : fs.nodes[0]? = some node) : C.inodeRoot + C.inodeRoot = 0 := by
  have hentry := entry_of_getElem (C := C) (by omega) hn
  have hinode := h.entry _ _ hentry
  rw [nodeEntry, UInt64.sub_eq_iff_eq_add, UInt64.add_assoc] at hinode
  simpa using hinode.symm

/-- If they agree, no directory contains the name `".."`. -/
theorem InodesAgree.no_dots (h : fs.InodesAgree E) (hlt : fs.nodes.length < 2 ^ 32)
    (hfwd : Flatten.Forward fs.nodes) (hr : C.inodeRoot + C.inodeRoot = 0) :
    ∀ (p : List Str) {i : ℕ} {node : Node} {b : Branch}, fs.nodes[i]? = some node → b.Wf C n →
      fs.ShowsNode E (.branch b) node → b.kindAt (p ++ [['.', '.']]) = none
  | [], i, node, b, hn, hb, hs => by
    obtain ⟨childIndex, raw, hcontent, hs, hl⟩ := hs
    rw [List.nil_append, Branch.kindAt_cons]
    rcases search_laid hs hl hb ['.', '.'] with ⟨hg, -⟩ | ⟨t, k, a, hg, -, hk, hk', hat, -⟩
    · rw [hg]
    · exfalso
      have hi := lt_trans (List.getElem?_eq_some_iff.1 hn).1 hlt
      have hi' := lt_trans (List.getElem?_eq_some_iff.1 hk').1 hlt
      have hentry := entry_of_getElem (C := C) (by omega) hn
      have hidx : (UInt64.ofNat i + C.inodeRoot - C.inodeRoot).toNat = i := by
        rw [UInt64.add_sub_cancel, UInt64.toNat_ofNat']
        omega
      have hc : fs.Child E b childIndex k a ['.', '.'] :=
        ⟨hk, hk', nodeName_of_nameAt hat, (hb.get hg).1, t, hg⟩
      have hdots := lookupInDir_child hlt hb (by rw [hidx]; exact hn) hcontent hs hl hc
      have hchild := (h.child _ _ childIndex (childIndex + b.length) hentry
        (kind_nodeEntry.2 ⟨_, hcontent, rfl⟩) _ (mem_dirIter.2 ⟨k, a, hk, rfl⟩)).lookup
      rw [show (fs.nodeEntry (childIndex + k) a).name = ['.', '.'] from hc.nodeName, hdots,
        if_pos rfl] at hchild
      -- the child would be the directory itself
      have hself : UInt64.ofNat i + C.inodeRoot = UInt64.ofNat (childIndex + k) - C.inodeRoot :=
        Except.ok.inj hchild
      have hneg : UInt64.ofNat i = UInt64.ofNat (childIndex + k) := by
        rw [UInt64.eq_sub_iff_add_eq, UInt64.add_assoc, hr, UInt64.add_zero] at hself
        exact hself
      have hnat := congrArg UInt64.toNat hneg
      rw [UInt64.toNat_ofNat', UInt64.toNat_ofNat'] at hnat
      obtain ⟨content, nameIndex⟩ := node
      obtain rfl : content = _ := hcontent
      have := hfwd i _ _ _ hn
      omega
  | c :: p, i, node, b, hn, hb, hs => by
    obtain ⟨childIndex, raw, hcontent, hs, hl⟩ := hs
    rw [List.cons_append, Branch.kindAt_cons]
    rcases search_laid hs hl hb c with ⟨hg, -⟩ | ⟨t, k, a, hg, -, -, hk, -, ht⟩
    · rw [hg]
    · rw [hg]
      cases t with
      | leaf j => simp
      | branch s => exact h.no_dots hlt hfwd hr p hk (hb.get hg).2.2 ht

/-- A directory of a tree is reached by some path. -/
theorem exists_path_of_within {root b : Branch} (h : root.Within b) :
    ∃ p, ∀ q, root.kindAt (p ++ q) = b.kindAt q := by
  induction h with
  | refl => exact ⟨[], fun q => rfl⟩
  | @sub b s name _ hg ih =>
    obtain ⟨p, hp⟩ := ih
    refine ⟨p ++ [name], fun q => ?_⟩
    rw [List.append_assoc, List.singleton_append, hp, Branch.kindAt_cons, hg]

/-- If subtracting `INODE_ROOT` is adding it, only the name `".."` is in the
    way. -/
theorem inodesAgree_of_no_dots {root : Branch} (hlt : fs.nodes.length < 2 ^ 32) (hwf : root.Wf C n)
    (hshown : ∀ node ∈ fs.nodes, fs.IsShown E root node) (hr : C.inodeRoot + C.inodeRoot = 0)
    (hdots : ∀ p : List Str, root.kindAt (p ++ [['.', '.']]) = none) : fs.InodesAgree E := by
  have hsub : ∀ i : UInt64, i - C.inodeRoot = i + C.inodeRoot := fun i => by
    rw [UInt64.sub_eq_iff_eq_add, UInt64.add_assoc, hr, UInt64.add_zero]
  refine ⟨fun i e he => ?_, fun d e start stop he hkind c hc => ?_,
    fun _ _ _ _ _ _ => nodup_dirIter hlt⟩
  · obtain ⟨node, -, rfl⟩ := entry_eq_ok.1 he
    rw [nodeEntry, UInt64.ofNat_toNat, hsub, UInt64.sub_add_cancel]
  · obtain ⟨node, hn, rfl⟩ := entry_eq_ok.1 he
    obtain ⟨count, hcontent, rfl⟩ := kind_nodeEntry.1 hkind
    -- the node shows a directory of the tree
    rcases hshown node (List.mem_of_getElem? hn) with ⟨i, hi⟩ | ⟨b, hbw, childIndex, raw, hb, hs, hl⟩
    · rw [show node.content = _ from hi] at hcontent; cases hcontent
    rw [hb] at hcontent
    cases hcontent
    obtain ⟨k, a, hk, rfl⟩ := mem_dirIter.1 hc
    have hbwf := hbw.wf hwf
    obtain ⟨name, hchild⟩ := child_of_slice hs hl hbwf hk
    have hname : (fs.nodeEntry (start + k) a).name = name := hchild.nodeName
    have hne : name ≠ ['.', '.'] := by
      rintro rfl
      obtain ⟨p, hp⟩ := exists_path_of_within hbw
      obtain ⟨t, hg⟩ := hchild.get
      have := hdots p
      rw [hp, Branch.kindAt_cons, hg] at this
      rcases t with s | i <;> simp [Branch.kindAt_nil] at this
    have hk32 := lt_trans (List.getElem?_eq_some_iff.1 hchild.at_nodes).1 hlt
    refine ⟨?_, fs.nodeEntry (start + k) a, ?_, rfl, rfl⟩
    · rw [hname, lookupInDir_child hlt hbwf hn hb hs hl hchild, if_neg hne, nodeEntry, hsub]
    · have hentry := entry_of_getElem (C := C) (by omega) hchild.at_nodes
      rw [← hsub] at hentry
      exact hentry

/-- **When inodes agree.** -/
theorem inodesAgree_iff {obj : RofsObject C T} (h : obj.IntoRofs E fs) : fs.InodesAgree E ↔
    fs.nodes = [] ∨ (C.inodeRoot + C.inodeRoot = 0 ∧
      ∀ p : List Str, obj.tree.kind (p ++ [['.', '.']]) = none) := by
  obtain ⟨-, hfl⟩ := h.flattened
  rcases hb : obj.branch with _ | b
  · have hnil := hfl.of_none hb
    exact ⟨fun _ => Or.inl hnil, fun _ => inodesAgree_of_nil hnil⟩
  obtain ⟨b', node, hsame, hroot⟩ := hfl.of_some b hb
  have htree : ∀ p, obj.tree.kind p = b'.kindAt p := fun p => by
    rw [RofsObject.tree_of_branch hb, Branch.kind_tree, hsame.kindAt]
  constructor
  · intro hagree
    have hr := hagree.root_add_root hroot.first
    refine Or.inr ⟨hr, fun p => ?_⟩
    rw [htree]
    exact hagree.no_dots hfl.length_lt hfl.forward hr p hroot.first hsame.wf hroot.shows
  · rintro (hnil | ⟨hr, hdots⟩)
    · exact inodesAgree_of_nil hnil
    · exact inodesAgree_of_no_dots hfl.length_lt hsame.wf hroot.shown hr
        fun p => by rw [← htree]; exact hdots p

/-- With an `INODE_ROOT` that is its own negative, inodes agree. -/
theorem inodesAgree_of_high_root : ∃ (obj : RofsObject { inodeRoot := 0x8000000000000000 } ℕ)
    (fs : Rofs { inodeRoot := 0x8000000000000000 } ℕ), RofsObject.new [("a/b".toList, 0)] = some obj ∧
      obj.IntoRofs Eytzinger.layout fs ∧ fs.InodesAgree Eytzinger.layout := by
  set C : Config := { inodeRoot := 0x8000000000000000 }
  obtain ⟨obj, fs, hobj, hfs⟩ := RofsObject.exists_intoRofs C Eytzinger.layout
    [("a/b".toList, 0)] (by decide) (by decide) (by decide)
  have hsurv : PathTree.survivors (RofsObject.entries C [("a/b".toList, 0)]) =
      [([['a'], ['b']], 0)] := by decide
  have hholds := RofsObject.holds_new hobj
  rw [hsurv] at hholds
  -- every path of the tree is a prefix of `["a", "b"]`
  have hdots : ∀ p : List Str, obj.tree.kind (p ++ [['.', '.']]) = none := by
    intro p
    have hno : ¬ p ++ [['.', '.']] <+: [['a'], ['b']] := fun h => by
      have hmem : ['.', '.'] ∈ [['a'], ['b']] := h.subset (by simp)
      revert hmem
      decide
    rcases hk : obj.tree.kind (p ++ [['.', '.']]) with _ | _ | i
    · rfl
    · rcases (hholds.dir _).1 hk with h | ⟨s, hs, hp, -⟩
      · simp at h
      · rw [List.mem_singleton.1 hs] at hp
        exact absurd hp hno
    · have hs := (hholds.file _ _).1 hk
      rw [List.mem_singleton, Prod.ext_iff] at hs
      exact absurd (by rw [show p ++ [['.', '.']] = _ from hs.1]) hno
  exact ⟨obj, fs, hobj, hfs, (inodesAgree_iff hfs).2 (Or.inr ⟨by decide +kernel, hdots⟩)⟩

/-- In the filesystem of one file the inode of the root is `INODE_ROOT`, but its
    entry has the inode `-INODE_ROOT`. -/
theorem not_inodesAgree : ∃ (obj : RofsObject DefaultConfig ℕ) (fs : Rofs DefaultConfig ℕ),
    RofsObject.new [("a/b".toList, 0)] = some obj ∧ obj.IntoRofs Eytzinger.layout fs ∧
      ¬ fs.InodesAgree Eytzinger.layout := by
  obtain ⟨obj, fs, hobj, hfs⟩ := RofsObject.exists_intoRofs DefaultConfig Eytzinger.layout
    [("a/b".toList, 0)] (by decide) (by decide) (by decide)
  refine ⟨obj, fs, hobj, hfs, fun h => ?_⟩
  obtain ⟨b, -, hb, -⟩ := RofsObject.new_eq_some hobj
  obtain ⟨_, node, -, hroot⟩ := hfs.flattened.2.of_some b hb
  have hr := h.root_add_root hroot.first
  revert hr
  decide

end Rofs

end Fsvfs
