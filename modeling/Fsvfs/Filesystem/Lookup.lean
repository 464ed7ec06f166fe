/-
  Looking up paths in a flattened filesystem.

  * `Rofs.Flattened.lookup_spec`: `lookup` goes to the node that a walk down the
    tree of the object leads to;
  * `RofsObject.IntoRofs.find_eq`: it finds in the flattened filesystem what the
    path tree of the object has at the components of the path, or at its components
    in lowercase.
-/
import Fsvfs.Filesystem.Layout

namespace Fsvfs

open Lib

/-- What a node is. -/
def Node.kind (node : Node) : Kind ℕ := match node.content with
  | .dir _ _ => .dir
  | .file dataIndex => .file dataIndex

namespace Rofs
variable {C : Config} {T : Type} {E : Eytzinger} {n : ℕ} {fs : Rofs C T}

/-! ## Searching a directory -/

theorem ShowsNode.kind_branch {b : Branch} {node : Node} (h : fs.ShowsNode E (.branch b) node) :
    node.kind = .dir := by
  obtain ⟨_, _, h, -⟩ := h
  simp [Node.kind, h]

theorem ShowsNode.kind_leaf {i : ℕ} {node : Node} (h : fs.ShowsNode E (.leaf i) node) :
    node.kind = .file i := by
  have h : node.content = .file i := h
  simp [Node.kind, h]

theorem nodeName_of_nameAt {node : Node} {name : Str} (h : NameAt fs.names node.nameIndex name) :
    fs.nodeName node = name := by
  rw [nodeName, h.nameBytes, Str.fromUtf8Unchecked_bytes]

/-- The nodes of a directory, one by one. -/
theorem Laid.get {start k : ℕ} {raw : List Node} {node : Node} (h : fs.Laid E start raw)
    (hk : (fs.slice start (start + raw.length))[k]? = some node) :
    node ∈ raw ∧ fs.nodes[start + k]? = some node := by
  obtain ⟨sorted, hperm, -, hslice⟩ := h
  rw [slice, Nat.add_sub_cancel_left] at hk
  refine ⟨?_, ?_⟩
  · rw [hslice] at hk
    exact hperm.mem_iff.1 ((E.perm sorted).mem_iff.1 (List.mem_of_getElem? hk))
  · rw [List.getElem?_take] at hk
    split_ifs at hk
    rwa [List.getElem?_drop] at hk

/-- **Searching a directory for a name finds the entry of that name.** -/
theorem search_laid {b : Branch} {raw : List Node} {start : ℕ} (hs : fs.Shows E b raw)
    (hl : fs.Laid E start raw) (hb : b.Wf C n) (c : Str) :
    (b.get c = none ∧ E.searchByKey (fs.slice start (start + b.length)) (byteKey c.bytes)
        (fun node => byteKey (fs.nodeName node).bytes) = none) ∨
    ∃ t k node, b.get c = some t ∧ E.searchByKey (fs.slice start (start + b.length))
        (byteKey c.bytes) (fun node => byteKey (fs.nodeName node).bytes) = some k ∧
      (fs.slice start (start + b.length))[k]? = some node ∧ fs.nodes[start + k]? = some node ∧
      NameAt fs.names node.nameIndex c ∧ fs.ShowsNode E t node := by
  set f := fun node => byteKey (fs.nodeName node).bytes
  obtain ⟨sorted, hperm, hsorted, hslice⟩ := id hl
  have hslice' : fs.slice start (start + b.length) = E.eytzingerize sorted := by
    rw [slice, Nat.add_sub_cancel_left, ← hs.length, hslice]
  have hkey : sorted.map f = sorted.map fs.nodeKey := by
    refine List.map_congr_left fun node hn => ?_
    obtain ⟨name, _, -, hat, -⟩ := hs.of_mem hb (hperm.mem_iff.1 hn)
    rw [nodeKey, hat.nameBytes]
    simp only [f, nodeName_of_nameAt hat]
  rcases hsearch : E.searchByKey (fs.slice start (start + b.length)) (byteKey c.bytes) f with _ | k
  · refine Or.inl ⟨?_, rfl⟩
    rw [hslice'] at hsearch
    by_contra hc
    have hmem : c ∈ b.keys := by
      by_contra hk
      exact hc (Branch.get_eq_none_iff.2 hk)
    have hmem' : byteKey c.bytes ∈ sorted.map f := by
      rw [hkey, (hperm.map fs.nodeKey).mem_iff, hs.map_nodeKey]
      exact List.mem_map.2 ⟨c, hmem, rfl⟩
    have := E.finds sorted _ f (hkey ▸ hsorted) hmem'
    rw [hsearch] at this; cases this
  · rw [hslice'] at hsearch
    obtain ⟨node, hk, hf⟩ := E.found sorted _ f (hkey ▸ hsorted) hsearch
    rw [← hslice'] at hk
    obtain ⟨hraw, hnode⟩ := hl.get (by rw [hs.length]; exact hk)
    obtain ⟨name, t, hg, hat, ht⟩ := hs.of_mem hb hraw
    have hname : name = c := by simpa [f, nodeName_of_nameAt hat] using hf
    subst hname
    exact Or.inr ⟨t, k, node, hg, rfl, hk, hnode, hat, ht⟩

/-! ## Walking down a path -/

/-- **Walking from the node of a branch reaches the node of what the branch has
    at the path.** -/
theorem walk_spec : ∀ (cs : List Str) {index : ℕ} {node : Node} {b : Branch},
    fs.nodes[index]? = some node → b.Wf C n → fs.ShowsNode E (.branch b) node →
      (∃ j node', fs.walk E index cs = some j ∧ fs.nodes[j]? = some node' ∧
        b.kindAt cs = some node'.kind) ∨ (fs.walk E index cs = none ∧ b.kindAt cs = none)
  | [], index, node, b, hn, _, hs =>
    Or.inl ⟨index, node, rfl, hn, by rw [Branch.kindAt_nil, hs.kind_branch]⟩
  | c :: cs, index, node, b, hn, hb, hs => by
    obtain ⟨childIndex, sub, hnode, hsub, hl⟩ := hs
    obtain ⟨content, nameIndex⟩ := node
    cases hnode
    rw [walk, hn, Branch.kindAt_cons]
    simp only
    rcases search_laid hsub hl hb c with
      ⟨hg, hsearch⟩ | ⟨t, k, node', hg, hsearch, -, hk, -, ht⟩
    · rw [hg, hsearch]
      exact Or.inr ⟨rfl, rfl⟩
    · rw [hg, hsearch]
      simp only [Nat.add_comm k]
      cases t with
      | branch s => exact walk_spec cs hk (hb.get hg).2.2 ht
      | leaf i =>
        -- a file ends the path, and nothing lies below it
        cases cs with
        | nil => exact Or.inl ⟨_, node', rfl, hk, by rw [ht.kind_leaf]; rfl⟩
        | cons d cs =>
          refine Or.inr ⟨?_, rfl⟩
          obtain ⟨content', nameIndex'⟩ := node'
          cases ht
          rw [walk, hk]

/-- The same from a parent inode, as `u32`s. -/
theorem inodeByPath_spec {parent : UInt32} {node : Node} {b : Branch} (path : Str)
    (hlt : fs.nodes.length < 2 ^ 32) (hn : fs.nodes[parent.toNat]? = some node) (hb : b.Wf C n)
    (hs : fs.ShowsNode E (.branch b) node) :
    (∃ j node', fs.inodeByPath E parent path = some j ∧ fs.nodes[j.toNat]? = some node' ∧
      b.kindAt (components C path) = some node'.kind) ∨
    (fs.inodeByPath E parent path = none ∧ b.kindAt (components C path) = none) := by
  unfold inodeByPath
  rcases components C path with _ | ⟨c, cs⟩
  · exact Or.inl ⟨parent, node, rfl, hn, by rw [Branch.kindAt_nil, hs.kind_branch]⟩
  · rcases walk_spec (c :: cs) hn hb hs with ⟨j, node', hw, hj, hk⟩ | ⟨hw, hk⟩
    · have hjlt : j < fs.nodes.length := (List.getElem?_eq_some_iff.1 hj).1
      have hj32 : j.toUInt32.toNat = j := by
        rw [Nat.toUInt32_eq, UInt32.toNat_ofNat']; omega
      exact Or.inl ⟨_, node', by simp only [hw]; rfl, by rw [hj32]; exact hj, hk⟩
    · exact Or.inr ⟨by simp only [hw]; rfl, hk⟩

/-- What a branch has at the components of a normalised path, or else at those
    of the path in lowercase. -/
def query (b : Branch) (C : Config) (path : Str) : Option (Kind ℕ) :=
  (b.kindAt (components C path)).or (b.kindAt (components C path.lower))

/-- Exact components first, then the lowercase ones. -/
theorem ignoreAsciiCase_spec {parent : UInt32} {node : Node} {b : Branch} (path : Str)
    (hlt : fs.nodes.length < 2 ^ 32) (hn : fs.nodes[parent.toNat]? = some node) (hb : b.Wf C n)
    (hs : fs.ShowsNode E (.branch b) node) :
    (∃ j node', fs.inodeByPathIgnoreAsciiCase E parent path = some j ∧
      fs.nodes[j.toNat]? = some node' ∧ query b C path = some node'.kind) ∨
    (fs.inodeByPathIgnoreAsciiCase E parent path = none ∧ query b C path = none) := by
  unfold inodeByPathIgnoreAsciiCase query
  rcases inodeByPath_spec path hlt hn hb hs with ⟨j, node', h1, hj, hk⟩ | ⟨h1, hk⟩
  · exact Or.inl ⟨j, node', by rw [h1], hj, by rw [hk]; rfl⟩
  · have hfst := toAsciiLowercase_fst path
    rw [h1, hk]
    simp only [Option.none_or]
    cases hu : (toAsciiLowercase path).2 with
    | true =>
      simp only [hfst, if_true]
      exact inodeByPath_spec path.lower hlt hn hb hs
    | false =>
      -- nothing to put in lowercase, so the second try would be the first one
      have hsame : path.lower = path := by
        have hu' : path.any Char.isUpper = false := hu
        rw [show path.lower = _ from hfst.symm, toAsciiLowercase, hu']; rfl
      rw [hsame]
      exact Or.inr ⟨rfl, hk⟩

/-- **Looking up a path in a directory finds what its branch has there.** -/
theorem lookupInDir_spec {parentInode : UInt64} {node : Node} {b : Branch} (path : Str)
    (hlt : fs.nodes.length < 2 ^ 32)
    (hn : fs.nodes[(parentInode - C.inodeRoot).toUInt32.toNat]? = some node) (hb : b.Wf C n)
    (hs : fs.ShowsNode E (.branch b) node) :
    (∃ inode node', fs.lookupInDir E parentInode path = .ok inode ∧
      fs.nodes[(inode - C.inodeRoot).toNat]? = some node' ∧
      query b C (normalizePath C path) = some node'.kind) ∨
    (fs.lookupInDir E parentInode path = .error .notFound ∧
      query b C (normalizePath C path) = none) := by
  unfold lookupInDir
  rcases ignoreAsciiCase_spec (normalizePath C path) hlt hn hb hs with
    ⟨j, node', h1, hj, hk⟩ | ⟨h1, hk⟩
  · exact Or.inl ⟨j.toUInt64 + C.inodeRoot, node', by simp only [h1], by simpa using hj, hk⟩
  · exact Or.inr ⟨by simp only [h1], hk⟩

/-! ## Lookup -/

variable (E) in
/-- The node an inode from `lookup` belongs to. -/
def locate (fs : Rofs C T) (path : Str) : Option Node := match fs.lookup E path with
  | .error _ => none
  | .ok inode => fs.nodes[(inode - C.inodeRoot).toNat]?

variable (E) in
/-- What `lookup` and then `entry` find at a path. -/
def find (fs : Rofs C T) (path : Str) : Option (Kind (Option T)) := match fs.lookup E path with
  | .error _ => none
  | .ok inode => match fs.entry inode with
    | .error _ => none
    | .ok e => match e.kind with
      | .dir _ _ => some .dir
      | .file data => some (.file data)

/-- `entry` reads the node. -/
theorem find_eq_locate {path : Str} :
    fs.find E path = (fs.locate E path).map fun node => node.kind.map (fs.files[·]?) := by
  unfold find locate
  rcases fs.lookup E path with _ | inode
  · rfl
  · rcases hn : fs.nodes[(inode - C.inodeRoot).toNat]? with _ | ⟨_ | _, _⟩ <;>
      simp [entry, hn, nodeEntry, Node.kind, Kind.map]

/-- What `lookup` finds in a flattened object. -/
theorem Flattened.lookup_spec {b : Branch} (h : fs.Flattened E n (some b)) (path : Str) :
    (∃ inode node, fs.lookup E path = .ok inode ∧ fs.locate E path = some node ∧
      query b C (normalizePath C path) = some node.kind) ∨
    (fs.lookup E path = .error .notFound ∧ fs.locate E path = none ∧
      query b C (normalizePath C path) = none) := by
  obtain ⟨b', node, hsame, hroot⟩ := h.of_some b rfl
  have hq : query b C (normalizePath C path) = query b' C (normalizePath C path) := by
    simp only [query, hsame.kindAt]
  rw [hq]
  have hfirst : fs.nodes[(C.inodeRoot - C.inodeRoot).toUInt32.toNat]? = some node := by
    simpa using hroot.first
  rcases lookupInDir_spec path h.length_lt hfirst hsame.wf hroot.shows
    with ⟨inode, node', h1, hj, hk⟩ | ⟨h1, hk⟩
  · exact Or.inl ⟨inode, node', h1, by rw [locate, lookup, h1]; exact hj, hk⟩
  · exact Or.inr ⟨h1, by rw [locate, lookup, h1], hk⟩

end Rofs

namespace RofsObject
variable {C : Config} {T : Type} {E : Eytzinger} {fs : Rofs C T} {obj : RofsObject C T}

/-- What a path tree has at the components of a path, or else at those of the
    path in lowercase. -/
def queryTree {α : Type} (t : PathTree Str α) (C : Config) (path : Str) : Option (Kind α) :=
  (t.kind (components C (normalizePath C path))).or
    (t.kind (components C (normalizePath C path).lower))

/-- **`lookup` finds in the flattened filesystem what the tree of the object has
    at the path.** -/
theorem IntoRofs.locate_eq (h : obj.IntoRofs E fs) (path : Str) :
    (fs.locate E path).map Node.kind = queryTree obj.tree C path := by
  obtain ⟨-, hfl⟩ := h.flattened
  rcases hb : obj.branch with _ | b
  · -- no nodes at all
    rw [queryTree, tree_of_none hb, Rofs.locate, hfl.of_none hb]
    rcases fs.lookup E path with _ | _ <;> simp
  · rw [hb] at hfl
    have hq : queryTree obj.tree C path = Rofs.query b C (normalizePath C path) := by
      rw [queryTree, Rofs.query, tree_of_branch hb, Branch.kind_tree, Branch.kind_tree]
    rw [hq]
    rcases hfl.lookup_spec path with ⟨_, node, -, hl, hk⟩ | ⟨-, hl, hk⟩
    · rw [hl, hk]; rfl
    · rw [hl, hk]; rfl

/-- **`lookup` and `entry` find in the flattened filesystem what the object has
    at the path.** -/
theorem IntoRofs.find_eq (h : obj.IntoRofs E fs) (path : Str) :
    fs.find E path = queryTree obj.view C path := by
  have hq : queryTree obj.view C path =
      (queryTree obj.tree C path).map (Kind.map (obj.files[·]?)) := by
    rw [queryTree, queryTree, Option.map_or]
    rfl
  rw [Rofs.find_eq_locate, hq, ← h.locate_eq, h.flattened.1, Option.map_map]
  rfl

end RofsObject

end Fsvfs
