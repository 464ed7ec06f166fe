/-
  The representation invariant of a flattened filesystem.

  A directory node holds the range of its children.  It is promised that range
  when it is emitted, and the ranges are promised one after the other, so that
  in the end every node but the first lies in exactly one of them
  (`IntoRofs.childRanges`): every node has one path (`Rofs.At`).

  * `Rofs.Represents`: the nodes represent a tree;
  * `IntoRofs.represents`: those of `into_rofs` represent that of the object.
-/
import Fsvfs.Lib.Tiling
import Fsvfs.Filesystem.Listing

namespace Fsvfs

open Lib

/-! ## Child ranges -/

/-- The range of the children of a directory node. -/
def Node.childRange (node : Node) : Option (ℕ × ℕ) := match node.content with
  | .dir childIndex childCount => some (childIndex, childCount)
  | .file _ => none

/-- The child ranges of the directory nodes. -/
def childRanges (nodes : List Node) : List (ℕ × ℕ) := nodes.filterMap Node.childRange

theorem childRange_eq_some {node : Node} {r : ℕ × ℕ} :
    node.childRange = some r ↔ node.content = .dir r.1 r.2 := by
  obtain ⟨content, nameIndex⟩ := node
  obtain ⟨start, count⟩ := r
  cases content with
  | dir childIndex childCount => simp [Node.childRange]
  | file i => simp [Node.childRange]

theorem childRanges_append (l m : List Node) : childRanges (l ++ m) = childRanges l ++ childRanges m :=
  List.filterMap_append

namespace Flatten
variable {C : Config} {E : Eytzinger} {n : ℕ}

theorem childIndex_intern {st st' : Flatten} {name : Str} {i : ℕ}
    (h : st.intern name = some (st', i)) : st'.childIndex = st.childIndex := by
  rw [intern] at h
  split at h
  · cases h
    rfl
  · dsimp only at h
    split_ifs at h
    cases h
    rfl

/-- The subdirectories of a branch get ranges one after the other. -/
theorem childRanges_pushNodes {b : Branch} : ∀ {st st' : Flatten} {new : List Node}
    {subs : List Branch}, pushNodes b st = some (st', new, subs) →
      childRanges new = rangesFrom st.childIndex (subs.map fun s => s.length % 2 ^ 32) := by
  induction b with
  | nil =>
    intro st st' new subs h
    cases h
    rfl
  | leaf name i rest ih =>
    intro st st' new subs h
    rw [pushNodes] at h
    obtain ⟨⟨st₁, index⟩, hi, h⟩ := Option.bind_eq_some_iff.1 h
    obtain ⟨⟨st₂, nodes, queue⟩, hrest, h⟩ := Option.bind_eq_some_iff.1 h
    cases h
    have hnew : childRanges (⟨.file i, index⟩ :: nodes) = childRanges nodes := rfl
    rw [hnew, ih hrest, childIndex_intern hi]
  | branch name sub rest _ ih =>
    intro st st' new subs h
    rw [pushNodes] at h
    obtain ⟨⟨st₁, index⟩, hi, h⟩ := Option.bind_eq_some_iff.1 h
    dsimp only at h
    split_ifs at h with hlt
    obtain ⟨⟨st₂, nodes, queue⟩, hrest, h⟩ := Option.bind_eq_some_iff.1 h
    cases h
    have hnew : childRanges (⟨.dir st₁.childIndex (sub.length % 2 ^ 32), index⟩ :: nodes) =
        (st₁.childIndex, sub.length % 2 ^ 32) :: childRanges nodes := rfl
    rw [hnew, ih hrest, List.map_cons, rangesFrom, childIndex_intern hi]

/-- **The child ranges follow each other** up to the end of the nodes. -/
theorem childRanges_run : ∀ {fuel : ℕ} {queue : List Branch} {st st' : Flatten}
    {nodes nodes' : List Node}, (∀ b ∈ queue, b.Wf C n) → Interned st →
      st.childIndex = nodes.length + counts queue → run E fuel queue st nodes = some (st', nodes') →
      ∃ lens, (childRanges nodes').Perm (childRanges nodes ++ rangesFrom st.childIndex lens) ∧
        nodes'.length = st.childIndex + lens.sum
  | fuel, [], st, st', nodes, nodes', _, _, hci, h => by
    rw [run_nil] at h
    cases h
    exact ⟨[], by simp [rangesFrom], by simpa using hci.symm⟩
  | 0, b :: queue, _, _, _, _, _, _, _, h => by cases h
  | fuel + 1, b :: queue, st, st', nodes, nodes', hwf, hst, hci, h => by
    obtain ⟨⟨st₁, new, subs⟩, h1, h2⟩ := Option.bind_eq_some_iff.1 h
    have hb := hwf b List.mem_cons_self
    have hp := pushed_pushNodes hb hst h1
    have hperm : (E.eytzingerize (sortNodes st₁.names new)).Perm new :=
      (E.perm _).trans (sortNodes_perm _ _)
    have hwf' : ∀ s ∈ queue ++ subs, s.Wf C n := by
      intro s hs
      rcases List.mem_append.1 hs with hs | hs
      · exact hwf s (List.mem_cons_of_mem b hs)
      · obtain ⟨name, hg⟩ := hp.subs s hs
        exact (hb.get hg).2.2
    have hci' : st₁.childIndex =
        (nodes ++ E.eytzingerize (sortNodes st₁.names new)).length + counts (queue ++ subs) := by
      rw [counts_cons, Nat.mod_eq_of_lt (hp.length_lt hb)] at hci
      rw [hp.childIndex, hci, List.length_append, hperm.length_eq, hp.length, counts_append]
      omega
    obtain ⟨lens, hranges, hlen⟩ := childRanges_run hwf' hp.interned hci' h2
    have hsum : st₁.childIndex = st.childIndex + (subs.map fun s => s.length % 2 ^ 32).sum :=
      hp.childIndex
    refine ⟨(subs.map fun s => s.length % 2 ^ 32) ++ lens, ?_, ?_⟩
    · rw [rangesFrom_append, ← hsum, ← childRanges_pushNodes h1, ← List.append_assoc]
      refine hranges.trans (List.Perm.append_right _ ?_)
      rw [childRanges_append]
      exact (hperm.filterMap _).append_left _
    · rw [hlen, hsum, List.sum_append, Nat.add_assoc]

end Flatten

/-- **The child ranges of a flattened object** are permuted ranges that follow
    each other from the second node to the last. -/
theorem RofsObject.IntoRofs.childRanges {C : Config} {T : Type} {E : Eytzinger}
    {obj : RofsObject C T} {fs : Rofs C T} {b : Branch} (h : obj.IntoRofs E fs)
    (hb : obj.branch = some b) : ∃ lens, (childRanges fs.nodes).Perm (rangesFrom 1 lens) ∧
      fs.nodes.length = 1 + lens.sum := by
  obtain ⟨root, hroot, h⟩ := h
  rcases obj.cases_root with ⟨-, -, hn⟩ | ⟨b₀, hr, -, hwf⟩
  · rw [hn] at hb
    cases hb
  obtain ⟨b', rfl, hb'⟩ := hroot.root hr
  rw [intoRofs_root] at h
  split_ifs at h with hlt
  obtain ⟨⟨st', nodes'⟩, hrun, rfl⟩ := Option.map_eq_some_iff.1 h
  have hqueue : ∀ s ∈ [b'], s.Wf C obj.files.length := by
    intro s hs
    rw [List.mem_singleton.1 hs]
    exact (hb'.same hwf).wf
  obtain ⟨lens, hperm, hlen⟩ := Flatten.childRanges_run hqueue (Flatten.interned_afterRoot b')
    (by simp [Flatten.afterRoot]) hrun
  refine ⟨b'.length % 2 ^ 32 :: lens, hperm, ?_⟩
  rw [List.sum_cons, ← Nat.add_assoc]
  exact hlen

/-! ## The invariant -/

namespace Rofs
variable {C : Config} {T : Type}

/-- The node `k` is in the child range of the directory node `d`. -/
def Owns (fs : Rofs C T) (d k : ℕ) : Prop :=
  ∃ node r, fs.nodes[d]? = some node ∧ node.childRange = some r ∧ InRange k r

/-- The paths of the nodes: the root has none, and a child that of its directory
    and its name. -/
inductive At (fs : Rofs C T) : ℕ → List Str → Prop
  | root : At fs 0 []
  | child {d k p node} : At fs d p → fs.Owns d k → fs.nodes[k]? = some node →
      At fs k (p ++ [fs.nodeName node])

/-- The nodes represent a tree. -/
structure Represents (fs : Rofs C T) (t : PathTree Str ℕ) : Prop where
  /-- the first node is the root directory -/
  root : ∃ node r, fs.nodes[0]? = some node ∧ node.childRange = some r ∧ fs.nodeName node = []
  /-- ranges are in bounds and start after their owner -/
  range : ∀ (d : ℕ) (node : Node) (r : ℕ × ℕ), fs.nodes[d]? = some node →
    node.childRange = some r → d < r.1 ∧ r.1 + r.2 ≤ fs.nodes.length
  /-- ranges are disjoint -/
  disjoint : ∀ d d' k, fs.Owns d k → fs.Owns d' k → d = d'
  /-- and contain every index except 0 -/
  covered : ∀ k, 0 < k → k < fs.nodes.length → ∃ d, fs.Owns d k
  /-- so that every node has one path -/
  path : ∀ k, k < fs.nodes.length → ∃! p, fs.At k p
  /-- where the tree has what the node says -/
  kind : ∀ k p node, fs.At k p → fs.nodes[k]? = some node → t.kind p = some node.kind
  /-- a range holds exactly the children of its directory -/
  children : ∀ (d : ℕ) (p : List Str) (node : Node) (r : ℕ × ℕ), fs.At d p →
    fs.nodes[d]? = some node → node.childRange = some r → ∀ c, t.kind (p ++ [c]) ≠ none ↔
      ∃ k child, InRange k r ∧ fs.nodes[k]? = some child ∧ fs.nodeName child = c
  /-- files exist -/
  file : ∀ node ∈ fs.nodes, ∀ i, node.content = .file i → i < fs.files.length
  /-- names stand behind their length bytes -/
  nameAt : ∀ node ∈ fs.nodes, NameAt fs.names node.nameIndex (fs.nodeName node)
  /-- the names of one range differ -/
  distinct : ∀ d k k' child child', fs.Owns d k → fs.Owns d k' → fs.nodes[k]? = some child →
    fs.nodes[k']? = some child' → fs.nodeName child = fs.nodeName child' → k = k'
  /-- and are non-empty, in lowercase, not `"."`, and free of separators -/
  isName : ∀ k node, 0 < k → fs.nodes[k]? = some node → Branch.IsName C (fs.nodeName node)

/-! ## Nodes of a tree -/

end Rofs

/-- What a path leads to below a node of a tree. -/
def TreeNode.kindAt : TreeNode → List Str → Option (Kind ℕ)
  | .leaf i, p => if p = [] then some (.file i) else none
  | .branch s, p => s.kindAt p

theorem Branch.kindAt_of_get {b : Branch} {c : Str} {t : TreeNode} {p : List Str}
    (h : b.get c = some t) : b.kindAt (c :: p) = t.kindAt p := by
  rw [kindAt_cons, h]
  cases t <;> rfl

namespace Rofs
variable {C : Config} {T : Type} {E : Eytzinger} {n : ℕ} {fs : Rofs C T} {root : Branch}

theorem ShowsNode.kindAt_nil {t : TreeNode} {node : Node} (h : fs.ShowsNode E t node) :
    t.kindAt [] = some node.kind := by
  cases t with
  | leaf i => rw [h.kind_leaf]; rfl
  | branch s => rw [h.kind_branch, TreeNode.kindAt, Branch.kindAt_nil]

/-- The node shows what the tree has at the path. -/
structure ShownAt (E : Eytzinger) (n : ℕ) (fs : Rofs C T) (tree : PathTree Str ℕ) (p : List Str)
    (t : TreeNode) (node : Node) : Prop where
  shows : fs.ShowsNode E t node
  wf : ∀ s, t = .branch s → s.Wf C n
  kindAt : ∀ q, tree.kind (p ++ q) = t.kindAt q

/-- A child of a directory node shows an entry of its branch. -/
theorem ShowsNode.child {s : Branch} {node : Node} {r : ℕ × ℕ} {k : ℕ}
    (h : fs.ShowsNode E (.branch s) node) (hs : s.Wf C n) (hr : node.childRange = some r)
    (hk : InRange k r) : ∃ child c t, fs.nodes[k]? = some child ∧ s.get c = some t ∧
      NameAt fs.names child.nameIndex c ∧ fs.ShowsNode E t child := by
  obtain ⟨_, raw, hcontent, hshows, hl⟩ := h
  rw [childRange_eq_some, hcontent] at hr
  obtain ⟨start, count⟩ := r
  cases hr
  obtain ⟨hk1, hk2⟩ := hk
  -- the slice is as long as the branch
  obtain ⟨i, rfl⟩ := Nat.exists_eq_add_of_le hk1
  have hlen : (fs.slice start (start + raw.length)).length = raw.length := by
    obtain ⟨sorted, hperm, -, hslice⟩ := hl
    rw [slice, Nat.add_sub_cancel_left, hslice, (E.perm sorted).length_eq, hperm.length_eq]
  have hi : i < (fs.slice start (start + raw.length)).length := by
    rw [hlen, hshows.length]
    exact Nat.lt_of_add_lt_add_left hk2
  obtain ⟨hraw, hnode⟩ := hl.get (List.getElem?_eq_getElem hi)
  obtain ⟨c, t, hg, hat, ht⟩ := hshows.of_mem hs hraw
  exact ⟨_, c, t, hnode, hg, hat, ht⟩

/-- An entry of the branch of a directory node is shown by one of its children. -/
theorem ShowsNode.exists_child {s : Branch} {node : Node} {r : ℕ × ℕ} {c : Str} {t : TreeNode}
    (h : fs.ShowsNode E (.branch s) node) (hs : s.Wf C n) (hr : node.childRange = some r)
    (hg : s.get c = some t) : ∃ k child, InRange k r ∧ fs.nodes[k]? = some child ∧
      fs.nodeName child = c := by
  obtain ⟨_, raw, hcontent, hshows, hl⟩ := h
  rw [childRange_eq_some, hcontent] at hr
  obtain ⟨start, count⟩ := r
  cases hr
  rcases search_laid hshows hl hs c with ⟨hn, -⟩ | ⟨t', k, child, -, -, hk, hnode, hat, -⟩
  · rw [hn] at hg
    cases hg
  · have hlt : k < s.length := by
      have hk' := (List.getElem?_eq_some_iff.1 hk).1
      rw [slice, Nat.add_sub_cancel_left, List.length_take] at hk'
      omega
    exact ⟨start + k, child, ⟨Nat.le_add_right _ _, Nat.add_lt_add_left hlt _⟩, hnode,
      nodeName_of_nameAt hat⟩

/-- Children of one directory node with the same name are the same. -/
theorem ShowsNode.child_unique {s : Branch} {node : Node} {r : ℕ × ℕ} {k k' : ℕ} {a a' : Node}
    (h : fs.ShowsNode E (.branch s) node) (hr : node.childRange = some r) (hk : InRange k r)
    (hk' : InRange k' r) (ha : fs.nodes[k]? = some a) (ha' : fs.nodes[k']? = some a')
    (hkey : fs.nodeKey a = fs.nodeKey a') : k = k' := by
  obtain ⟨_, raw, hcontent, hshows, hl⟩ := h
  rw [childRange_eq_some, hcontent] at hr
  obtain ⟨start, count⟩ := r
  cases hr
  obtain ⟨i, rfl⟩ := Nat.exists_eq_add_of_le hk.1
  obtain ⟨j, rfl⟩ := Nat.exists_eq_add_of_le hk'.1
  have hslice : ∀ {i : ℕ} {a : Node}, InRange (start + i) (start, s.length) →
      fs.nodes[start + i]? = some a → (fs.slice start (start + raw.length))[i]? = some a := by
    intro i a hi hat
    rw [slice, Nat.add_sub_cancel_left, hshows.length,
      List.getElem?_take_of_lt (Nat.lt_of_add_lt_add_left hi.2), List.getElem?_drop, hat]
  rw [hl.unique (hslice hk ha) (hslice hk' ha') hkey]

/-- **Every node shows what the tree has at its path.** -/
theorem At.shown {node₀ : Node} (hroot : fs.Root E root node₀) (hwf : root.Wf C n) {k : ℕ}
    {p : List Str} (h : fs.At k p) : ∃ node t, fs.nodes[k]? = some node ∧
      fs.ShownAt E n root.tree p t node := by
  induction h with
  | root =>
    refine ⟨node₀, .branch root, hroot.first, hroot.shows, ?_, fun q => rfl⟩
    intro s hs
    cases hs
    exact hwf
  | @child d k p child hat howns hk ih =>
    obtain ⟨node, t, hnode, hshown⟩ := ih
    obtain ⟨node', r, hnode', hr, hkr⟩ := howns
    obtain rfl : node = node' := Option.some.inj (hnode.symm.trans hnode')
    cases t with
    | leaf i =>
      rw [childRange_eq_some, show node.content = _ from hshown.shows] at hr
      cases hr
    | branch s =>
      have hs := hshown.wf s rfl
      obtain ⟨child', c, t, hk', hg, hname, ht⟩ := hshown.shows.child hs hr hkr
      obtain rfl : child = child' := Option.some.inj (hk.symm.trans hk')
      rw [nodeName_of_nameAt hname]
      refine ⟨child, t, hk, ht, ?_, fun q => ?_⟩
      · rintro s' rfl
        exact (hs.get hg).2.2
      rw [List.append_assoc, hshown.kindAt]
      exact Branch.kindAt_of_get hg

/-! ## Paths -/

/-- A child comes after its directory. -/
theorem Owns.lt (hfwd : Flatten.Forward fs.nodes) {d k : ℕ} (h : fs.Owns d k) : d < k := by
  obtain ⟨node, r, hnode, hr, hk⟩ := h
  obtain ⟨content, nameIndex⟩ := node
  obtain rfl : content = _ := childRange_eq_some.1 hr
  exact lt_of_lt_of_le (hfwd d _ _ _ hnode) hk.1

/-- If every node but the first has an owner, every node has a path. -/
theorem exists_at (hfwd : Flatten.Forward fs.nodes)
    (hcover : ∀ k, 0 < k → k < fs.nodes.length → ∃ d, fs.Owns d k) {k : ℕ}
    (hk : k < fs.nodes.length) : ∃ p, fs.At k p := by
  induction k using Nat.strongRecOn with
  | ind k ih =>
    rcases Nat.eq_zero_or_pos k with rfl | hpos
    · exact ⟨[], .root⟩
    · obtain ⟨d, howns⟩ := hcover k hpos hk
      have hlt := howns.lt hfwd
      obtain ⟨p, hp⟩ := ih d hlt (hlt.trans hk)
      exact ⟨_, hp.child howns (List.getElem?_eq_getElem hk)⟩

/-- If no node has two owners, no node has two paths. -/
theorem At.unique (hfwd : Flatten.Forward fs.nodes)
    (hdisjoint : ∀ d d' k, fs.Owns d k → fs.Owns d' k → d = d') {k : ℕ} {p p' : List Str}
    (h : fs.At k p) (h' : fs.At k p') : p = p' := by
  induction h generalizing p' with
  | root =>
    cases h' with
    | root => rfl
    | child _ howns _ => exact absurd (howns.lt hfwd) (Nat.not_lt_zero _)
  | @child d k p node _ howns hk ih =>
    cases h' with
    | root => exact absurd (howns.lt hfwd) (Nat.not_lt_zero _)
    | @child d' _ p' node' hat' howns' hk' =>
      obtain rfl := hdisjoint d d' k howns howns'
      obtain rfl : node = node' := Option.some.inj (hk.symm.trans hk')
      rw [ih hat']

/-! ## Flattened objects -/

end Rofs

namespace RofsObject.IntoRofs
variable {C : Config} {T : Type} {E : Eytzinger} {obj : RofsObject C T} {fs : Rofs C T} {b : Branch}

/-- Ranges are in bounds. -/
theorem range_le (h : obj.IntoRofs E fs) (hb : obj.branch = some b) {d : ℕ} {node : Node}
    {r : ℕ × ℕ} (hnode : fs.nodes[d]? = some node) (hr : node.childRange = some r) :
    r.1 + r.2 ≤ fs.nodes.length := by
  obtain ⟨lens, hperm, hlen⟩ := h.childRanges hb
  have hmem : r ∈ rangesFrom 1 lens :=
    hperm.mem_iff.1 (List.mem_filterMap.2 ⟨node, List.mem_of_getElem? hnode, hr⟩)
  rw [hlen]
  exact (bounds_rangesFrom hmem).2

/-- Every node but the first has exactly one owner. -/
theorem existsUnique_owns (h : obj.IntoRofs E fs) (hb : obj.branch = some b) {k : ℕ} (hk : 0 < k)
    (hk' : k < fs.nodes.length) : ∃! d, fs.Owns d k := by
  obtain ⟨lens, hperm, hlen⟩ := h.childRanges hb
  exact existsUnique_inRange hperm hk (by rwa [← hlen])

/-- No node has two owners. -/
theorem owns_unique (h : obj.IntoRofs E fs) (hb : obj.branch = some b) {d d' k : ℕ}
    (hd : fs.Owns d k) (hd' : fs.Owns d' k) : d = d' := by
  have hpos : 0 < k := Nat.zero_lt_of_lt (hd.lt h.flattened.2.forward)
  have hlt : k < fs.nodes.length := by
    obtain ⟨node, r, hnode, hr, hk⟩ := hd
    exact lt_of_lt_of_le hk.2 (h.range_le hb hnode hr)
  exact (h.existsUnique_owns hb hpos hlt).unique hd hd'

/-- Every node but the first has an owner. -/
theorem covered (h : obj.IntoRofs E fs) (hb : obj.branch = some b) (k : ℕ) (hk : 0 < k)
    (hk' : k < fs.nodes.length) : ∃ d, fs.Owns d k := (h.existsUnique_owns hb hk hk').exists

/-- Every node shows what the tree has at its path. -/
theorem shownAt (h : obj.IntoRofs E fs) (hb : obj.branch = some b) {k : ℕ} {p : List Str} {node : Node}
    (hat : fs.At k p) (hnode : fs.nodes[k]? = some node) :
    ∃ t, fs.ShownAt E obj.files.length obj.tree p t node := by
  obtain ⟨b', node₀, hsame, hroot⟩ := h.flattened.2.of_some b hb
  have htree : obj.tree = b'.tree := by
    rw [tree_of_branch hb]
    ext1; funext p
    exact (hsame.kindAt p).symm
  obtain ⟨node', t, hnode', hshown⟩ := hat.shown hroot hsame.wf
  obtain rfl : node = node' := Option.some.inj (hnode.symm.trans hnode')
  rw [htree]
  exact ⟨t, hshown⟩

/-- A directory node shows a branch of the tree. -/
theorem shownAt_branch (h : obj.IntoRofs E fs) (hb : obj.branch = some b) {d : ℕ} {p : List Str}
    {node : Node} {r : ℕ × ℕ} (hat : fs.At d p) (hnode : fs.nodes[d]? = some node)
    (hr : node.childRange = some r) :
    ∃ s, fs.ShownAt E obj.files.length obj.tree p (.branch s) node := by
  obtain ⟨t, hshown⟩ := h.shownAt hb hat hnode
  cases t with
  | leaf i =>
    rw [childRange_eq_some, show node.content = _ from hshown.shows] at hr
    cases hr
  | branch s => exact ⟨s, hshown⟩

/-- A child has one of the names of the tree. -/
theorem child_named (h : obj.IntoRofs E fs) (hb : obj.branch = some b) {d k : ℕ} {child : Node}
    (howns : fs.Owns d k) (hk : fs.nodes[k]? = some child) :
    ∃ c, NameAt fs.names child.nameIndex c ∧ Branch.IsName C c := by
  obtain ⟨node, r, hnode, hr, hkr⟩ := howns
  obtain ⟨p, hat⟩ := Rofs.exists_at h.flattened.2.forward (h.covered hb)
    (List.getElem?_eq_some_iff.1 hnode).1
  obtain ⟨s, hs⟩ := h.shownAt_branch hb hat hnode hr
  obtain ⟨child', c, t, hk', hg, hname, -⟩ := hs.shows.child (hs.wf s rfl) hr hkr
  obtain rfl : child = child' := Option.some.inj (hk.symm.trans hk')
  exact ⟨c, hname, ((hs.wf s rfl).get hg).1⟩

/-- A range holds exactly the children of its directory. -/
theorem children_iff (h : obj.IntoRofs E fs) (hb : obj.branch = some b) {d : ℕ} {p : List Str}
    {node : Node} {r : ℕ × ℕ} (hat : fs.At d p) (hnode : fs.nodes[d]? = some node)
    (hr : node.childRange = some r) (c : Str) : obj.tree.kind (p ++ [c]) ≠ none ↔
      ∃ k child, InRange k r ∧ fs.nodes[k]? = some child ∧ fs.nodeName child = c := by
  obtain ⟨s, hs⟩ := h.shownAt_branch hb hat hnode hr
  rw [hs.kindAt]
  constructor
  · intro hne
    rcases hg : s.get c with _ | t
    · exact absurd (by rw [TreeNode.kindAt, Branch.kindAt_cons, hg]) hne
    · exact hs.shows.exists_child (hs.wf s rfl) hr hg
  · rintro ⟨k, child, hk, hnodek, rfl⟩
    obtain ⟨child', c, t, hnodek', hg, hname, ht⟩ := hs.shows.child (hs.wf s rfl) hr hk
    obtain rfl : child = child' := Option.some.inj (hnodek.symm.trans hnodek')
    rw [Rofs.nodeName_of_nameAt hname, TreeNode.kindAt, Branch.kindAt_of_get hg, ht.kindAt_nil]
    simp

/-- The names of one range differ. -/
theorem child_distinct (h : obj.IntoRofs E fs) (hb : obj.branch = some b) {d k k' : ℕ}
    {child child' : Node} (hd : fs.Owns d k) (hd' : fs.Owns d k') (hk : fs.nodes[k]? = some child)
    (hk' : fs.nodes[k']? = some child') (heq : fs.nodeName child = fs.nodeName child') : k = k' := by
  obtain ⟨c, hname, -⟩ := h.child_named hb hd hk
  obtain ⟨c', hname', -⟩ := h.child_named hb hd' hk'
  rw [Rofs.nodeName_of_nameAt hname, Rofs.nodeName_of_nameAt hname'] at heq
  obtain ⟨node, r, hnode, hr, hkr⟩ := hd
  obtain ⟨node', r', hnode', hr', hkr'⟩ := hd'
  obtain rfl : node = node' := Option.some.inj (hnode.symm.trans hnode')
  obtain rfl : r = r' := Option.some.inj (hr.symm.trans hr')
  obtain ⟨p, hat⟩ := Rofs.exists_at h.flattened.2.forward (h.covered hb)
    (List.getElem?_eq_some_iff.1 hnode).1
  obtain ⟨s, hs⟩ := h.shownAt_branch hb hat hnode hr
  refine hs.shows.child_unique hr hkr hkr' hk hk' ?_
  rw [Rofs.nodeKey, Rofs.nodeKey, hname.nameBytes, hname'.nameBytes, heq]

/-- The root is the first node, and its name is empty. -/
theorem first_node (h : obj.IntoRofs E fs) (hb : obj.branch = some b) : ∃ node r,
    fs.nodes[0]? = some node ∧ node.childRange = some r ∧ NameAt fs.names node.nameIndex [] := by
  obtain ⟨b', node, -, hroot⟩ := h.flattened.2.of_some b hb
  obtain ⟨start, raw, hcontent, -⟩ := hroot.shows
  exact ⟨node, (start, b'.length), hroot.first, childRange_eq_some.2 hcontent, hroot.name⟩

/-- **The nodes of a flattened object represent its tree.** -/
theorem represents (h : obj.IntoRofs E fs) (hb : obj.branch = some b) : fs.Represents obj.tree := by
  have hfwd := h.flattened.2.forward
  constructor
  case root =>
    obtain ⟨node, r, hnode, hr, hname⟩ := h.first_node hb
    exact ⟨node, r, hnode, hr, Rofs.nodeName_of_nameAt hname⟩
  case range =>
    intro d node r hnode hr
    obtain ⟨content, nameIndex⟩ := node
    obtain rfl : content = _ := childRange_eq_some.1 hr
    exact ⟨hfwd d _ _ _ hnode, h.range_le hb hnode hr⟩
  case disjoint =>
    intro d d' k hd hd'
    exact h.owns_unique hb hd hd'
  case covered => exact h.covered hb
  case path =>
    intro k hk
    obtain ⟨p, hp⟩ := Rofs.exists_at hfwd (h.covered hb) hk
    exact ⟨p, hp, fun p' hp' => hp'.unique hfwd (fun _ _ _ => h.owns_unique hb) hp⟩
  case kind =>
    intro k p node hat hnode
    obtain ⟨t, hshown⟩ := h.shownAt hb hat hnode
    have hk := hshown.kindAt []
    rwa [List.append_nil, hshown.shows.kindAt_nil] at hk
  case children =>
    intro d p node r hat hnode hr c
    exact h.children_iff hb hat hnode hr c
  case file =>
    intro node hnode i hi
    exact h.file_lt hnode hi
  case nameAt =>
    intro node hnode
    obtain ⟨k, hk⟩ := List.mem_iff_getElem?.1 hnode
    rcases Nat.eq_zero_or_pos k with rfl | hpos
    · obtain ⟨node₀, _, hnode₀, -, hname⟩ := h.first_node hb
      obtain rfl : node₀ = node := Option.some.inj (hnode₀.symm.trans hk)
      rwa [Rofs.nodeName_of_nameAt hname]
    · obtain ⟨d, howns⟩ := h.covered hb k hpos (List.getElem?_eq_some_iff.1 hk).1
      obtain ⟨c, hname, -⟩ := h.child_named hb howns hk
      rwa [Rofs.nodeName_of_nameAt hname]
  case distinct =>
    intro d k k' child child' hd hd' hk hk' heq
    exact h.child_distinct hb hd hd' hk hk' heq
  case isName =>
    intro k node hpos hk
    obtain ⟨d, howns⟩ := h.covered hb k hpos (List.getElem?_eq_some_iff.1 hk).1
    obtain ⟨c, hname, hc⟩ := h.child_named hb howns hk
    rwa [Rofs.nodeName_of_nameAt hname]

end RofsObject.IntoRofs

end Fsvfs
