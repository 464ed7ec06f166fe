/-
  What `into_rofs` lays out: in the flattened filesystem every branch of the
  object is a slice of the nodes, in Eytzinger order of its names.

  `fs.Shows b raw` says that the nodes `raw` stand for the entries of `b`, and
  `fs.Laid start raw` that they are the slice at `start`.  The loop queues the
  branches it has promised a place; `fs.Queued start queue` says that they
  really are there in the end (`shows_pushNodes`, `queued_run`).

  * `intoRofs_shows`: the nodes of `into_rofs` show the object;
  * `run_isSome`: the loop does not run out of fuel, and it panics only if the
    tree does not fit in a `u32`.
-/
import Mathlib.Data.List.Perm.Subperm
import Fsvfs.Filesystem.Rofs
import Fsvfs.Filesystem.Tree

namespace Fsvfs

open Lib

/-! ## Names -/

/-- The length-prefixed name `name` stands at index `i`. -/
def NameAt (names : List UInt8) (i : ℕ) (name : Str) : Prop :=
  ∃ pre post, names = pre ++ UInt8.ofNat name.bytes.length :: name.bytes ++ post ∧
    pre.length = i ∧ name.bytes.length ≤ 255

theorem NameAt.append {names more : List UInt8} {i : ℕ} {name : Str} (h : NameAt names i name) :
    NameAt (names ++ more) i name := by
  obtain ⟨pre, post, rfl, hi, hlen⟩ := h
  exact ⟨pre, post ++ more, by simp, hi, hlen⟩

theorem NameAt.mono {names names' : List UInt8} {i : ℕ} {name : Str} (h : NameAt names i name)
    (hp : names <+: names') : NameAt names' i name := by
  obtain ⟨more, rfl⟩ := hp
  exact h.append

theorem NameAt.nameBytes {names : List UInt8} {i : ℕ} {name : Str} (h : NameAt names i name) :
    nameBytes names i = name.bytes := by
  obtain ⟨pre, post, rfl, rfl, hlen⟩ := h
  have hn : (UInt8.ofNat name.bytes.length).toNat = name.bytes.length := by
    rw [UInt8.toNat_ofNat']; omega
  simp [Fsvfs.nameBytes, hn]

theorem byteKey_injective : Function.Injective byteKey :=
  List.map_injective_iff.2 fun _ _ h => UInt8.toNat_inj.1 h

@[simp] theorem byteKey_inj {a b : List UInt8} : byteKey a = byteKey b ↔ a = b :=
  byteKey_injective.eq_iff

namespace Flatten

/-- The interned names stand where they are said to.  There are so few that
    the length of a branch fits in a `u32`. -/
structure Interned (st : Flatten) : Prop where
  nameAt : ∀ name i, (name, i) ∈ st.namesInterned → NameAt st.names i name
  count : 2 * st.namesInterned.length ≤ st.names.length + 1
  bound : st.namesInterned.length ≤ 2 ^ 31 + 1

/-- What interning a name does. -/
structure InternSpec (st : Flatten) (name : Str) (st' : Flatten) (i : ℕ) : Prop where
  interned : Interned st'
  names : st.names <+: st'.names
  childIndex : st'.childIndex = st.childIndex
  nameAt : NameAt st'.names i name
  mem : name ∈ st'.namesInterned.map Prod.fst
  keeps : st.namesInterned ⊆ st'.namesInterned

theorem mem_of_lookup {l : List (Str × ℕ)} {name : Str} {i : ℕ} (h : l.lookup name = some i) :
    (name, i) ∈ l := by
  obtain ⟨l₁, l₂, rfl, -⟩ := List.lookup_eq_some_iff.1 h
  simp

theorem intern_spec {st st' : Flatten} {name : Str} {i : ℕ} (hst : Interned st) (hne : name ≠ [])
    (hlen : name.bytes.length ≤ 255) (h : st.intern name = some (st', i)) :
    InternSpec st name st' i := by
  unfold intern at h
  rcases hl : st.namesInterned.lookup name with _ | j
  · simp only [hl] at h
    split_ifs at h with hi
    cases h
    have hpos : 0 < name.bytes.length := by
      rw [List.length_pos_iff]
      exact fun h => hne (Str.bytes_injective (h.trans (by rfl : ([] : List UInt8) = Str.bytes [])))
    have hat : NameAt (st.names ++ UInt8.ofNat name.bytes.length :: name.bytes) st.names.length name :=
      ⟨st.names, [], by simp, rfl, hlen⟩
    have hc := hst.count
    refine ⟨⟨fun n j hmem => ?_, ?_, ?_⟩, List.prefix_append _ _, rfl, hat, by simp,
      List.subset_cons_self _ _⟩
    · rcases List.mem_cons.1 hmem with heq | hmem
      · cases heq; exact hat
      · exact (hst.nameAt n j hmem).append
    · simp only [List.length_cons, List.length_append]; omega
    · simp only [List.length_cons]; omega
  · simp only [hl] at h
    cases h
    have hmem := mem_of_lookup hl
    exact ⟨hst, List.prefix_refl _, rfl, hst.nameAt _ _ hmem, List.mem_map.2 ⟨_, hmem, rfl⟩,
      List.Subset.refl _⟩

end Flatten

/-! ## Names and directories of a tree -/

namespace Branch
variable {C : Config} {n : ℕ}

theorem Wf.nodup_keys {b : Branch} (h : b.Wf C n) : b.keys.Nodup := by
  induction b with
  | nil => exact List.nodup_nil
  | leaf name i rest ih => exact List.nodup_cons.2 ⟨h.2.1, ih h.2.2.2⟩
  | branch name b rest _ ih => exact List.nodup_cons.2 ⟨h.2.1, ih h.2.2.2⟩

theorem length_keys {b : Branch} : b.keys.length = b.length := by
  induction b with
  | nil => rfl
  | leaf name i rest ih => simp [keys, length, ih]
  | branch name b rest _ ih => simp [keys, length, ih]

theorem get_cons_of_get {name c : Str} {t t' : TreeNode} {rest : Branch} (hk : name ∉ rest.keys)
    (hg : rest.get c = some t) : (cons name t' rest).get c = some t := by
  have hne : name ≠ c := by
    rintro rfl
    rw [get_eq_none_iff.2 hk] at hg; cases hg
  rw [get, if_neg hne, hg]

/-- The directories of a tree. -/
inductive Within (root : Branch) : Branch → Prop
  | refl : Within root root
  | sub {b s : Branch} {name : Str} : Within root b → b.get name = some (.branch s) → Within root s

theorem Within.wf {root b : Branch} (h : root.Within b) (hr : root.Wf C n) : b.Wf C n := by
  induction h with
  | refl => exact hr
  | sub _ hg ih => exact (ih.get hg).2.2

end Branch

/-! ## Nodes that show a branch -/

namespace Rofs
variable {C : Config} {T : Type}

/-- How the nodes of one directory are compared. -/
def nodeKey (fs : Rofs C T) (node : Node) : List ℕ := byteKey (nameBytes fs.names node.nameIndex)

variable (E : Eytzinger)

/-- The nodes `raw` of one directory are laid out at `start`. -/
def Laid (fs : Rofs C T) (start : ℕ) (raw : List Node) : Prop :=
  ∃ sorted : List Node, sorted.Perm raw ∧ (sorted.map fs.nodeKey).SortedLT ∧
    (fs.nodes.drop start).take raw.length = E.eytzingerize sorted

/-- The nodes `raw` stand for the entries of a branch. -/
def Shows (fs : Rofs C T) : Branch → List Node → Prop
  | .nil, raw => raw = []
  | .cons name (.leaf i) rest, raw => ∃ nameIndex nodes, raw = ⟨.file i, nameIndex⟩ :: nodes ∧
    NameAt fs.names nameIndex name ∧ fs.Shows rest nodes
  | .cons name (.branch b) rest, raw => ∃ childIndex nameIndex nodes sub,
    raw = ⟨.dir childIndex b.length, nameIndex⟩ :: nodes ∧ NameAt fs.names nameIndex name ∧
    fs.Shows b sub ∧ fs.Laid E childIndex sub ∧ fs.Shows rest nodes

/-- A node that stands for a tree node. -/
def ShowsNode (fs : Rofs C T) : TreeNode → Node → Prop
  | .leaf i, node => node.content = .file i
  | .branch b, node => ∃ childIndex sub, node.content = .dir childIndex b.length ∧
    fs.Shows E b sub ∧ fs.Laid E childIndex sub

/-- A node that stands for a file or for a directory of the tree. -/
def IsShown (root : Branch) (fs : Rofs C T) (node : Node) : Prop :=
  (∃ i, fs.ShowsNode E (.leaf i) node) ∨
    ∃ b : Branch, root.Within b ∧ fs.ShowsNode E (.branch b) node

/-- The branches of a queue are laid out one after the other. -/
def Queued (fs : Rofs C T) : ℕ → List Branch → Prop
  | _, [] => True
  | start, b :: queue => (∃ raw, fs.Shows E b raw ∧ fs.Laid E start raw) ∧
    fs.Queued (start + b.length) queue

variable {E} {fs : Rofs C T}

theorem ShowsNode.isShown {root b : Branch} {name : Str} {t : TreeNode} {node : Node}
    (h : fs.ShowsNode E t node) (hb : root.Within b) (hg : b.get name = some t) :
    fs.IsShown E root node := by
  cases t with
  | leaf i => exact Or.inl ⟨i, h⟩
  | branch s => exact Or.inr ⟨s, hb.sub hg, h⟩

theorem Shows.length {b : Branch} {raw : List Node} (h : fs.Shows E b raw) :
    raw.length = b.length := by
  induction b generalizing raw with
  | nil => cases h; rfl
  | leaf name i rest ih =>
    obtain ⟨_, nodes, rfl, -, h⟩ := h
    simp [Branch.length, ih h]
  | branch name b rest _ ih =>
    obtain ⟨_, _, nodes, _, rfl, -, -, -, h⟩ := h
    simp [Branch.length, ih h]

theorem queued_append {start : ℕ} {q r : List Branch} : fs.Queued E start (q ++ r) ↔
    fs.Queued E start q ∧ fs.Queued E (start + (q.map Branch.length).sum) r := by
  induction q generalizing start with
  | nil => simp [Queued]
  | cons b q ih => simp [Queued, ih, and_assoc, Nat.add_assoc]

/-- The keys of the nodes are those of the names. -/
theorem Shows.map_nodeKey {b : Branch} {raw : List Node} (h : fs.Shows E b raw) :
    raw.map fs.nodeKey = b.keys.map fun name => byteKey name.bytes := by
  induction b generalizing raw with
  | nil => cases h; rfl
  | leaf name i rest ih =>
    obtain ⟨_, nodes, rfl, hn, h⟩ := h
    simp [Branch.keys, ih h, nodeKey, hn.nameBytes]
  | branch name b rest _ ih =>
    obtain ⟨_, _, nodes, _, rfl, hn, -, -, h⟩ := h
    simp [Branch.keys, ih h, nodeKey, hn.nameBytes]

/-- The nodes are the entries under their names, one way. -/
theorem Shows.of_mem {n : ℕ} {b : Branch} {raw : List Node} (h : fs.Shows E b raw) (hb : b.Wf C n)
    {node : Node} (hn : node ∈ raw) :
    ∃ name t, b.get name = some t ∧ NameAt fs.names node.nameIndex name ∧ fs.ShowsNode E t node := by
  induction b generalizing raw with
  | nil => cases h; cases hn
  | leaf name i rest ih =>
    obtain ⟨_, nodes, rfl, hat, h⟩ := h
    rcases List.mem_cons.1 hn with rfl | hn
    · exact ⟨name, .leaf i, by simp [Branch.get], hat, rfl⟩
    · obtain ⟨c, t, hg, hc, ht⟩ := ih h hb.2.2.2 hn
      exact ⟨c, t, Branch.get_cons_of_get hb.2.1 hg, hc, ht⟩
  | branch name s rest _ ih =>
    obtain ⟨childIndex, _, nodes, sub, rfl, hat, hs, hl, h⟩ := h
    rcases List.mem_cons.1 hn with rfl | hn
    · exact ⟨name, .branch s, by simp [Branch.get], hat, childIndex, sub, rfl, hs, hl⟩
    · obtain ⟨c, t, hg, hc, ht⟩ := ih h hb.2.2.2 hn
      exact ⟨c, t, Branch.get_cons_of_get hb.2.1 hg, hc, ht⟩

end Rofs

/-! ## The loop over one branch -/

namespace Flatten

/-- The lengths of branches, as `u32`s. -/
def counts (queue : List Branch) : ℕ := (queue.map fun b => b.length % 2 ^ 32).sum

@[simp] theorem counts_nil : counts [] = 0 := rfl

@[simp] theorem counts_cons {b : Branch} {queue : List Branch} :
    counts (b :: queue) = b.length % 2 ^ 32 + counts queue := rfl

@[simp] theorem counts_append {q r : List Branch} : counts (q ++ r) = counts q + counts r := by
  simp [counts]

theorem counts_eq {queue : List Branch} (h : ∀ b ∈ queue, b.length < 2 ^ 32) :
    counts queue = (queue.map Branch.length).sum := by
  unfold counts
  congr 1
  exact List.map_congr_left fun b hb => Nat.mod_eq_of_lt (h b hb)

variable {C : Config} {T : Type} {E : Eytzinger} {n : ℕ}

/-- What the loop over one branch does. -/
structure Pushed (b : Branch) (st st' : Flatten) (new : List Node)
    (subs : List Branch) : Prop where
  interned : Interned st'
  names : st.names <+: st'.names
  childIndex : st'.childIndex = st.childIndex + counts subs
  lt : st.childIndex < 2 ^ 32 → st'.childIndex < 2 ^ 32
  length : new.length = b.length
  subs : ∀ s ∈ subs, ∃ name, b.get name = some (.branch s)
  forward : ∀ node ∈ new, ∀ childIndex childCount, node.content = .dir childIndex childCount →
    st.childIndex ≤ childIndex
  nameAt : ∀ node ∈ new, ∃ name, NameAt st'.names node.nameIndex name
  keys : b.keys ⊆ st'.namesInterned.map Prod.fst
  keeps : st.namesInterned ⊆ st'.namesInterned

theorem pushed_pushNodes : ∀ {b : Branch} {st st' : Flatten} {new : List Node} {subs : List Branch},
    b.Wf C n → Interned st → pushNodes b st = some (st', new, subs) → Pushed b st st' new subs
  | .nil, st, _, _, _, _, hst, h => by
    cases h
    exact ⟨hst, List.prefix_refl _, rfl, id, rfl, by simp, by simp, by simp,
      by simp [Branch.keys], List.Subset.refl _⟩
  | .cons name (.leaf i) rest, st, _, _, _, hb, hst, h => by
    obtain ⟨⟨st₁, nameIndex⟩, h1, h⟩ := Option.bind_eq_some_iff.1 h
    obtain ⟨⟨st₂, nodes, queue⟩, h2, h⟩ := Option.bind_eq_some_iff.1 h
    cases h
    have hi := intern_spec hst hb.1.ne_nil hb.1.len h1
    have hp := pushed_pushNodes hb.2.2.2 hi.interned h2
    refine ⟨hp.interned, hi.names.trans hp.names, by rw [hp.childIndex, hi.childIndex],
      fun hlt => hp.lt (by rwa [hi.childIndex]), by simp [Branch.length, hp.length], ?_, ?_,
      List.forall_mem_cons.2 ⟨⟨name, hi.nameAt.mono hp.names⟩, hp.nameAt⟩,
      List.cons_subset.2 ⟨List.map_subset _ hp.keeps hi.mem, hp.keys⟩,
      List.Subset.trans hi.keeps hp.keeps⟩
    · intro s hs
      obtain ⟨c, hc⟩ := hp.subs s hs
      exact ⟨c, Branch.get_cons_of_get hb.2.1 hc⟩
    · intro node hn childIndex childCount hcontent
      rcases List.mem_cons.1 hn with rfl | hn
      · cases hcontent
      · have := hp.forward node hn _ _ hcontent
        rwa [hi.childIndex] at this
  | .cons name (.branch s) rest, st, _, _, _, hb, hst, h => by
    obtain ⟨⟨st₁, nameIndex⟩, h1, h⟩ := Option.bind_eq_some_iff.1 h
    dsimp only at h
    split_ifs at h with hlt
    obtain ⟨⟨st₂, nodes, queue⟩, h2, h⟩ := Option.bind_eq_some_iff.1 h
    cases h
    have hi := intern_spec hst hb.1.ne_nil hb.1.len h1
    have hi' : Interned { st₁ with childIndex := st₁.childIndex + s.length % 2 ^ 32 } :=
      ⟨hi.interned.nameAt, hi.interned.count, hi.interned.bound⟩
    have hp := pushed_pushNodes hb.2.2.2 hi' h2
    refine ⟨hp.interned, hi.names.trans hp.names, ?_, fun _ => hp.lt hlt,
      by simp [Branch.length, hp.length], ?_, ?_,
      List.forall_mem_cons.2 ⟨⟨name, hi.nameAt.mono hp.names⟩, hp.nameAt⟩,
      List.cons_subset.2 ⟨List.map_subset _ hp.keeps hi.mem, hp.keys⟩,
      List.Subset.trans hi.keeps hp.keeps⟩
    · rw [hp.childIndex, counts_cons]
      dsimp only
      rw [hi.childIndex, Nat.add_assoc]
    · intro b hmem
      rcases List.mem_cons.1 hmem with rfl | hmem
      · exact ⟨name, by simp [Branch.get]⟩
      · obtain ⟨c, hc⟩ := hp.subs b hmem
        exact ⟨c, Branch.get_cons_of_get hb.2.1 hc⟩
    · intro node hn childIndex childCount hcontent
      rcases List.mem_cons.1 hn with rfl | hn
      · cases hcontent
        rw [hi.childIndex]
      · have := hp.forward node hn _ _ hcontent
        dsimp only at this
        rw [hi.childIndex] at this
        omega

/-- The length of a branch whose names are interned fits in a `u32`. -/
theorem Pushed.length_lt {b : Branch} {st st' : Flatten} {new : List Node} {subs : List Branch}
    (h : Pushed b st st' new subs) (hb : b.Wf C n) : b.length < 2 ^ 32 := by
  have h1 : b.keys.length ≤ (st'.namesInterned.map Prod.fst).length :=
    (hb.nodup_keys.subperm h.keys).length_le
  rw [Branch.length_keys, List.length_map] at h1
  have := h.interned.bound
  omega

/-- Once the queued branches are in their places, the nodes show the branch. -/
theorem shows_pushNodes {fs : Rofs C T} : ∀ {b : Branch} {st st' : Flatten} {new : List Node}
    {subs : List Branch}, b.Wf C n → Interned st → pushNodes b st = some (st', new, subs) →
      st'.names <+: fs.names → (∀ s ∈ subs, s.length < 2 ^ 32) →
      fs.Queued E st.childIndex subs → fs.Shows E b new
  | .nil, _, _, _, _, _, _, h, _, _, _ => by cases h; rfl
  | .cons name (.leaf i) rest, st, _, _, _, hb, hst, h, hnames, hlen, hq => by
    obtain ⟨⟨st₁, nameIndex⟩, h1, h⟩ := Option.bind_eq_some_iff.1 h
    obtain ⟨⟨st₂, nodes, queue⟩, h2, h⟩ := Option.bind_eq_some_iff.1 h
    cases h
    have hi := intern_spec hst hb.1.ne_nil hb.1.len h1
    have hp := pushed_pushNodes hb.2.2.2 hi.interned h2
    refine ⟨nameIndex, nodes, rfl, hi.nameAt.mono (hp.names.trans hnames), ?_⟩
    exact shows_pushNodes hb.2.2.2 hi.interned h2 hnames hlen (by rwa [hi.childIndex])
  | .cons name (.branch s) rest, st, _, _, _, hb, hst, h, hnames, hlen, hq => by
    obtain ⟨⟨st₁, nameIndex⟩, h1, h⟩ := Option.bind_eq_some_iff.1 h
    dsimp only at h
    split_ifs at h with hlt
    obtain ⟨⟨st₂, nodes, queue⟩, h2, h⟩ := Option.bind_eq_some_iff.1 h
    cases h
    have hi := intern_spec hst hb.1.ne_nil hb.1.len h1
    have hi' : Interned { st₁ with childIndex := st₁.childIndex + s.length % 2 ^ 32 } :=
      ⟨hi.interned.nameAt, hi.interned.count, hi.interned.bound⟩
    have hp := pushed_pushNodes hb.2.2.2 hi' h2
    have hs : s.length % 2 ^ 32 = s.length := Nat.mod_eq_of_lt (hlen s (by simp))
    obtain ⟨⟨sub, hsub, hlaid⟩, hrest⟩ := hq
    rw [← hi.childIndex] at hlaid hrest
    refine ⟨st₁.childIndex, nameIndex, nodes, sub, by rw [hs],
      hi.nameAt.mono (hp.names.trans hnames), hsub, hlaid, ?_⟩
    exact shows_pushNodes hb.2.2.2 hi' h2 hnames (fun b hb => hlen b (by simp [hb]))
      (by rw [hs]; exact hrest)

/-! ## The loop over the queue -/

theorem sortNodes_perm (names : List UInt8) (nodes : List Node) :
    (sortNodes names nodes).Perm nodes := List.perm_insertionSort _ _

/-- The nodes of a branch are laid out where the loop appends them. -/
theorem laid_sortNodes {fs : Rofs C T} {b : Branch} {new before after : List Node}
    {names : List UInt8} (hb : b.Wf C n) (hs : fs.Shows E b new)
    (hat : ∀ node ∈ new, nameBytes names node.nameIndex = nameBytes fs.names node.nameIndex)
    (hn : fs.nodes = before ++ E.eytzingerize (sortNodes names new) ++ after) :
    fs.Laid E before.length new := by
  refine ⟨sortNodes names new, sortNodes_perm _ _, ?_, ?_⟩
  · -- sorted by the names there were then, hence by the final ones
    have hle : ((sortNodes names new).map fs.nodeKey).SortedLE := by
      rw [List.sortedLE_iff_pairwise, List.pairwise_map]
      refine (List.pairwise_insertionSort _ _).imp_of_mem fun {x y} hx hy hxy => ?_
      have hx' := hat x ((sortNodes_perm _ _).mem_iff.1 hx)
      have hy' := hat y ((sortNodes_perm _ _).mem_iff.1 hy)
      rw [hx', hy'] at hxy
      exact hxy
    refine hle.sortedLT_of_nodup ?_
    rw [((sortNodes_perm names new).map fs.nodeKey).nodup_iff, hs.map_nodeKey]
    exact hb.nodup_keys.map fun x y h => by simpa using h
  · have hlen : (E.eytzingerize (sortNodes names new)).length = new.length :=
      ((E.perm _).trans (sortNodes_perm _ _)).length_eq
    rw [hn, List.append_assoc, List.drop_left, List.take_left' hlen]

@[simp] theorem run_nil {fuel : ℕ} {st : Flatten} {nodes : List Node} :
    run E fuel [] st nodes = some (st, nodes) := by cases fuel <;> rfl

/-- Every directory points forward. -/
def Forward (nodes : List Node) : Prop :=
  ∀ i childIndex childCount nameIndex : ℕ,
    nodes[i]? = some ⟨.dir childIndex childCount, nameIndex⟩ → i < childIndex

/-- What the loop over the queue ends with. -/
structure Ran (C : Config) (T : Type) (E : Eytzinger) (root : Branch) (queue : List Branch)
    (st : Flatten) (nodes : List Node) (st' : Flatten) (nodes' : List Node) : Prop where
  nodes_prefix : nodes <+: nodes'
  names_prefix : st.names <+: st'.names
  length_lt : nodes'.length < 2 ^ 32
  forward : Forward nodes → Forward nodes'
  counts : ∀ b ∈ queue, b.length < 2 ^ 32
  queued : ∀ fs : Rofs C T, fs.nodes = nodes' → fs.names = st'.names →
    fs.Queued E nodes.length queue
  shown : ∀ fs : Rofs C T, fs.nodes = nodes' → fs.names = st'.names →
    (∀ node ∈ nodes, fs.IsShown E root node) → ∀ node ∈ nodes', fs.IsShown E root node

/-- **Every queued branch gets the place it was promised.** -/
theorem queued_run {root : Branch} (hroot : root.Wf C n) : ∀ {fuel : ℕ} {queue : List Branch}
    {st st' : Flatten} {nodes nodes' : List Node}, (∀ b ∈ queue, root.Within b) → Interned st →
      st.childIndex = nodes.length + counts queue → st.childIndex < 2 ^ 32 →
      run E fuel queue st nodes = some (st', nodes') → Ran C T E root queue st nodes st' nodes'
  | fuel, [], st, _, nodes, _, _, _, hci, hlt, h => by
    rw [run_nil] at h
    cases h
    exact ⟨List.prefix_refl _, List.prefix_refl _, by simpa [hci] using hlt, id, by simp,
      fun _ _ _ => trivial, fun _ _ _ h => h⟩
  | 0, b :: queue, _, _, _, _, _, _, _, _, h => by cases h
  | fuel + 1, b :: queue, st, st', nodes, nodes', hwithin, hst, hci, hlt, h => by
    obtain ⟨⟨st₁, new, subs⟩, h1, h2⟩ := Option.bind_eq_some_iff.1 h
    have hbw : root.Within b := hwithin b (by simp)
    have hb : b.Wf C n := hbw.wf hroot
    have hp := pushed_pushNodes hb hst h1
    have hlenb := hp.length_lt hb
    have hperm : (E.eytzingerize (sortNodes st₁.names new)).Perm new :=
      (E.perm _).trans (sortNodes_perm _ _)
    have hlen : (E.eytzingerize (sortNodes st₁.names new)).length = b.length := by
      rw [hperm.length_eq, hp.length]
    -- the promise for the rest of the queue and for the new branches
    have hci' : st₁.childIndex =
        (nodes ++ E.eytzingerize (sortNodes st₁.names new)).length + counts (queue ++ subs) := by
      rw [counts_cons, Nat.mod_eq_of_lt hlenb] at hci
      rw [hp.childIndex, hci, List.length_append, hlen, counts_append]; omega
    have hwithin' : ∀ s ∈ queue ++ subs, root.Within s := fun s hs => by
      rcases List.mem_append.1 hs with hs | hs
      · exact hwithin s (by simp [hs])
      · obtain ⟨name, hg⟩ := hp.subs s hs
        exact hbw.sub hg
    have ih := queued_run hroot hwithin' hp.interned hci' (hp.lt hlt) h2
    obtain ⟨after, hafter⟩ := ih.nodes_prefix
    have key : ∀ fs : Rofs C T, fs.nodes = nodes' → fs.names = st'.names →
        fs.Queued E nodes.length (b :: queue) ∧ fs.Shows E b new := by
      intro fs hfn hfs
      have hq := ih.queued fs hfn hfs
      rw [Rofs.queued_append, List.length_append, hlen] at hq
      have hsub : fs.Queued E st.childIndex subs := by
        have hq2 := hq.2
        rw [← counts_eq fun s hs => ih.counts s (by simp [hs])] at hq2
        rw [hci, counts_cons, Nat.mod_eq_of_lt hlenb, ← Nat.add_assoc]
        exact hq2
      have hs : fs.Shows E b new := shows_pushNodes hb hst h1 (by rw [hfs]; exact ih.names_prefix)
        (fun s hs => ih.counts s (by simp [hs])) hsub
      refine ⟨⟨⟨new, hs, laid_sortNodes hb hs (fun node hn => ?_) (by rw [hfn, ← hafter])⟩, hq.1⟩, hs⟩
      obtain ⟨name, hat⟩ := hp.nameAt node hn
      rw [hat.nameBytes, (hat.mono (by rw [hfs]; exact ih.names_prefix)).nameBytes]
    refine ⟨(List.prefix_append _ _).trans ih.nodes_prefix, hp.names.trans ih.names_prefix,
      ih.length_lt, fun hfwd => ih.forward ?_,
      List.forall_mem_cons.2 ⟨hlenb, fun s hs => ih.counts s (by simp [hs])⟩,
      fun fs hfn hfs => (key fs hfn hfs).1, fun fs hfn hfs hold => ih.shown fs hfn hfs ?_⟩
    · -- the children of the new nodes come after everything that is there
      intro i childIndex childCount nameIndex hi
      rw [List.getElem?_append] at hi
      split_ifs at hi with hlt'
      · exact hfwd i _ _ _ hi
      · have hle := hp.forward _ (hperm.mem_iff.1 (List.mem_of_getElem? hi)) _ _ rfl
        have := (List.getElem?_eq_some_iff.1 hi).1
        rw [hlen] at this
        rw [counts_cons, Nat.mod_eq_of_lt hlenb] at hci
        omega
    · intro node hn
      rcases List.mem_append.1 hn with hn | hn
      · exact hold node hn
      · obtain ⟨name, t, hg, -, ht⟩ := (key fs hfn hfs).2.of_mem hb (hperm.mem_iff.1 hn)
        exact ht.isShown hbw hg

end Flatten

/-! ## The flattened object -/

section
variable {C : Config} {T : Type} {E : Eytzinger} {n : ℕ}

/-- The nodes show the tree `b`, from the first one on. -/
structure Rofs.Root (E : Eytzinger) (fs : Rofs C T) (b : Branch) (node : Node) : Prop where
  first : fs.nodes[0]? = some node
  name : NameAt fs.names node.nameIndex []
  shows : fs.ShowsNode E (.branch b) node
  shown : ∀ node ∈ fs.nodes, fs.IsShown E b node

/-- What the nodes of a flattened object show. -/
structure Rofs.Flattened (E : Eytzinger) (n : ℕ) (fs : Rofs C T) (branch : Option Branch) : Prop where
  length_lt : fs.nodes.length < 2 ^ 32
  forward : Flatten.Forward fs.nodes
  of_none : branch = none → fs.nodes = []
  of_some : ∀ b, branch = some b → ∃ b' node, b.Same C n b' ∧ fs.Root E b' node

theorem eytzingerize_eq_nil {α : Type} : E.eytzingerize ([] : List α) = [] :=
  (E.perm []).eq_nil

theorem eytzingerize_singleton {α : Type} (a : α) : E.eytzingerize [a] = [a] :=
  List.perm_singleton.1 (E.perm [a])

/-- The default object has no nodes. -/
theorem intoRofs_nil {files : List T} :
    intoRofs E .nil files = some ({ nodes := [], files := files, names := [] } : Rofs C T) := by
  simp [intoRofs, Branch.branches, Flatten.run, Flatten.pushNodes, Flatten.sortNodes,
    eytzingerize_eq_nil]

/-- The state of the loop after the root. -/
def Flatten.afterRoot (b : Branch) : Flatten :=
  { names := [0], namesInterned := [([], 0)], childIndex := 1 + b.length % 2 ^ 32 }

theorem Flatten.interned_afterRoot (b : Branch) : Interned (afterRoot b) := by
  refine ⟨fun name i h => ?_, by simp [afterRoot], by simp [afterRoot]⟩
  obtain ⟨rfl, rfl⟩ : name = [] ∧ i = 0 := by simpa [afterRoot] using h
  exact ⟨[], [], rfl, rfl, by decide⟩

/-- The root is the first node. -/
theorem intoRofs_root {b : Branch} {files : List T} : (intoRofs E (.cons [] (.branch b) .nil) files :
    Option (Rofs C T)) = if 1 + b.length % 2 ^ 32 < 2 ^ 32 then
      (Flatten.run E (b.branches) [b] (Flatten.afterRoot b)
        [⟨.dir 1 (b.length % 2 ^ 32), 0⟩]).map fun (st, nodes) =>
          { nodes := nodes, files := files, names := st.names }
    else none := by
  have hpush : Flatten.pushNodes (.cons [] (.branch b) .nil) {} =
      if 1 + b.length % 2 ^ 32 < 2 ^ 32 then
        some (Flatten.afterRoot b, [⟨.dir 1 (b.length % 2 ^ 32), 0⟩], [b]) else none := by
    simp only [Flatten.pushNodes, Flatten.intern, List.lookup_nil]
    rfl
  rw [intoRofs, Branch.branches, Branch.branches, Flatten.run, hpush]
  split_ifs with h
  · simp [Flatten.sortNodes, eytzingerize_singleton]
  · rfl

/-- **The nodes of a flattened object show its tree.** -/
theorem RofsObject.IntoRofs.flattened {obj : RofsObject C T} {fs : Rofs C T}
    (h : obj.IntoRofs E fs) :
    fs.files = obj.files ∧ fs.Flattened E obj.files.length obj.branch := by
  obtain ⟨root, hroot, h⟩ := h
  rcases obj.cases_root with ⟨hr, -, hb⟩ | ⟨b, hr, hb, hwf⟩
  · rw [hr] at hroot
    rw [hroot.nil_left, intoRofs_nil] at h
    cases h
    exact ⟨rfl, by simp, fun i _ _ _ h => by simp at h, fun _ => rfl, by simp [hb]⟩
  · obtain ⟨b', rfl, hb'⟩ := hroot.root hr
    have hsame := hb'.same hwf
    rw [intoRofs_root] at h
    split_ifs at h with hlt
    obtain ⟨⟨st', nodes'⟩, hrun, rfl⟩ := Option.map_eq_some_iff.1 h
    have hqueue : ∀ s ∈ [b'], b'.Within s := by
      intro s hs
      rw [List.mem_singleton.1 hs]
      exact .refl
    have hran : Flatten.Ran C T E _ _ _ _ _ _ := Flatten.queued_run hsame.wf hqueue
      (Flatten.interned_afterRoot b') (by simp [Flatten.afterRoot])
      (by simpa [Flatten.afterRoot] using hlt) hrun
    set fs : Rofs C T := ⟨nodes', obj.files, st'.names⟩
    obtain ⟨⟨sub, hs, hl⟩, -⟩ := hran.queued fs rfl rfl
    have hlen : b'.length % 2 ^ 32 = b'.length := Nat.mod_eq_of_lt (hran.counts b' (by simp))
    have hshow : fs.ShowsNode E (.branch b') ⟨.dir 1 (b'.length % 2 ^ 32), 0⟩ :=
      ⟨1, sub, by rw [hlen], hs, hl⟩
    have hname₀ : NameAt [0] 0 [] := ⟨[], [], rfl, rfl, by decide⟩
    have hname : NameAt fs.names 0 [] := hname₀.mono hran.names_prefix
    have hfirst : fs.nodes[0]? = some ⟨.dir 1 (b'.length % 2 ^ 32), 0⟩ := by
      obtain ⟨after, hafter⟩ := hran.nodes_prefix
      rw [show fs.nodes = _ from hafter.symm]; rfl
    refine ⟨rfl, hran.length_lt, hran.forward ?_, by simp [hb], ?_⟩
    · intro i _ _ _ hi
      obtain ⟨hlt0, hi⟩ := List.getElem?_eq_some_iff.1 hi
      obtain rfl : i = 0 := by simpa using hlt0
      cases hi
      exact Nat.one_pos
    · intro b₁ hb₁
      rw [hb] at hb₁
      cases hb₁
      refine ⟨b', _, hsame, hfirst, hname, hshow, hran.shown fs rfl rfl ?_⟩
      intro node hn
      rw [List.mem_singleton.1 hn]
      exact Or.inr ⟨b', .refl, hshow⟩

end

/-! ## Totality -/

namespace Branch

/-- The bytes of a branch's own names, with their length bytes. -/
def nameSize : Branch → ℕ
  | nil => 0
  | cons name _ rest => name.bytes.length + 1 + rest.nameSize

/-- The bytes of all names of a tree, with their length bytes. -/
def size : Branch → ℕ
  | nil => 0
  | cons name (.leaf _) rest => name.bytes.length + 1 + rest.size
  | cons name (.branch b) rest => name.bytes.length + 1 + b.size + rest.size

/-- The number of nodes that are not entries of the branch itself. -/
def inner : Branch → ℕ
  | nil => 0
  | cons _ (.leaf _) rest => rest.inner
  | cons _ (.branch b) rest => b.length + b.inner + rest.inner

/-- The subdirectories of a branch. -/
def subs : Branch → List Branch
  | nil => []
  | cons _ (.leaf _) rest => rest.subs
  | cons _ (.branch b) rest => b :: rest.subs

theorem branches_eq {b : Branch} : b.branches = 1 + (b.subs.map branches).sum := by
  induction b with
  | nil => rfl
  | leaf name i rest ih => rw [branches, ih, subs]
  | branch name b rest _ ih => rw [branches, ih, subs, List.map_cons, List.sum_cons]; omega

theorem size_eq {b : Branch} : b.size = b.nameSize + (b.subs.map size).sum := by
  induction b with
  | nil => rfl
  | leaf name i rest ih => rw [size, ih, nameSize, subs]; omega
  | branch name b rest _ ih => rw [size, ih, nameSize, subs, List.map_cons, List.sum_cons]; omega

theorem inner_eq {b : Branch} :
    b.inner = (b.subs.map length).sum + (b.subs.map inner).sum := by
  induction b with
  | nil => rfl
  | leaf name i rest ih => rw [inner, ih, subs]
  | branch name b rest _ ih =>
    rw [inner, ih, subs, List.map_cons, List.sum_cons, List.map_cons, List.sum_cons]; omega

/-- Every node has a name. -/
theorem length_add_inner_le {b : Branch} : b.length + b.inner ≤ b.size := by
  induction b with
  | nil => exact Nat.le_refl 0
  | leaf name i rest ih => rw [length, inner, size]; omega
  | branch name b rest ih₁ ih₂ => rw [length, inner, size]; omega

theorem Reorder.size {b b' : Branch} (h : Reorder b b') : b'.size = b.size := by
  induction h with
  | nil => rfl
  | leaf _ ih => simp [Branch.size, ih]
  | branch _ _ ih₁ ih₂ => simp [Branch.size, ih₁, ih₂]
  | @swap name t name' t' b => cases t <;> cases t' <;> simp only [Branch.size] <;> omega
  | trans _ _ ih₁ ih₂ => rw [ih₂, ih₁]

end Branch

namespace Flatten

theorem intern_isSome (st : Flatten) (name : Str) (h : st.names.length < 2 ^ 32) :
    ∃ st' i, st.intern name = some (st', i) ∧ st'.childIndex = st.childIndex ∧
      st'.names.length ≤ st.names.length + (name.bytes.length + 1) := by
  unfold intern
  rcases st.namesInterned.lookup name with _ | j
  · simp only [h, if_true]
    exact ⟨_, _, rfl, rfl, by simp⟩
  · exact ⟨_, _, rfl, rfl, by omega⟩

/-- The loop over one branch does not panic if its names and the entries of its
    subdirectories still fit. -/
theorem pushNodes_isSome : ∀ (b : Branch) (st : Flatten), st.names.length + b.nameSize < 2 ^ 32 →
    st.childIndex + (b.subs.map Branch.length).sum < 2 ^ 32 →
      ∃ st' new, pushNodes b st = some (st', new, b.subs) ∧
        st'.names.length ≤ st.names.length + b.nameSize ∧
        st'.childIndex ≤ st.childIndex + (b.subs.map Branch.length).sum
  | .nil, st, _, _ => ⟨st, [], rfl, by omega, by omega⟩
  | .cons name (.leaf i) rest, st, h, hc => by
    rw [Branch.nameSize] at h
    obtain ⟨st₁, nameIndex, h1, hc1, hn1⟩ := intern_isSome st name (by omega)
    obtain ⟨st₂, new, h2, hn2, hc2⟩ := pushNodes_isSome rest st₁ (by omega)
      (by rw [hc1]; exact hc)
    refine ⟨st₂, _, by simp only [pushNodes, h1, h2, Option.bind_eq_bind, Option.bind_some]; rfl,
      ?_, ?_⟩
    · rw [Branch.nameSize]; omega
    · rw [hc1] at hc2; exact hc2
  | .cons name (.branch s) rest, st, h, hc => by
    rw [Branch.nameSize] at h
    rw [Branch.subs, List.map_cons, List.sum_cons] at hc
    obtain ⟨st₁, nameIndex, h1, hc1, hn1⟩ := intern_isSome st name (by omega)
    have hmod := Nat.mod_le s.length (2 ^ 32)
    obtain ⟨st₂, new, h2, hn2, hc2⟩ := pushNodes_isSome rest
      { st₁ with childIndex := st₁.childIndex + s.length % 2 ^ 32 }
      (by dsimp only; omega) (by dsimp only; omega)
    have hlt : st₁.childIndex + s.length % 2 ^ 32 < 2 ^ 32 := by omega
    refine ⟨st₂, _, by
      simp only [pushNodes, h1, h2, hlt, if_true, Option.bind_eq_bind, Option.bind_some]; rfl, ?_, ?_⟩
    · dsimp only at hn2; rw [Branch.nameSize]; omega
    · dsimp only at hc2; rw [Branch.subs, List.map_cons, List.sum_cons]; omega

/-- **The loop over the queue ends, and it panics only if the tree does not fit
    in a `u32`.** -/
theorem run_isSome {E : Eytzinger} : ∀ {fuel : ℕ} {queue : List Branch} {st : Flatten}
    {nodes : List Node}, (queue.map Branch.branches).sum ≤ fuel →
      st.names.length + (queue.map Branch.size).sum < 2 ^ 32 →
      st.childIndex + (queue.map Branch.inner).sum < 2 ^ 32 → (run E fuel queue st nodes).isSome
  | _, [], _, _, _, _, _ => by rw [run_nil]; rfl
  | 0, b :: queue, _, _, hf, _, _ => by
    rw [List.map_cons, List.sum_cons, Branch.branches_eq] at hf; omega
  | fuel + 1, b :: queue, st, nodes, hf, hn, hc => by
    rw [List.map_cons, List.sum_cons, Branch.branches_eq] at hf
    rw [List.map_cons, List.sum_cons, Branch.size_eq] at hn
    rw [List.map_cons, List.sum_cons, Branch.inner_eq] at hc
    obtain ⟨st₁, new, h1, hn1, hc1⟩ := pushNodes_isSome b st (by omega) (by omega)
    rw [run, h1, Option.bind_eq_bind, Option.bind_some]
    refine run_isSome ?_ ?_ ?_
    · rw [List.map_append, List.sum_append]; omega
    · rw [List.map_append, List.sum_append]; omega
    · rw [List.map_append, List.sum_append]; omega

end Flatten

/-- `into_rofs` succeeds on a tree that fits in a `u32`, in every order. -/
theorem intoRofs_isSome {C : Config} {T : Type} {E : Eytzinger} {b : Branch} {files : List T}
    (h : b.size + 1 < 2 ^ 32) :
    (intoRofs E (.cons [] (.branch b) .nil) files : Option (Rofs C T)).isSome := by
  have hle := b.length_add_inner_le
  have hmod := Nat.mod_le b.length (2 ^ 32)
  rw [intoRofs_root, if_pos (by omega), Option.isSome_map]
  refine Flatten.run_isSome (by simp) ?_ ?_
  · simp only [Flatten.afterRoot, List.map_cons, List.map_nil, List.sum_cons, List.sum_nil,
      List.length_cons, List.length_nil]
    omega
  · simp only [Flatten.afterRoot, List.map_cons, List.map_nil, List.sum_cons, List.sum_nil]
    omega

end Fsvfs
