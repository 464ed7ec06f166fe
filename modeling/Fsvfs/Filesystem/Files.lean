/-
  The file nodes of a flattened filesystem are the leaves of its tree.

  `Branch.leaves` lists the file indices of a tree.  `into_rofs` makes one file
  node of each (`IntoRofs.fileNodes`), and a tree that `RofsObject::new` builds
  has every index at most once (`nodup_leaves_new`), so that a file is carried
  by at most one node (`fileNode_unique`).
-/
import Fsvfs.Filesystem.Rofs
import Fsvfs.Filesystem.Tree

namespace Fsvfs

open Lib

/-- The file indices of a tree. -/
def Branch.leaves : Branch → List ℕ
  | .nil => []
  | .cons _ (.leaf i) rest => i :: rest.leaves
  | .cons _ (.branch b) rest => b.leaves ++ rest.leaves

/-- The file index of a file node. -/
def Node.fileIndex (node : Node) : Option ℕ := match node.content with
  | .file i => some i
  | .dir _ _ => none

/-- The file indices of the file nodes. -/
def fileNodes (nodes : List Node) : List ℕ := nodes.filterMap Node.fileIndex

theorem fileNodes_append (l m : List Node) : fileNodes (l ++ m) = fileNodes l ++ fileNodes m :=
  List.filterMap_append

/-! ## Flattening -/

namespace Flatten

/-- A branch is emitted with all its leaves, its subdirectories in the queue. -/
theorem fileNodes_pushNodes {b : Branch} : ∀ {st st' : Flatten} {new : List Node}
    {subs : List Branch}, pushNodes b st = some (st', new, subs) →
      (fileNodes new ++ subs.flatMap Branch.leaves).Perm b.leaves := by
  induction b with
  | nil =>
    intro st st' new subs h
    cases h
    exact .refl _
  | leaf name i rest ih =>
    intro st st' new subs h
    rw [pushNodes] at h
    obtain ⟨⟨st₁, index⟩, -, h⟩ := Option.bind_eq_some_iff.1 h
    obtain ⟨⟨st₂, nodes, queue⟩, hrest, h⟩ := Option.bind_eq_some_iff.1 h
    cases h
    exact (ih hrest).cons i
  | branch name sub rest _ ih =>
    intro st st' new subs h
    rw [pushNodes] at h
    obtain ⟨⟨st₁, index⟩, -, h⟩ := Option.bind_eq_some_iff.1 h
    dsimp only at h
    split_ifs at h with hlt
    obtain ⟨⟨st₂, nodes, queue⟩, hrest, h⟩ := Option.bind_eq_some_iff.1 h
    cases h
    have hnew : fileNodes (⟨.dir st₁.childIndex (sub.length % 2 ^ 32), index⟩ :: nodes) =
        fileNodes nodes := rfl
    rw [hnew, List.flatMap_cons, Branch.leaves]
    refine (List.perm_append_comm_assoc _ _ _).trans ?_
    exact (ih hrest).append_left _

/-- **The file nodes are the leaves of the queue.** -/
theorem fileNodes_run {E : Eytzinger} : ∀ {fuel : ℕ} {queue : List Branch} {st st' : Flatten}
    {nodes nodes' : List Node}, run E fuel queue st nodes = some (st', nodes') →
      (fileNodes nodes').Perm (fileNodes nodes ++ queue.flatMap Branch.leaves)
  | _, [], st, _, nodes, _, h => by
    rw [run] at h
    cases h
    simp
  | 0, _ :: _, _, _, _, _, h => by cases h
  | fuel + 1, b :: queue, st, st', nodes, nodes', h => by
    rw [run] at h
    obtain ⟨⟨st₁, new, subs⟩, hpush, h⟩ := Option.bind_eq_some_iff.1 h
    have hrun := fileNodes_run h
    have hb := fileNodes_pushNodes hpush
    have hperm : (fileNodes (E.eytzingerize (sortNodes st₁.names new))).Perm (fileNodes new) :=
      ((E.perm _).trans (List.perm_insertionSort _ _)).filterMap _
    rw [fileNodes_append, List.flatMap_append, List.append_assoc] at hrun
    refine hrun.trans ((List.perm_append_left_iff _).2 ?_)
    rw [List.flatMap_cons]
    refine (hperm.append_right _).trans ?_
    refine List.Perm.trans ?_ (hb.append_right _)
    rw [List.append_assoc]
    exact (List.perm_append_left_iff _).2 List.perm_append_comm

end Flatten

theorem Branch.Reorder.leaves {b b' : Branch} (h : b.Reorder b') : b.leaves.Perm b'.leaves := by
  induction h with
  | nil => exact .refl _
  | leaf _ ih => exact ih.cons _
  | branch _ _ ihs ih => exact ihs.append ih
  | @swap name t name' t' b =>
    cases t with
    | leaf i =>
      cases t' with
      | leaf j => exact .swap j i _
      | branch s => exact (List.perm_middle (a := i)).symm
    | branch s =>
      cases t' with
      | leaf j => exact List.perm_middle
      | branch s' => exact List.perm_append_comm_assoc _ _ _
  | trans _ _ ih ih' => exact ih.trans ih'

/-- **`into_rofs` makes one file node of every leaf.** -/
theorem RofsObject.IntoRofs.fileNodes {C : Config} {T : Type} {E : Eytzinger}
    {obj : RofsObject C T} {fs : Rofs C T} (h : obj.IntoRofs E fs) :
    (fileNodes fs.nodes).Perm obj.root.leaves := by
  obtain ⟨root, hroot, h⟩ := h
  obtain ⟨⟨st, nodes⟩, hrun, rfl⟩ := Option.map_eq_some_iff.1 h
  have := Flatten.fileNodes_run hrun
  simp only [List.flatMap_cons, List.flatMap_nil, List.append_nil] at this
  exact this.trans hroot.leaves.symm

/-! ## Building -/

namespace Branch

theorem leaves_push {b : Branch} {c : Str} {t : TreeNode} :
    (b.push c t).leaves = b.leaves ++ (cons c t nil).leaves := by
  induction b with
  | nil => simp [push, leaves]
  | leaf name i rest ih => simp [push, leaves, ih]
  | branch name s rest _ ih => simp [push, leaves, ih]

/-- Replacing a subdirectory replaces its leaves. -/
theorem leaves_set {b next : Branch} {c : Str} (h : b.get c = some (.branch next)) :
    ∃ others, b.leaves.Perm (next.leaves ++ others) ∧
      ∀ sub, (b.set c (.branch sub)).leaves.Perm (sub.leaves ++ others) := by
  induction b with
  | nil => cases h
  | leaf name j rest ih =>
    by_cases hc : name = c
    · simp [get, hc] at h
    · simp only [get, hc, if_false] at h
      obtain ⟨others, h1, h2⟩ := ih h
      refine ⟨j :: others, (h1.cons j).trans List.perm_middle.symm, fun sub => ?_⟩
      simp only [set, hc, if_false, leaves]
      exact ((h2 sub).cons j).trans List.perm_middle.symm
  | branch name s rest _ ih =>
    by_cases hc : name = c
    · simp only [get, hc, if_true, Option.some.injEq, TreeNode.branch.injEq] at h
      subst h
      refine ⟨rest.leaves, .refl _, fun sub => ?_⟩
      simp only [set, hc, if_true, leaves]
      exact .refl _
    · simp only [get, hc, if_false] at h
      obtain ⟨others, h1, h2⟩ := ih h
      refine ⟨s.leaves ++ others, (h1.append_left _).trans (List.perm_append_comm_assoc _ _ _),
        fun sub => ?_⟩
      simp only [set, hc, if_false, leaves]
      exact ((h2 sub).append_left _).trans (List.perm_append_comm_assoc _ _ _)

/-- Inserting a path adds at most its own leaf. -/
theorem leaves_insertPath : ∀ {components : List Str} {i : ℕ} {b b' : Branch},
    b.insertPath components i = some b' →
      b'.leaves.Perm b.leaves ∨ b'.leaves.Perm (b.leaves ++ [i])
  | [], i, b, b', h => by
    cases h
    exact .inl (.refl _)
  | c :: rest, i, b, b', h => by
    rw [insertPath] at h
    by_cases hlen : 255 < c.bytes.length
    · rw [if_pos hlen] at h
      cases h
    rw [if_neg hlen] at h
    rcases hg : b.get c with _ | next | j
    · simp only [hg] at h
      split_ifs at h with hr
      · cases h
        rw [leaves_push]
        exact .inr (.refl _)
      · obtain ⟨sub, hsub, rfl⟩ := Option.map_eq_some_iff.1 h
        rw [leaves_push]
        have hleaves : (cons c (.branch sub) nil).leaves = sub.leaves := by simp [leaves]
        rw [hleaves]
        rcases leaves_insertPath hsub with hs | hs
        · exact .inl (by simpa [leaves] using hs.append_left b.leaves)
        · exact .inr (by simpa [leaves] using hs.append_left b.leaves)
    · simp only [hg] at h
      obtain ⟨sub, hsub, rfl⟩ := Option.map_eq_some_iff.1 h
      obtain ⟨others, h1, h2⟩ := leaves_set hg
      rcases leaves_insertPath hsub with hs | hs
      · exact .inl ((h2 sub).trans ((hs.append_right _).trans h1.symm))
      · refine .inr ((h2 sub).trans ((hs.append_right _).trans ?_))
        rw [List.append_assoc]
        refine ((List.perm_append_left_iff _).2 List.perm_append_comm).trans ?_
        rw [← List.append_assoc]
        exact h1.symm.append_right _
    · simp only [hg] at h
      cases h
      exact .inl (.refl _)

/-- Inserting paths adds some of their leaves, each once. -/
theorem leaves_insertPaths : ∀ {l : List (List Str × ℕ)} {b b' : Branch},
    b.insertPaths l = some b' →
      ∃ kept, kept.Sublist (l.map Prod.snd) ∧ b'.leaves.Perm (b.leaves ++ kept)
  | [], b, b', h => by
    cases h
    exact ⟨[], List.Sublist.slnil, by simp⟩
  | (components, i) :: l, b, b', h => by
    obtain ⟨b₁, h1, h⟩ := Option.bind_eq_some_iff.1 h
    obtain ⟨kept, hkept, hperm⟩ := leaves_insertPaths h
    rcases leaves_insertPath h1 with hb | hb
    · exact ⟨kept, hkept.cons _, hperm.trans (hb.append_right _)⟩
    · refine ⟨i :: kept, hkept.cons_cons _, hperm.trans ((hb.append_right _).trans ?_)⟩
      rw [List.append_assoc]
      exact .refl _

end Branch

/-- **A tree that `RofsObject::new` builds has every file at most once.** -/
theorem RofsObject.nodup_leaves_new {C : Config} {T : Type} {files : List (Str × T)}
    {obj : RofsObject C T} (h : RofsObject.new files = some obj) : obj.root.leaves.Nodup := by
  obtain ⟨b, hb, hbr, -⟩ := new_eq_some h
  obtain ⟨kept, hkept, hperm⟩ := Branch.leaves_insertPaths hb
  have hindices : ((entries C files).map Prod.snd).Nodup := by
    rw [entries, List.zipIdx_map_snd]
    exact List.nodup_range'
  have hroot : obj.root.leaves = b.leaves := by
    rcases obj.cases_root with ⟨-, -, hn⟩ | ⟨b', hr, hb', -⟩
    · rw [hn] at hbr
      cases hbr
    · rw [hb'] at hbr
      cases hbr
      simp [hr, Branch.leaves]
  rw [hroot, hperm.nodup_iff]
  exact hkept.nodup hindices

/-- **A file of a built filesystem is carried by at most one node.** -/
theorem fileNode_unique {nodes : List Node} (h : (fileNodes nodes).Nodup) {i n m : ℕ}
    {a b : Node} (hn : nodes[n]? = some a) (hm : nodes[m]? = some b) (ha : a.fileIndex = some i)
    (hb : b.fileIndex = some i) : n = m := by
  induction nodes generalizing n m with
  | nil => cases hn
  | cons node nodes ih =>
    have hmem : ∀ {k : ℕ} {c : Node}, nodes[k]? = some c → c.fileIndex = some i →
        i ∈ fileNodes nodes := fun hk hc =>
      List.mem_filterMap.2 ⟨_, List.mem_of_getElem? hk, hc⟩
    rw [fileNodes, List.filterMap_cons] at h
    rcases n with _ | n <;> rcases m with _ | m
    · rfl
    · obtain rfl : node = a := by simpa using hn
      rw [ha] at h
      exact absurd (hmem hm hb) (List.nodup_cons.1 h).1
    · obtain rfl : node = b := by simpa using hm
      rw [hb] at h
      exact absurd (hmem hn ha) (List.nodup_cons.1 h).1
    · have htail : (fileNodes nodes).Nodup := by
        rcases hf : node.fileIndex with _ | j
        · rwa [hf] at h
        · rw [hf] at h
          exact (List.nodup_cons.1 h).2
      rw [ih htail hn hm]

end Fsvfs
