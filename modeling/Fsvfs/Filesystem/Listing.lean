/-
  Listing a directory of a flattened filesystem.

  In what `into_rofs` makes, the files of all entries exist (`not_missing`), and
  the entries of a directory have different inodes (`nodup_inodes`).
-/
import Fsvfs.Filesystem.Files
import Fsvfs.Filesystem.Inode

namespace Fsvfs

open Lib

variable {C : Config} {T : Type}

/-- The file of the entry does not exist, so that reading the entry panics. -/
def Entry.missing (entry : Entry T) : Bool := match entry.kind with
  | .file none => true
  | _ => false

theorem Branch.Wf.lt_of_mem_leaves {n i : ℕ} {b : Branch} (h : b.Wf C n) (hi : i ∈ b.leaves) :
    i < n := by
  induction b with
  | nil => cases hi
  | leaf name j rest ih =>
    obtain ⟨-, -, hj, hrest⟩ := h
    rcases List.mem_cons.1 hi with rfl | hi
    · exact hj
    · exact ih hrest hi
  | branch name s rest ihs ih =>
    obtain ⟨-, -, ⟨-, hs⟩, hrest⟩ := h
    rcases List.mem_append.1 hi with hi | hi
    · exact ihs hs hi
    · exact ih hrest hi

namespace RofsObject.IntoRofs
variable {E : Eytzinger} {obj : RofsObject C T} {fs : Rofs C T}

/-- The files of the file nodes exist. -/
theorem file_lt (h : obj.IntoRofs E fs) {node : Node} {i : ℕ} (hn : node ∈ fs.nodes)
    (hi : node.content = .file i) : i < fs.files.length := by
  rw [h.flattened.1]
  have hmem : i ∈ obj.root.leaves :=
    h.fileNodes.mem_iff.1 (List.mem_filterMap.2 ⟨node, hn, by simp [Node.fileIndex, hi]⟩)
  rcases obj.wf with ⟨hroot, -⟩ | ⟨b, hroot, hb⟩
  · rw [hroot] at hmem
    cases hmem
  · rw [hroot] at hmem
    exact hb.lt_of_mem_leaves (by simpa [Branch.leaves] using hmem)

theorem not_missing (h : obj.IntoRofs E fs) {start stop : ℕ} {entry : Entry T}
    (he : entry ∈ fs.dirIter start stop) : entry.missing = false := by
  obtain ⟨k, node, hk, rfl⟩ := Rofs.mem_dirIter.1 he
  have hn : node ∈ fs.nodes := List.mem_of_mem_drop (List.mem_of_mem_take (List.mem_of_getElem? hk))
  rcases hc : node.content with ⟨childIndex, childCount⟩ | i
  · simp [Entry.missing, Rofs.nodeEntry, hc]
  · have hi := h.file_lt hn hc
    simp [Entry.missing, Rofs.nodeEntry, hc, hi]

theorem nodup_inodes (h : obj.IntoRofs E fs) (start stop : ℕ) :
    ((fs.dirIter start stop).map Entry.inode).Nodup :=
  Rofs.nodup_dirIter h.flattened.2.length_lt

theorem length_dirIter_lt (h : obj.IntoRofs E fs) (start stop : ℕ) :
    (fs.dirIter start stop).length < 2 ^ 32 := by
  have hlt := h.flattened.2.length_lt
  have hle : (fs.dirIter start stop).length ≤ fs.nodes.length := by
    rw [Rofs.dirIter, List.length_mapIdx, Rofs.slice, List.length_take, List.length_drop]
    omega
  omega

/-- The root of an object that is not the default is a directory. -/
theorem root_dir (h : obj.IntoRofs E fs) {b : Branch} (hb : obj.branch = some b) :
    ∃ e start stop, fs.entry C.inodeRoot = .ok e ∧ e.kind = .dir start stop := by
  obtain ⟨b', node, -, hroot⟩ := h.flattened.2.of_some b hb
  obtain ⟨childIndex, sub, hcontent, -⟩ := hroot.shows
  have hentry := Rofs.entry_of_getElem (C := C) (by decide) hroot.first
  rw [show UInt64.ofNat 0 + C.inodeRoot = C.inodeRoot from UInt64.zero_add _] at hentry
  exact ⟨_, _, _, hentry, Rofs.kind_nodeEntry.2 ⟨_, hcontent, rfl⟩⟩

end RofsObject.IntoRofs

end Fsvfs
