/-
  The flattened filesystem (`src/filesystem.rs`) and `RofsObject::into_rofs`.

  Inodes are `u64`s that wrap; positions in the node array are naturals.  The
  nodes of one directory are sorted by name and laid out by the `eytzinger`
  crate, which is a parameter `E` (`Lib.Eytzinger`).  The nodes of a directory
  are emitted when its turn comes in a queue, and it is promised its place
  (`child_index`) when it is queued itself.  A panic is `none`.

  A `str` compares by its bytes, so names are compared as lists of bytes
  (`byteKey`).  The names of one directory differ, so that any sorting
  algorithm gives the order of `sort_unstable_by_key`.
-/
import Mathlib.Data.List.Lex
import Fsvfs.Lib.Eytzinger
import Fsvfs.Filesystem.Object

namespace Fsvfs

open Lib

/-- `RofsError`. -/
inductive RofsError where
  | notFound
  | isDir
deriving DecidableEq, Repr

/-- `NodeContent`. -/
inductive NodeContent where
  | dir (childIndex childCount : ℕ)
  | file (dataIndex : ℕ)
deriving DecidableEq, Repr

/-- `Node`. -/
structure Node where
  content : NodeContent
  nameIndex : ℕ
deriving DecidableEq, Repr

/-- `Rofs`. -/
structure Rofs (C : Config) (T : Type) where
  nodes : List Node
  files : List T
  names : List UInt8

/-- `EntryKind`; a directory holds the bounds of its slice of the nodes, which
    its iterator walks (`Rofs.dirIter`).  A file index out of bounds panics,
    which is `none`. -/
inductive EntryKind (T : Type) where
  | dir (start stop : ℕ)
  | file (data : Option T)
deriving DecidableEq, Repr

/-- `Entry`. -/
structure Entry (T : Type) where
  inode : UInt64
  name : Str
  kind : EntryKind T
deriving DecidableEq

/-- How bytes compare. -/
def byteKey (b : List UInt8) : List ℕ := b.map UInt8.toNat

/-- The length-prefixed name at an index. -/
def nameBytes (names : List UInt8) (nameIndex : ℕ) : List UInt8 :=
  match names.drop nameIndex with
  | [] => []
  | len :: rest => rest.take len.toNat

namespace Rofs
variable {C : Config} {T : Type}

/-- `Rofs::node_name`. -/
def nodeName (fs : Rofs C T) (node : Node) : Str :=
  Str.fromUtf8Unchecked (nameBytes fs.names node.nameIndex)

/-- `Rofs::node_entry`, for the node at an index. -/
def nodeEntry (fs : Rofs C T) (index : ℕ) (node : Node) : Entry T where
  inode := UInt64.ofNat index - C.inodeRoot
  name := fs.nodeName node
  kind := match node.content with
    | .dir childIndex childCount => .dir childIndex (childIndex + childCount)
    | .file dataIndex => .file fs.files[dataIndex]?

/-- The nodes of a slice, with their indices. -/
def slice (fs : Rofs C T) (start stop : ℕ) : List Node := (fs.nodes.drop start).take (stop - start)

/-- The iterator of `EntryKind::Dir`. -/
def dirIter (fs : Rofs C T) (start stop : ℕ) : List (Entry T) :=
  (fs.slice start stop).mapIdx fun k node => fs.nodeEntry (start + k) node

/-- `ReadOnlyFilesystem::name`. -/
def name (fs : Rofs C T) (inode : UInt64) : Except RofsError Str :=
  match fs.nodes[(inode - C.inodeRoot).toNat]? with
  | none => .error .notFound
  | some node => .ok (fs.nodeName node)

/-- `ReadOnlyFilesystem::entry`. -/
def entry (fs : Rofs C T) (inode : UInt64) : Except RofsError (Entry T) :=
  let index := (inode - C.inodeRoot).toNat
  match fs.nodes[index]? with
  | none => .error .notFound
  | some node => .ok (fs.nodeEntry index node)

/-- `ReadOnlyFilesystem::file_count`. -/
def fileCount (fs : Rofs C T) : ℕ := fs.files.length

variable (E : Eytzinger)

/-- The loop of `Rofs::inode_by_path`. -/
def walk (fs : Rofs C T) (index : ℕ) : List Str → Option ℕ
  | [] => some index
  | component :: rest => match fs.nodes[index]? with
    | some ⟨.dir childIndex childCount, _⟩ =>
      match E.searchByKey (fs.slice childIndex (childIndex + childCount)) (byteKey component.bytes)
        (fun node => byteKey (fs.nodeName node).bytes) with
      | none => none
      | some k => fs.walk (k + childIndex) rest
    | _ => none

/-- `Rofs::inode_by_path`. -/
def inodeByPath (fs : Rofs C T) (parent : UInt32) (path : Str) : Option UInt32 :=
  match components C path with
  | [] => some parent
  | cs => (fs.walk E parent.toNat cs).map Nat.toUInt32

/-- `Rofs::inode_by_path_ignore_ascii_case`. -/
def inodeByPathIgnoreAsciiCase (fs : Rofs C T) (parent : UInt32) (path : Str) : Option UInt32 :=
  match fs.inodeByPath E parent path with
  | some inode => some inode
  | none =>
    let (path, hadUppercase) := toAsciiLowercase path
    if hadUppercase then fs.inodeByPath E parent path else none

/-- `ReadOnlyFilesystem::lookup_in_dir`. -/
def lookupInDir (fs : Rofs C T) (parentInode : UInt64) (path : Str) : Except RofsError UInt64 :=
  let parent := (parentInode - C.inodeRoot).toUInt32
  match fs.inodeByPathIgnoreAsciiCase E parent (normalizePath C path) with
  | some inode => .ok (inode.toUInt64 + C.inodeRoot)
  | none => .error .notFound

/-- `ReadOnlyFilesystem::lookup`. -/
def lookup (fs : Rofs C T) (path : Str) : Except RofsError UInt64 :=
  fs.lookupInDir E C.inodeRoot path

end Rofs

/-! ## `RofsObject::into_rofs` -/

/-- The names, the interned names with their indices, and the next child
    index. -/
structure Flatten where
  names : List UInt8 := []
  namesInterned : List (Str × ℕ) := []
  childIndex : ℕ := 1

namespace Flatten

/-- `names_interned.entry(component).or_insert_with(..)`. -/
def intern (st : Flatten) (component : Str) : Option (Flatten × ℕ) :=
  match st.namesInterned.lookup component with
  | some index => some (st, index)
  | none =>
    let index := st.names.length
    if index < 2 ^ 32 then some
      ({ st with
          names := st.names ++ UInt8.ofNat component.bytes.length :: component.bytes
          namesInterned := (component, index) :: st.namesInterned }, index)
    else none

/-- The loop over one branch: the nodes it emits and the branches it queues. -/
def pushNodes : Branch → Flatten → Option (Flatten × List Node × List Branch)
  | .nil, st => some (st, [], [])
  | .cons component (.branch b) rest, st => do
    let (st, nameIndex) ← st.intern component
    let childCount := b.length % 2 ^ 32
    -- `child_index.checked_add(child_count).unwrap()`
    if st.childIndex + childCount < 2 ^ 32 then
      let (st', nodes, queue) ← pushNodes rest { st with childIndex := st.childIndex + childCount }
      some (st', ⟨.dir st.childIndex childCount, nameIndex⟩ :: nodes, b :: queue)
    else none
  | .cons component (.leaf dataIndex) rest, st => do
    let (st, nameIndex) ← st.intern component
    let (st, nodes, queue) ← pushNodes rest st
    some (st, ⟨.file dataIndex, nameIndex⟩ :: nodes, queue)

/-- `nodes[first..].sort_unstable_by_key(..)`. -/
def sortNodes (names : List UInt8) (nodes : List Node) : List Node :=
  nodes.insertionSort fun a b =>
    byteKey (nameBytes names a.nameIndex) ≤ byteKey (nameBytes names b.nameIndex)

/-- The loop over the queue, for at most `fuel` branches. -/
def run (E : Eytzinger) : ℕ → List Branch → Flatten → List Node → Option (Flatten × List Node)
  | _, [], st, nodes => some (st, nodes)
  | 0, _ :: _, _, _ => none
  | fuel + 1, b :: queue, st, nodes => do
    let (st, new, subs) ← pushNodes b st
    run E fuel (queue ++ subs) st (nodes ++ E.eytzingerize (sortNodes st.names new))

end Flatten

/-- The number of branches of a tree. -/
def Branch.branches : Branch → ℕ
  | .nil => 1
  | .cons _ (.leaf _) rest => rest.branches
  | .cons _ (.branch b) rest => b.branches + rest.branches

/-- `RofsObject::into_rofs`, iterating the hash maps in the order of `root`. -/
def intoRofs {C : Config} {T : Type} (E : Eytzinger) (root : Branch) (files : List T) :
    Option (Rofs C T) :=
  (Flatten.run E root.branches [root] {} []).map fun (st, nodes) =>
    { nodes := nodes, files := files, names := st.names }

/-- `fs` is what `into_rofs` makes of `obj` in some iteration order. -/
def RofsObject.IntoRofs {C : Config} {T : Type} (E : Eytzinger) (obj : RofsObject C T)
    (fs : Rofs C T) : Prop :=
  ∃ root, obj.root.Reorder root ∧ intoRofs E root obj.files = some fs

end Fsvfs
