/-
  The files below a directory (`recursive_read_files` and
  `prefix_and_parent_to_lowercase` in `src/dvdbnd.rs`).

  A path is the list of its components, in the encoding of an `OsStr`.  What
  `fs::read_dir` returns is a parameter (`ReadDir`), which does not change.  The
  iterator is polled with some fuel, and stands for the list of its items.

  * `recursiveReadFiles_eq`: it ends, and yields every file once, those of a
    directory before those of the directories below it.
-/
import Fsvfs.Filesystem.Path
import Fsvfs.Lib.Breadth

namespace Fsvfs.Dvdbnd

open Lib Breadth

/-! ## Paths -/

/-- `OsStr`. -/
abbrev OsStr := List UInt8

/-- `Path` and `PathBuf`. -/
abbrev PathBuf := List OsStr

namespace OsStr

/-- `b'.'`. -/
def dot : UInt8 := 0x2e

/-- `OsStr::to_str`. -/
def toStr (name : OsStr) : Option Str := (name.toByteArray.utf8Decode?).map Array.toList

/-- `u8::to_ascii_lowercase`. -/
def lowerByte (b : UInt8) : UInt8 := if 0x41 ≤ b ∧ b ≤ 0x5a then b + 0x20 else b

/-- `OsStr::eq_ignore_ascii_case`. -/
def eqIgnoreAsciiCase (a b : OsStr) : Bool := a.map lowerByte = b.map lowerByte

/-- `Path::extension`, of a file name: what is after the last dot, unless there is
    nothing before it. -/
def extension (name : OsStr) : Option OsStr :=
  if name = [dot, dot] then none
  else match name.reverse.dropWhile (· ≠ dot) with
    | [] => none
    | _ :: before => if before = [] then none else some (name.reverse.takeWhile (· ≠ dot)).reverse

/-- `Path::file_prefix`, of a file name: what is before the first dot that is not
    its first byte. -/
def filePrefix (name : OsStr) : OsStr :=
  if name = [dot, dot] then name else name.take 1 ++ (name.drop 1).takeWhile (· ≠ dot)

@[simp] theorem toStr_bytes (s : Str) : toStr s.bytes = some s := by
  simp [toStr, Str.toByteArray_bytes]

end OsStr

namespace PathBuf
variable (path : PathBuf)

/-- `Path::file_name`. -/
def fileName : Option OsStr := path.getLast?.filter fun name => name ≠ [OsStr.dot] ∧ name ≠ [OsStr.dot, OsStr.dot]

/-- `Path::parent`. -/
def parent : Option PathBuf := if path = [] then none else some path.dropLast

/-- `Path::extension`. -/
def extension : Option OsStr := path.fileName.bind OsStr.extension

/-- `Path::file_prefix`. -/
def filePrefix : Option OsStr := path.fileName.map OsStr.filePrefix

/-- The name of the parent directory, or nothing. -/
def parentName : Str := ((path.parent.bind fileName).bind OsStr.toStr).getD []

/-- `prefix_and_parent_to_lowercase`. -/
def prefixAndParentToLowercase : Str × Str :=
  (((path.filePrefix.bind OsStr.toStr).getD []).lower, path.parentName.lower)

end PathBuf

example : PathBuf.prefixAndParentToLowercase ["Hash".toUTF8.toList, "Sekiro_PC".toUTF8.toList,
    "Data1.v2.txt".toUTF8.toList] = ("data1".toList, "sekiro_pc".toList) := by
  decide +kernel

/-! ## `recursive_read_files` -/

/-- `DirEntry`: its name, and whether its type is that of a directory. -/
structure DirEntry (ε : Type) where
  fileName : OsStr
  isDir : Except ε Bool

/-- What `fs::read_dir` returns for a path. -/
abbrev ReadDir (ε : Type) := PathBuf → Except ε (List (Except ε (DirEntry ε)))

/-- The state of the iterator: the directory that is read and what is left of it,
    and the queue. -/
structure Files (ε : Type) where
  dir : PathBuf
  iter : List (Except ε (DirEntry ε))
  dirs : List PathBuf

variable {ε : Type}

/-- `map_result`. -/
def mapResult (dir : PathBuf) (entry : Except ε (DirEntry ε)) (dirs : List PathBuf) :
    Option (Except ε PathBuf) × List PathBuf :=
  match entry with
  | .error e => (some (.error e), dirs)
  | .ok entry =>
    let path := dir ++ [entry.fileName]
    match entry.isDir with
    | .ok true => (none, dirs ++ [path])
    | .ok false => (some (.ok path), dirs)
    | .error e => (some (.error e), dirs)

variable (readDir : ReadDir ε)

/-- The items of the iterator.  No result means that the fuel is used up. -/
def Files.collect : ℕ → Files ε → Option (List (Except ε PathBuf))
  | 0, _ => none
  | fuel + 1, ⟨dir, entry :: iter, dirs⟩ => match mapResult dir entry dirs with
    | (some res, dirs) => (collect fuel ⟨dir, iter, dirs⟩).map (res :: ·)
    | (none, dirs) => collect fuel ⟨dir, iter, dirs⟩
  | _ + 1, ⟨_, [], []⟩ => some []
  | fuel + 1, ⟨dir, [], next :: dirs⟩ => match readDir next with
    | .ok iter => collect fuel ⟨next, iter, dirs⟩
    | .error e => (collect fuel ⟨dir, [], dirs⟩).map (.error e :: ·)

/-- `recursive_read_files`, with the items of the iterator. -/
def recursiveReadFiles (fuel : ℕ) (dir : PathBuf) : Option (Except ε (List (Except ε PathBuf))) :=
  match readDir dir with
  | .error e => some (.error e)
  | .ok iter => (Files.collect readDir fuel ⟨dir, iter, []⟩).map .ok

/-! ## What is below a directory -/

/-- What an entry gives. -/
def entryItem (dir : PathBuf) (entry : Except ε (DirEntry ε)) : Option (Except ε PathBuf) :=
  (mapResult dir entry []).1

/-- The directory that an entry is. -/
def entryDir (dir : PathBuf) (entry : Except ε (DirEntry ε)) : List PathBuf := (mapResult dir entry []).2

/-- What the entries of a directory give. -/
def dirItems (dir : PathBuf) : List (Except ε PathBuf) := match readDir dir with
  | .error e => [.error e]
  | .ok entries => entries.filterMap (entryItem dir)

/-- The directories in a directory. -/
def subdirs (dir : PathBuf) : List PathBuf := match readDir dir with
  | .error _ => []
  | .ok entries => entries.flatMap (entryDir dir)

/-- A file, or a directory that is not read any further, is in a directory. -/
def IsFileIn (dir : PathBuf) (path : PathBuf) : Prop :=
  ∃ entries name, readDir dir = .ok entries ∧ .ok ⟨name, .ok false⟩ ∈ entries ∧ path = dir ++ [name]

/-- The names in a directory differ. -/
def DistinctNames : Prop :=
  ∀ dir entries, readDir dir = .ok entries →
    (entries.filterMap fun entry => entry.toOption.map DirEntry.fileName).Nodup

variable {readDir}

theorem mapResult_eq (dir : PathBuf) (entry : Except ε (DirEntry ε)) (dirs : List PathBuf) :
    mapResult dir entry dirs = (entryItem dir entry, dirs ++ entryDir dir entry) := by
  rcases entry with e | ⟨name, e | _ | _⟩ <;> simp [mapResult, entryItem, entryDir]

theorem collect_entry {fuel : ℕ} {dir : PathBuf} {entry : Except ε (DirEntry ε)}
    {iter : List (Except ε (DirEntry ε))} {dirs : List PathBuf} :
    Files.collect readDir (fuel + 1) ⟨dir, entry :: iter, dirs⟩ =
      (Files.collect readDir fuel ⟨dir, iter, dirs ++ entryDir dir entry⟩).map
        ((entryItem dir entry).toList ++ ·) := by
  rw [Files.collect, mapResult_eq]
  rcases entryItem dir entry with _ | res
  · exact Option.map_id'.symm
  · rfl

theorem collect_dir_ok {fuel : ℕ} {dir next : PathBuf} {iter : List (Except ε (DirEntry ε))}
    {dirs : List PathBuf} (h : readDir next = .ok iter) :
    Files.collect readDir (fuel + 1) ⟨dir, [], next :: dirs⟩ = Files.collect readDir fuel ⟨next, iter, dirs⟩ := by
  rw [Files.collect, h]

theorem collect_dir_error {fuel : ℕ} {dir next : PathBuf} {e : ε} {dirs : List PathBuf}
    (h : readDir next = .error e) : Files.collect readDir (fuel + 1) ⟨dir, [], next :: dirs⟩ =
      (Files.collect readDir fuel ⟨dir, [], dirs⟩).map (.error e :: ·) := by
  rw [Files.collect, h]

theorem collect_succ {fuel : ℕ} {files : Files ε} {l : List (Except ε PathBuf)}
    (h : Files.collect readDir fuel files = some l) : Files.collect readDir (fuel + 1) files = some l := by
  induction fuel generalizing files l with
  | zero => cases h
  | succ fuel ih =>
    obtain ⟨dir, _ | ⟨entry, iter⟩, dirs⟩ := files
    · rcases dirs with _ | ⟨next, dirs⟩
      · exact h
      · rcases hread : readDir next with e | iter
        · rw [collect_dir_error hread] at h ⊢
          obtain ⟨l', hl', hcons⟩ := Option.map_eq_some_iff.1 h
          rw [ih hl', Option.map_some, hcons]
        · rw [collect_dir_ok hread] at h ⊢
          exact ih h
    · rw [collect_entry] at h ⊢
      obtain ⟨l', hl', happend⟩ := Option.map_eq_some_iff.1 h
      rw [ih hl', Option.map_some, happend]

theorem collect_mono {fuel fuel' : ℕ} {files : Files ε} {l : List (Except ε PathBuf)}
    (hle : fuel ≤ fuel') (h : Files.collect readDir fuel files = some l) :
    Files.collect readDir fuel' files = some l := by
  induction hle with
  | refl => exact h
  | step _ ih => exact collect_succ ih

/-- The entries of the directory that is read come first. -/
theorem exists_collect {dir : PathBuf} {dirs : List PathBuf} {l : List (Except ε PathBuf)}
    (iter : List (Except ε (DirEntry ε)))
    (h : ∃ fuel, Files.collect readDir fuel ⟨dir, [], dirs ++ iter.flatMap (entryDir dir)⟩ = some l) :
    ∃ fuel, Files.collect readDir fuel ⟨dir, iter, dirs⟩ = some (iter.filterMap (entryItem dir) ++ l) := by
  induction iter generalizing dirs with
  | nil => simpa using h
  | cons entry iter ih =>
    rw [List.flatMap_cons, ← List.append_assoc] at h
    obtain ⟨fuel, hfuel⟩ := ih h
    refine ⟨fuel + 1, ?_⟩
    rw [collect_entry, hfuel, Option.map_some, ← List.append_assoc]
    rcases hitem : entryItem dir entry with _ | res
    · rw [List.filterMap_cons_none hitem]
      rfl
    · rw [List.filterMap_cons_some hitem]
      rfl

/-- The iterator walks the directories with its queue. -/
theorem collect_of_walks {dirs : List PathBuf} {l : List (Except ε PathBuf)} (dir : PathBuf)
    (h : Walks (dirItems readDir) (subdirs readDir) dirs l) :
    ∃ fuel, Files.collect readDir fuel ⟨dir, [], dirs⟩ = some l := by
  induction h generalizing dir with
  | nil => exact ⟨1, rfl⟩
  | @cons next dirs l _ ih =>
    rcases hread : readDir next with e | iter
    · obtain ⟨fuel, hfuel⟩ := ih dir
      rw [subdirs, hread, List.append_nil] at hfuel
      refine ⟨fuel + 1, ?_⟩
      rw [collect_dir_error hread, hfuel, dirItems, hread]
      rfl
    · obtain ⟨fuel, hfuel⟩ := exists_collect iter (by rw [subdirs, hread] at ih; exact ih next)
      refine ⟨fuel + 1, ?_⟩
      rw [collect_dir_ok hread, hfuel, dirItems, hread]

/-! ## The files -/

/-- A name that an entry of a directory gives. -/
def entryPaths (dir : PathBuf) (entries : List (Except ε (DirEntry ε))) : List PathBuf :=
  (entries.filterMap fun entry => entry.toOption.map DirEntry.fileName).map fun name => dir ++ [name]

theorem nodup_entryPaths (hnames : DistinctNames readDir) {dir : PathBuf} {entries : List (Except ε (DirEntry ε))}
    (hread : readDir dir = .ok entries) : (entryPaths dir entries).Nodup :=
  List.Nodup.map (fun _ _ h => List.singleton_inj.1 (List.append_cancel_left h)) (hnames dir entries hread)

theorem files_sublist (dir : PathBuf) (entries : List (Except ε (DirEntry ε))) :
    ((entries.filterMap (entryItem dir)).filterMap Except.toOption).Sublist (entryPaths dir entries) := by
  induction entries with
  | nil => exact .slnil
  | cons entry entries ih =>
    rcases entry with e | ⟨name, e | _ | _⟩
    · exact ih
    · exact ih.cons _
    · exact ih.cons_cons _
    · exact ih.cons _

theorem dirs_sublist (dir : PathBuf) (entries : List (Except ε (DirEntry ε))) :
    (entries.flatMap (entryDir dir)).Sublist (entryPaths dir entries) := by
  induction entries with
  | nil => exact .slnil
  | cons entry entries ih =>
    rcases entry with e | ⟨name, e | _ | _⟩
    · exact ih
    · exact ih.cons _
    · exact ih.cons _
    · exact ih.cons_cons _

theorem mem_entryPaths {dir path : PathBuf} {entries : List (Except ε (DirEntry ε))}
    (h : path ∈ entryPaths dir entries) : ∃ name, path = dir ++ [name] := by
  obtain ⟨name, -, rfl⟩ := List.mem_map.1 h
  exact ⟨name, rfl⟩

variable (readDir) in
/-- The files of a directory. -/
def dirFiles (dir : PathBuf) : List PathBuf := (dirItems readDir dir).filterMap Except.toOption

theorem dirFiles_sublist (dir : PathBuf) : dirFiles readDir dir = [] ∨ ∃ entries, readDir dir = .ok entries ∧
    (dirFiles readDir dir).Sublist (entryPaths dir entries) := by
  rw [dirFiles, dirItems]
  rcases readDir dir with e | entries
  · exact .inl rfl
  · exact .inr ⟨entries, rfl, files_sublist dir entries⟩

theorem subdirs_sublist (dir : PathBuf) : subdirs readDir dir = [] ∨ ∃ entries, readDir dir = .ok entries ∧
    (subdirs readDir dir).Sublist (entryPaths dir entries) := by
  rw [subdirs]
  rcases readDir dir with e | entries
  · exact .inl rfl
  · exact .inr ⟨entries, rfl, dirs_sublist dir entries⟩

theorem eq_append_of_mem_dirFiles {dir path : PathBuf} (h : path ∈ dirFiles readDir dir) :
    ∃ name, path = dir ++ [name] := by
  rcases @dirFiles_sublist _ readDir dir with hnil | ⟨entries, -, hsub⟩
  · rw [hnil] at h
    cases h
  · exact mem_entryPaths (hsub.subset h)

theorem eq_append_of_mem_subdirs {dir path : PathBuf} (h : path ∈ subdirs readDir dir) :
    ∃ name, path = dir ++ [name] := by
  rcases @subdirs_sublist _ readDir dir with hnil | ⟨entries, -, hsub⟩
  · rw [hnil] at h
    cases h
  · exact mem_entryPaths (hsub.subset h)

/-- Files and directories are one step below the directory that they are in. -/
theorem graded : Graded (dirFiles readDir) (subdirs readDir) List.length fun dir => dir.length + 1 where
  items dir path h := by
    obtain ⟨name, rfl⟩ := eq_append_of_mem_dirFiles h
    exact List.length_append
  below dir sub h := by
    obtain ⟨name, rfl⟩ := eq_append_of_mem_subdirs h
    rw [List.length_append, List.length_singleton]

theorem separate_of_sublist {f : PathBuf → List PathBuf} (hnames : DistinctNames readDir)
    (h : ∀ dir, f dir = [] ∨ ∃ entries, readDir dir = .ok entries ∧ (f dir).Sublist (entryPaths dir entries)) :
    Separate f := by
  have hpath : ∀ {dir path : PathBuf}, path ∈ f dir → ∃ name, path = dir ++ [name] := by
    intro dir path hmem
    rcases h dir with hnil | ⟨entries, -, hsub⟩
    · rw [hnil] at hmem
      cases hmem
    · exact mem_entryPaths (hsub.subset hmem)
  refine ⟨fun dir => ?_, fun dir dir' path hmem hmem' => ?_⟩
  · rcases h dir with hnil | ⟨entries, hread, hsub⟩
    · rw [hnil]
      exact .nil
    · exact (nodup_entryPaths hnames hread).sublist hsub
  · obtain ⟨name, rfl⟩ := hpath hmem
    obtain ⟨name', heq⟩ := hpath hmem'
    exact (List.append_inj' heq rfl).1

variable (readDir) in
/-- An item of a directory is an error. -/
def FailsIn (dir : PathBuf) (e : ε) : Prop := readDir dir = .error e ∨ ∃ entries, readDir dir = .ok entries ∧
  (.error e ∈ entries ∨ ∃ name, .ok ⟨name, .error e⟩ ∈ entries)

theorem ok_mem_dirItems {dir path : PathBuf} : .ok path ∈ dirItems readDir dir ↔ IsFileIn readDir dir path := by
  rw [dirItems, IsFileIn]
  rcases readDir dir with e | entries
  · constructor
    · intro h
      cases List.mem_singleton.1 h
    · rintro ⟨_, _, h, -⟩
      cases h
  · rw [List.mem_filterMap]
    constructor
    · rintro ⟨e | ⟨name, e | _ | _⟩, hmem, hitem⟩
      · cases hitem
      · cases hitem
      · cases hitem
        exact ⟨entries, name, rfl, hmem, rfl⟩
      · cases hitem
    · rintro ⟨_, name, h, hmem, rfl⟩
      cases h
      exact ⟨_, hmem, rfl⟩

theorem error_mem_dirItems {dir : PathBuf} {e : ε} : .error e ∈ dirItems readDir dir ↔ FailsIn readDir dir e := by
  rw [dirItems, FailsIn]
  rcases readDir dir with e' | entries
  · simp [eq_comm]
  · simp only [reduceCtorEq, false_or, Except.ok.injEq, exists_eq_left', List.mem_filterMap]
    constructor
    · rintro ⟨e' | ⟨name, e' | _ | _⟩, hmem, hitem⟩
      · cases hitem
        exact .inl hmem
      · cases hitem
        exact .inr ⟨name, hmem⟩
      · cases hitem
      · cases hitem
    · rintro (hmem | ⟨name, hmem⟩)
      · exact ⟨_, hmem, rfl⟩
      · exact ⟨_, hmem, rfl⟩

/-- A file is below a directory. -/
def IsBelow (readDir : ReadDir ε) (dir path : PathBuf) : Prop :=
  ∃ sub, Reaches (subdirs readDir) dir sub ∧ IsFileIn readDir sub path

/-- What is read of a directory. -/
structure ReadsFiles (readDir : ReadDir ε) (dir : PathBuf) (items : List (Except ε PathBuf)) : Prop where
  file : ∀ path, .ok path ∈ items ↔ IsBelow readDir dir path
  error : ∀ e, .error e ∈ items ↔ ∃ sub, Reaches (subdirs readDir) dir sub ∧ FailsIn readDir sub e
  /-- Files come before those of the directories below. -/
  sorted : (items.filterMap Except.toOption).Pairwise fun path path' => path.length ≤ path'.length
  once : DistinctNames readDir → (items.filterMap Except.toOption).Nodup

theorem ReadsFiles.mem_files {dir path : PathBuf} {items : List (Except ε PathBuf)} (h : ReadsFiles readDir dir items) :
    path ∈ items.filterMap Except.toOption ↔ IsBelow readDir dir path := by
  rw [List.mem_filterMap, ← h.file]
  constructor
  · rintro ⟨_ | path', hmem, heq⟩
    · cases heq
    · cases heq
      exact hmem
  · exact fun hmem => ⟨_, hmem, rfl⟩

/-- What is read level by level. -/
theorem readsFiles_levels {dir : PathBuf} {h : ℕ} (hheight : Height (subdirs readDir) h dir) :
    ReadsFiles readDir dir (levels (dirItems readDir) (subdirs readDir) h [dir]) := by
  have hdepth : ∀ v ∈ [dir], (v : PathBuf).length + 1 = dir.length + 1 := by
    intro v hv
    rw [List.mem_singleton.1 hv]
  refine ⟨fun path => ?_, fun e => ?_, ?_, fun hnames => ?_⟩
  · rw [mem_levels hheight]
    exact exists_congr fun sub => and_congr_right fun _ => ok_mem_dirItems
  · rw [mem_levels hheight]
    exact exists_congr fun sub => and_congr_right fun _ => error_mem_dirItems
  · rw [filterMap_levels]
    exact graded.pairwise_levels hdepth
  · rw [filterMap_levels]
    exact graded.nodup_levels (separate_of_sublist hnames dirFiles_sublist)
      (separate_of_sublist hnames subdirs_sublist) hdepth (List.nodup_singleton dir)

/-- The iterator ends. -/
theorem recursiveReadFiles_levels {dir : PathBuf} {h : ℕ} (hheight : Height (subdirs readDir) h dir)
    {entries : List (Except ε (DirEntry ε))} (hread : readDir dir = .ok entries) : ∃ n, ∀ fuel, n ≤ fuel →
      recursiveReadFiles readDir fuel dir = some (.ok (levels (dirItems readDir) (subdirs readDir) h [dir])) := by
  have hmem : ∀ v ∈ [dir], Height (subdirs readDir) h v := by
    intro v hv
    rwa [List.mem_singleton.1 hv]
  obtain ⟨fuel, hfuel⟩ := collect_of_walks dir (walks_levels hmem)
  rcases fuel with _ | n
  · cases hfuel
  rw [collect_dir_ok hread] at hfuel
  refine ⟨n, fun fuel hle => ?_⟩
  rw [recursiveReadFiles, hread]
  dsimp only
  rw [collect_mono hle hfuel, Option.map_some]

/-- **Every file below a directory is read once**, if there are finitely many
    directories. -/
theorem recursiveReadFiles_eq {dir : PathBuf} {h : ℕ} (hheight : Height (subdirs readDir) h dir)
    {entries : List (Except ε (DirEntry ε))} (hread : readDir dir = .ok entries) :
    ∃ items, ReadsFiles readDir dir items ∧
      ∃ n, ∀ fuel, n ≤ fuel → recursiveReadFiles readDir fuel dir = some (.ok items) :=
  ⟨_, readsFiles_levels hheight, recursiveReadFiles_levels hheight hread⟩

/-- A directory with `readme` and a file of a game. -/
def gameFolder (file : OsStr) : ReadDir Unit
  | [] => .ok [.ok ⟨"sekiro".toUTF8.toList, .ok true⟩, .ok ⟨"readme".toUTF8.toList, .ok false⟩]
  | [_] => .ok [.ok ⟨file, .ok false⟩]
  | _ => .ok []

theorem gameFolder_height (file : OsStr) : Height (subdirs (gameFolder file)) 2 [] := by
  intro dir hdir
  obtain rfl : dir = ["sekiro".toUTF8.toList] := List.mem_singleton.1 hdir
  intro sub hsub
  cases hsub

theorem recursiveReadFiles_gameFolder : ∃ items, ReadsFiles (gameFolder "data1.pem".toUTF8.toList) [] items ∧
    ∃ n, ∀ fuel, n ≤ fuel → recursiveReadFiles (gameFolder "data1.pem".toUTF8.toList) fuel [] = some (.ok items) :=
  recursiveReadFiles_eq (gameFolder_height _) rfl

end Fsvfs.Dvdbnd
