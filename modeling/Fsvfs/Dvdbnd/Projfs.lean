/-
  Listing a directory with ProjFS (`src/dvdbnd/mount/projfs.rs`).

  The functions of ProjFS and `sort_unstable_by` are parameters.  A callback
  that panics returns `E_FAIL`.  What a call fills into its buffer is only seen
  if it returns `S_OK`, which is `.ok`.  The callbacks come one after the other.

  * `fromDirIter_eq`: a session holds the entries of its directory, each once;
  * `get_pages`: a call gives what it has room for of what is left, and moves the
    position after it;
  * `runs_reads`: from a restart to the next, the calls read the entries that
    match the search expression;
  * `sessionResults_run`: a session does not depend on others.
-/
import Fsvfs.Dvdbnd.Read
import Fsvfs.Filesystem.Listing
import Fsvfs.Lib.Paging

namespace Fsvfs.Dvdbnd.Projfs

open Lib

/-! ## Windows -/

abbrev HRESULT := UInt32

/-- `WIN32_ERROR::to_hresult`, for errors. -/
def toHresult (error : UInt32) : HRESULT := error &&& 0xFFFF ||| 0x80070000

def E_FAIL : HRESULT := 0x80004005
def E_INVALIDARG : HRESULT := 0x80070057
def ERROR_FILE_NOT_FOUND : HRESULT := toHresult 2
def ERROR_DIRECTORY : HRESULT := toHresult 267
def E_BUFFER : HRESULT := toHresult 122

def PRJ_CB_DATA_FLAG_ENUM_RESTART_SCAN : UInt32 := 1

abbrev GUID := BitVec 128

/-- A string of 16-bit units without its end. -/
abbrev Wide := List UInt16

/-- The functions of ProjFS on file names. -/
structure ProjectedFileSystem where
  prjFileNameCompare : Wide → Wide → ℤ
  prjFileNameMatch : Wide → Wide → Bool

/-- The order of `PrjFileNameCompare`. -/
def ProjectedFileSystem.nameOrdering (P : ProjectedFileSystem) (a b : Wide) : Ordering :=
  compare (P.prjFileNameCompare a b) 0

/-- `sort_unstable_by`, which leaves open how equal elements are ordered. -/
structure SortUnstable where
  sortBy : {α : Type} → (α → α → Ordering) → List α → List α
  perm : ∀ {α : Type} (cmp : α → α → Ordering) (l : List α), (sortBy cmp l).Perm l
  sorted : ∀ {α : Type} (cmp : α → α → Ordering) [Std.TransCmp cmp] (l : List α),
    (sortBy cmp l).Pairwise fun a b => cmp a b ≠ .gt

/-- A stable sort is one that leaves equal elements in their order. -/
def SortUnstable.stable : SortUnstable where
  sortBy cmp l := l.mergeSort fun a b => (cmp a b).isLE
  perm _ l := List.mergeSort_perm l _
  sorted cmp _ l := by
    have hsorted : (l.mergeSort fun a b => (cmp a b).isLE).Pairwise fun a b => (cmp a b).isLE := by
      refine List.pairwise_mergeSort (fun a b c => Std.TransCmp.isLE_trans) (fun a b => ?_) l
      rw [@Std.OrientedCmp.eq_swap _ cmp _ b a]
      cases cmp a b <;> rfl
    exact hsorted.imp fun h => Ordering.isLE_iff_ne_gt.1 h

/-- The UTF-16 units of a character. -/
def encodeUtf16Char (c : Char) : Wide :=
  if c.toNat < 0x10000 then [UInt16.ofNat c.toNat]
  else
    let code := c.toNat - 0x10000
    [UInt16.ofNat (0xD800 + code / 0x400), UInt16.ofNat (0xDC00 + code % 0x400)]

/-- `str::encode_utf16`. -/
def encodeUtf16 (s : Str) : Wide := s.flatMap encodeUtf16Char

/-- The fields of `PRJ_FILE_BASIC_INFO` that are not the default. -/
structure PrjFileBasicInfo where
  isDirectory : Bool
  fileSize : ℤ
deriving DecidableEq

/-- A name and its file information. -/
abbrev DirEntry := Wide × PrjFileBasicInfo

/-- A directory entry buffer: whether it takes an entry, whatever it holds. -/
structure DirEntryBuffer where
  fill : List DirEntry → DirEntry → Except HRESULT Unit
  entries : List DirEntry

def DirEntryBuffer.prjFillDirEntryBuffer (name : Wide) (info : PrjFileBasicInfo)
    (buffer : DirEntryBuffer) : Except HRESULT DirEntryBuffer :=
  match buffer.fill buffer.entries (name, info) with
  | .ok () => .ok { buffer with entries := buffer.entries ++ [(name, info)] }
  | .error e => .error e

/-! ## `DirEnumeration` -/

/-- `DirEnumeration`. -/
structure DirEnumeration where
  pos : ℕ
  index : List (ℕ × PrjFileBasicInfo)
  store : List UInt16
  pos_le : pos ≤ index.length

/-- `file_basic_info`. -/
def fileBasicInfo (entry : Entry DvdbndFile) : PrjFileBasicInfo :=
  let (isDir, fileSize) := match entry.kind with
    | .file (some file) => (false, file.getUnpaddedLen.toNat)
    | .file none => (false, 0)
    | .dir _ _ => (true, 0)
  ⟨isDir, fileSize⟩

/-- The string at an index of a store. -/
def pathAt (store : List UInt16) (pathIndex : ℕ) : Wide :=
  (store.drop pathIndex).takeWhile fun unit => unit ≠ 0

namespace DirEnumeration

/-- The loop of `from_dir_iter`. -/
def pushEntries : List (Entry DvdbndFile) → List (ℕ × PrjFileBasicInfo) → List UInt16 →
    Option (List (ℕ × PrjFileBasicInfo) × List UInt16)
  | [], index, store => some (index, store)
  | entry :: rest, index, store =>
    if entry.missing then none
    else pushEntries rest (index ++ [(store.length, fileBasicInfo entry)])
      (store ++ encodeUtf16 entry.name ++ [0])

section
variable (S : SortUnstable) (P : ProjectedFileSystem)

/-- How the index is ordered. -/
def compareIndex (store : List UInt16) (a b : ℕ × PrjFileBasicInfo) : Ordering :=
  P.nameOrdering (pathAt store a.1) (pathAt store b.1)

/-- `DirEnumeration::from_dir_iter`. -/
def fromDirIter (dirIter : List (Entry DvdbndFile)) : Option DirEnumeration := do
  let (index, store) ← pushEntries dirIter [] []
  some ⟨0, S.sortBy (compareIndex P store) index, store, Nat.zero_le _⟩

end

variable (P : ProjectedFileSystem) (d : DirEnumeration)

/-- The search expression is null, or the path matches it. -/
def Matches (expression : Option Wide) (path : Wide) : Bool := match expression with
  | none => true
  | some expression => P.prjFileNameMatch path expression

/-- `DirEnumeration::enumerate`. -/
def enumerate (expression : Option Wide) : List (ℕ × DirEntry) :=
  (d.index.zipIdx.drop d.pos).filterMap fun ((pathIndex, info), pos) =>
    let path := pathAt d.store pathIndex
    if Matches P expression path then some (pos, path, info) else none

/-- `DirEnumeration::set_pos`. -/
def setPos (newPos : ℕ) : DirEnumeration :=
  { d with pos := min newPos d.index.length, pos_le := Nat.min_le_right _ _ }

/-- `DirEnumeration::reset`. -/
def reset : DirEnumeration := { d with pos := 0, pos_le := Nat.zero_le _ }

/-- The loop of `get_directory_enumeration`: the position after it, and the
    buffer. -/
def fillLoop (startPos : ℕ) : List (ℕ × DirEntry) → ℕ → DirEntryBuffer →
    Except HRESULT (ℕ × DirEntryBuffer)
  | [], endPos, buffer => .ok (endPos, buffer)
  | (pos, name, info) :: rest, endPos, buffer =>
    match buffer.prjFillDirEntryBuffer name info with
    | .ok buffer => fillLoop startPos rest (pos + 1) buffer
    | .error e => if e = E_BUFFER ∧ startPos ≠ endPos then .ok (endPos, buffer) else .error e

end DirEnumeration

/-- The arguments of `get_directory_enumeration`, without the session. -/
structure GetCall where
  flags : UInt32
  searchExpression : Option Wide
  fill : List DirEntry → DirEntry → Except HRESULT Unit

/-- The call starts the enumeration again. -/
def GetCall.Restarts (call : GetCall) : Prop :=
  call.flags &&& PRJ_CB_DATA_FLAG_ENUM_RESTART_SCAN ≠ 0

instance (call : GetCall) : Decidable call.Restarts := inferInstanceAs (Decidable (_ ≠ _))

/-- What `get_directory_enumeration` does with the session. -/
def DirEnumeration.get (P : ProjectedFileSystem) (d : DirEnumeration) (call : GetCall) :
    Except HRESULT (List DirEntry) × DirEnumeration :=
  let d := if call.Restarts then d.reset else d
  match fillLoop d.pos (d.enumerate P call.searchExpression) d.pos ⟨call.fill, []⟩ with
  | .error e => (.error e, d)
  | .ok (endPos, buffer) => (.ok buffer.entries, d.setPos endPos)

/-! ## Callbacks -/

/-- `MountContext`. -/
structure MountContext where
  mount : DvdbndMount
  enumerations : GUID → Option DirEnumeration

/-- A callback with its arguments; `filePathName` is the path in UTF-8. -/
inductive Callback where
  | startDirectoryEnumeration (filePathName : Except HRESULT Str) (enumerationId : GUID)
  | endDirectoryEnumeration (enumerationId : GUID)
  | getDirectoryEnumeration (enumerationId : GUID) (call : GetCall)

namespace MountContext
variable (E : Eytzinger) (S : SortUnstable) (P : ProjectedFileSystem) (context : MountContext)

/-- The enumeration that `start_directory_enumeration` inserts. -/
def newEnumeration (filePathName : Except HRESULT Str) : Except HRESULT DirEnumeration := do
  let fs := context.mount.fs.inner
  let path ← filePathName
  match fs.lookup E path with
  | .error _ => .error ERROR_FILE_NOT_FOUND
  | .ok inode => match fs.entry inode with
    | .ok ⟨_, _, .dir start stop⟩ =>
      match DirEnumeration.fromDirIter S P (fs.dirIter start stop) with
      | some enumeration => .ok enumeration
      | none => .error E_FAIL
    | .ok ⟨_, _, .file none⟩ => .error E_FAIL
    | _ => .error ERROR_DIRECTORY

/-- `start_directory_enumeration`. -/
def startDirectoryEnumeration (filePathName : Except HRESULT Str) (enumerationId : GUID) :
    Except HRESULT Unit × MountContext :=
  match context.newEnumeration E S P filePathName with
  | .error e => (.error e, context)
  | .ok enumeration => (.ok (), { context with
      enumerations := Function.update context.enumerations enumerationId (some enumeration) })

/-- `end_directory_enumeration`. -/
def endDirectoryEnumeration (enumerationId : GUID) : MountContext :=
  { context with enumerations := Function.update context.enumerations enumerationId none }

/-- `get_directory_enumeration`: the entries that the caller gets. -/
def getDirectoryEnumeration (enumerationId : GUID) (call : GetCall) :
    Except HRESULT (List DirEntry) × MountContext :=
  match context.enumerations enumerationId with
  | none => (.error E_INVALIDARG, context)
  | some dir =>
    let (res, dir) := dir.get P call
    (res, { context with
      enumerations := Function.update context.enumerations enumerationId (some dir) })

/-- One callback. -/
def step : Callback → Except HRESULT (List DirEntry) × MountContext
  | .startDirectoryEnumeration filePathName enumerationId =>
    let (res, context) := context.startDirectoryEnumeration E S P filePathName enumerationId
    (res.map fun () => [], context)
  | .endDirectoryEnumeration enumerationId =>
    (.ok [], context.endDirectoryEnumeration enumerationId)
  | .getDirectoryEnumeration enumerationId call =>
    context.getDirectoryEnumeration P enumerationId call

/-- The results of a run of callbacks. -/
def run : MountContext → List Callback → List (Callback × Except HRESULT (List DirEntry))
  | _, [] => []
  | context, callback :: rest =>
    let (res, context) := context.step E S P callback
    (callback, res) :: run context rest

end MountContext

/-! ## The listing of a session -/

/-- What a session has of an entry: its name up to the first `'\0'`. -/
def dirEntry (entry : Entry DvdbndFile) : DirEntry :=
  ((encodeUtf16 entry.name).takeWhile fun unit => unit ≠ 0, fileBasicInfo entry)

/-- A string is stored at an index. -/
def StoredAt (store : List UInt16) (pathIndex : ℕ) (name : Wide) : Prop :=
  ∃ before after, store = before ++ name ++ 0 :: after ∧ before.length = pathIndex

theorem StoredAt.append {store more : List UInt16} {pathIndex : ℕ} {name : Wide}
    (h : StoredAt store pathIndex name) : StoredAt (store ++ more) pathIndex name := by
  obtain ⟨before, after, rfl, hlen⟩ := h
  exact ⟨before, after ++ more, by simp, hlen⟩

theorem StoredAt.pathAt {store : List UInt16} {pathIndex : ℕ} {name : Wide}
    (h : StoredAt store pathIndex name) :
    pathAt store pathIndex = name.takeWhile fun unit => unit ≠ 0 := by
  obtain ⟨before, after, rfl, rfl⟩ := h
  rw [Projfs.pathAt, List.append_assoc, List.drop_left]
  induction name with
  | nil => simp
  | cons unit name ih =>
    rw [List.cons_append, List.takeWhile_cons, List.takeWhile_cons, ih]

namespace DirEnumeration

/-- An element of an index stands for an entry. -/
def Indexes (store : List UInt16) (i : ℕ × PrjFileBasicInfo) (entry : Entry DvdbndFile) : Prop :=
  StoredAt store i.1 (encodeUtf16 entry.name) ∧ i.2 = fileBasicInfo entry

/-- The loop of `from_dir_iter` stores all entries. -/
theorem pushEntries_eq : ∀ {iter done : List (Entry DvdbndFile)}
    {index : List (ℕ × PrjFileBasicInfo)} {store : List UInt16},
    (∀ entry ∈ iter, entry.missing = false) → List.Forall₂ (Indexes store) index done →
      ∃ index' store', pushEntries iter index store = some (index', store') ∧
        List.Forall₂ (Indexes store') index' (done ++ iter)
  | [], done, index, store, _, h => ⟨index, store, rfl, by rwa [List.append_nil]⟩
  | entry :: iter, done, index, store, hiter, h => by
    obtain ⟨hentry, hiter⟩ := List.forall_mem_cons.1 hiter
    set store₁ := store ++ encodeUtf16 entry.name ++ [0] with hstore
    have hold : List.Forall₂ (Indexes store₁) index done := by
      refine h.imp fun i e hi => ⟨?_, hi.2⟩
      rw [hstore, List.append_assoc]
      exact hi.1.append
    have hnew : Indexes store₁ (store.length, fileBasicInfo entry) entry :=
      ⟨⟨store, [], rfl, rfl⟩, rfl⟩
    obtain ⟨index', store', hpush, hall⟩ :=
      pushEntries_eq hiter (List.rel_append hold (.cons hnew .nil))
    refine ⟨index', store', ?_, by rwa [List.append_assoc] at hall⟩
    rw [pushEntries, hentry]
    exact hpush

/-- What is enumerated for an element of an index. -/
def entryAt (store : List UInt16) (i : ℕ × PrjFileBasicInfo) : DirEntry := (pathAt store i.1, i.2)

theorem Indexes.entryAt {store : List UInt16} {i : ℕ × PrjFileBasicInfo} {entry : Entry DvdbndFile}
    (h : Indexes store i entry) : entryAt store i = dirEntry entry := by
  rw [DirEnumeration.entryAt, h.1.pathAt, h.2, dirEntry]

/-- The entries of an enumeration, in index order. -/
def entries (d : DirEnumeration) : List DirEntry := d.index.map (entryAt d.store)

instance (P : ProjectedFileSystem) [Std.TransCmp P.nameOrdering] (store : List UInt16) :
    Std.TransCmp (compareIndex P store) where
  eq_swap {a b} := @Std.OrientedCmp.eq_swap _ P.nameOrdering _ (pathAt store a.1) (pathAt store b.1)
  isLE_trans {a b c} := @Std.TransCmp.isLE_trans _ P.nameOrdering _ (pathAt store a.1) (pathAt store b.1)
    (pathAt store c.1)

/-- **A new enumeration holds the entries of its directory, each once.** -/
theorem fromDirIter_eq (S : SortUnstable) (P : ProjectedFileSystem)
    {iter : List (Entry DvdbndFile)} (hiter : ∀ entry ∈ iter, entry.missing = false) :
    ∃ d, fromDirIter S P iter = some d ∧ d.pos = 0 ∧ d.entries.Perm (iter.map dirEntry) ∧
      (Std.TransCmp P.nameOrdering → d.entries.Pairwise fun a b => P.nameOrdering a.1 b.1 ≠ .gt) := by
  obtain ⟨index, store, hpush, hall⟩ := pushEntries_eq hiter (.nil (R := Indexes []))
  have hentries : index.map (entryAt store) = iter.map dirEntry := by
    rw [← List.forall₂_eq_eq_eq, List.forall₂_map_left_iff, List.forall₂_map_right_iff]
    exact hall.imp fun _ _ h => h.entryAt
  refine ⟨_, by rw [fromDirIter, hpush]; rfl, rfl, ?_, fun _ => ?_⟩
  · rw [← hentries]
    exact (S.perm _ _).map _
  · exact List.pairwise_map.2 (S.sorted (compareIndex P store) index)

/-- The entries of an enumeration, with their positions. -/
def numbered (d : DirEnumeration) : List (ℕ × DirEntry) :=
  d.index.zipIdx.map fun (i, pos) => (pos, entryAt d.store i)

theorem map_snd_numbered (d : DirEnumeration) : d.numbered.map Prod.snd = d.entries := by
  rw [numbered, entries, List.map_map, ← List.zipIdx_map_fst 0 d.index, List.map_map,
    List.zipIdx_map_fst]
  rfl

theorem numbered_positions (d : DirEnumeration) :
    d.numbered.map (fun e => e.1 + 1) = List.range' 1 d.numbered.length := by
  have hsnd : d.numbered.map (fun e => e.1 + 1) = (d.index.zipIdx.map Prod.snd).map (· + 1) := by
    rw [numbered, List.map_map, List.map_map]
    rfl
  rw [hsnd, List.zipIdx_map_snd, ← List.range'_succ_left, numbered, List.length_map,
    List.length_zipIdx]

variable (P : ProjectedFileSystem) (expression : Option Wide)

/-- The listing that a session reads.  The position after an entry is its
    cookie. -/
def listing (d : DirEnumeration) : Listing (ℕ × DirEntry) :=
  (Listing.ofNumbered d.numbered _ d.numbered_positions).filter fun e => Matches P expression e.2.1

/-- The entries that match, in index order. -/
def matching (d : DirEnumeration) : List DirEntry :=
  d.entries.filter fun e => Matches P expression e.1

theorem map_snd_after_zero (d : DirEnumeration) :
    ((d.listing P expression).after 0).map Prod.snd = d.matching P expression := by
  rw [listing, Listing.after_filter, Listing.after_ofNumbered, List.drop_zero, matching,
    ← map_snd_numbered, List.filter_map]
  rfl

/-- **`enumerate` goes over what is left at the position.** -/
theorem enumerate_eq (d : DirEnumeration) :
    d.enumerate P expression = (d.listing P expression).after d.pos := by
  rw [listing, Listing.after_filter, Listing.after_ofNumbered, enumerate, numbered, ← List.map_drop,
    List.filter_map, ← List.filterMap_eq_map, ← List.filterMap_eq_filter, List.filterMap_filterMap]
  congr 1
  funext ⟨⟨pathIndex, info⟩, pos⟩
  cases h : Matches P expression (pathAt d.store pathIndex) <;> simp [Option.guard, entryAt, h]


/-! ## Calls -/

/-- The loop fills the buffer with a part of what it goes over, and stops only
    after the first. -/
theorem fillLoop_eq_ok {startPos stop : ℕ} : ∀ {l : List (ℕ × DirEntry)} {endPos : ℕ}
    {buffer buffer' : DirEntryBuffer}, fillLoop startPos l endPos buffer = .ok (stop, buffer') →
      ∃ page rest, l = page ++ rest ∧ stop = (page.getLast?.map fun e => e.1 + 1).getD endPos ∧
        buffer'.entries = buffer.entries ++ page.map Prod.snd ∧
          (startPos = endPos → page = [] → l = [])
  | [], endPos, buffer, buffer', h => by
    cases h
    exact ⟨[], [], rfl, rfl, (List.append_nil _).symm, fun _ _ => rfl⟩
  | (pos, name, info) :: l, endPos, buffer, buffer', h => by
    rw [fillLoop] at h
    rcases hfill : buffer.prjFillDirEntryBuffer name info with e | filled
    · rw [hfill] at h
      dsimp only at h
      split_ifs at h with he
      cases h
      exact ⟨[], _, rfl, rfl, (List.append_nil _).symm, fun heq => absurd heq he.2⟩
    · rw [hfill] at h
      obtain ⟨page, rest, rfl, hstop, hentries, -⟩ := fillLoop_eq_ok h
      refine ⟨(pos, name, info) :: page, rest, rfl, ?_, ?_, by simp⟩
      · rw [hstop, List.getLast?_cons]
        cases page.getLast? <;> rfl
      · have hfilled : filled.entries = buffer.entries ++ [(name, info)] := by
          rw [DirEntryBuffer.prjFillDirEntryBuffer] at hfill
          split at hfill
          · cases hfill
            rfl
          · cases hfill
        rw [hentries, hfilled, List.append_assoc]
        rfl

/-- Where a call starts. -/
def startOf (d : DirEnumeration) (call : GetCall) : DirEnumeration :=
  if call.Restarts then d.reset else d

theorem listing_startOf (d : DirEnumeration) (call : GetCall) :
    (d.startOf call).listing P expression = d.listing P expression := by
  rw [startOf]
  split <;> rfl

/-- The positions of a listing are those of the index. -/
theorem resume_le (d : DirEnumeration) {page rest : List (ℕ × DirEntry)}
    (h : (d.listing P expression).after d.pos = page ++ rest) :
    (d.listing P expression).resume d.pos page ≤ d.index.length := by
  rw [Listing.resume]
  rcases hlast : page.getLast? with _ | e
  · exact d.pos_le
  · have hmem : e ∈ (d.listing P expression).after d.pos := by
      rw [h]
      exact List.mem_append_left _ (List.mem_of_getLast? hlast)
    have hnum : e ∈ d.numbered := (List.mem_filter.1 (List.mem_filter.1 hmem).1).1
    have hrange : e.1 + 1 ∈ List.range' 1 d.numbered.length := by
      rw [← numbered_positions]
      exact List.mem_map_of_mem hnum
    have hlen : d.numbered.length = d.index.length := by rw [numbered, List.length_map, List.length_zipIdx]
    rw [List.mem_range'_1, hlen] at hrange
    show e.1 + 1 ≤ _
    omega

/-- **What a call does.**  It returns an error and stays where it started, or it
    gives a part of what is left and moves the position after it. -/
theorem get_cases (d : DirEnumeration) (call : GetCall) :
    (∃ e, d.get P call = (.error e, d.startOf call)) ∨
      ∃ page rest, (d.listing P call.searchExpression).after (d.startOf call).pos = page ++ rest ∧
        (page = [] → rest = []) ∧ d.get P call = (.ok (page.map Prod.snd), (d.startOf call).setPos
          ((d.listing P call.searchExpression).resume (d.startOf call).pos page)) := by
  have hget : d.get P call = match fillLoop (d.startOf call).pos
      ((d.startOf call).enumerate P call.searchExpression) (d.startOf call).pos ⟨call.fill, []⟩ with
    | .error e => (.error e, d.startOf call)
    | .ok (endPos, buffer) => (.ok buffer.entries, (d.startOf call).setPos endPos) := rfl
  rw [enumerate_eq, listing_startOf] at hget
  rcases hloop : fillLoop (d.startOf call).pos ((d.listing P call.searchExpression).after
    (d.startOf call).pos) (d.startOf call).pos ⟨call.fill, []⟩ with e | ⟨endPos, buffer⟩
  · rw [hloop] at hget
    exact .inl ⟨e, hget⟩
  · rw [hloop] at hget
    obtain ⟨page, rest, hafter, rfl, hentries, hnil⟩ := fillLoop_eq_ok hloop
    refine .inr ⟨page, rest, hafter, fun hpage => ?_, ?_⟩
    · exact (List.append_eq_nil_iff.1 (hafter.symm.trans (hnil rfl hpage))).2
    · have hpage : buffer.entries = page.map Prod.snd := hentries
      rw [hget, ← hpage]
      rfl

/-- A call gives one page. -/
theorem get_pages (d : DirEnumeration) {call : GetCall} (hex : call.searchExpression = expression) :
    ∃ page, (d.listing P expression).Pages (d.startOf call).pos [page] (d.get P call).2.pos ∧
      page.map (List.map Prod.snd) = (d.get P call).1.toOption := by
  subst hex
  rcases get_cases P d call with ⟨e, hget⟩ | ⟨page, rest, hafter, hnil, hget⟩
  · rw [hget]
    exact ⟨none, .none .nil, rfl⟩
  · rw [hget]
    refine ⟨some page, .some ⟨rest, hafter.symm⟩ (fun h => ?_) ?_, rfl⟩
    · rw [hafter, h, hnil h]
      rfl
    · have hle := resume_le P call.searchExpression (d.startOf call)
        (by rw [listing_startOf]; exact hafter)
      rw [listing_startOf] at hle
      show Listing.Pages _ _ _ (min _ _)
      rw [Nat.min_eq_left hle]
      exact .nil

/-- A call only moves the position. -/
theorem get_same (d : DirEnumeration) (call : GetCall) :
    (d.get P call).2.index = d.index ∧ (d.get P call).2.store = d.store := by
  have hstart : (d.startOf call).index = d.index ∧ (d.startOf call).store = d.store := by
    rw [startOf]
    split <;> exact ⟨rfl, rfl⟩
  rcases get_cases P d call with ⟨e, hget⟩ | ⟨page, rest, -, -, hget⟩
  · rw [hget]
    exact hstart
  · rw [hget]
    exact hstart

theorem entries_get (d : DirEnumeration) (call : GetCall) : (d.get P call).2.entries = d.entries := by
  rw [entries, entries, (get_same P d call).1, (get_same P d call).2]

theorem listing_get (d : DirEnumeration) (call : GetCall) :
    (d.get P call).2.listing P expression = d.listing P expression := by
  obtain ⟨hindex, hstore⟩ := get_same P d call
  simp only [listing, numbered, hindex, hstore]

/-- The results of the calls of a session. -/
def runs : DirEnumeration → List GetCall → List (Except HRESULT (List DirEntry))
  | _, [] => []
  | d, call :: rest => (d.get P call).1 :: runs (d.get P call).2 rest

/-- The session after some calls. -/
def afterRuns : DirEnumeration → List GetCall → DirEnumeration
  | d, [] => d
  | d, call :: rest => afterRuns (d.get P call).2 rest

theorem runs_append (d : DirEnumeration) (calls more : List GetCall) :
    d.runs P (calls ++ more) = d.runs P calls ++ (d.afterRuns P calls).runs P more := by
  induction calls generalizing d with
  | nil => rfl
  | cons call calls ih => rw [List.cons_append, runs, ih, runs, List.cons_append, afterRuns]

theorem length_runs (d : DirEnumeration) (calls : List GetCall) :
    (d.runs P calls).length = calls.length := by
  induction calls generalizing d with
  | nil => rfl
  | cons call calls ih => rw [runs, List.length_cons, ih, List.length_cons]

theorem entries_afterRuns (d : DirEnumeration) (calls : List GetCall) :
    (d.afterRuns P calls).entries = d.entries := by
  induction calls generalizing d with
  | nil => rfl
  | cons call calls ih => rw [afterRuns, ih, entries_get]

variable {expression}

/-- The pages that calls without a restart give. -/
theorem runs_pages (d : DirEnumeration) {calls : List GetCall}
    (hcalls : ∀ call ∈ calls, ¬ call.Restarts ∧ call.searchExpression = expression) :
    ∃ pages c, (d.listing P expression).Pages d.pos pages c ∧
      pages.map (Option.map (List.map Prod.snd)) = (d.runs P calls).map Except.toOption := by
  induction calls generalizing d with
  | nil => exact ⟨[], _, .nil, rfl⟩
  | cons call calls ih =>
    obtain ⟨⟨hrestart, hex⟩, hcalls⟩ := List.forall_mem_cons.1 hcalls
    obtain ⟨page, hpage, hres⟩ := get_pages P expression d hex
    obtain ⟨pages, c, hpages, hmap⟩ := ih (d.get P call).2 hcalls
    rw [listing_get] at hpages
    rw [startOf, if_neg hrestart] at hpage
    exact ⟨page :: pages, c, hpage.append hpages, by rw [List.map_cons, hres, hmap]; rfl⟩

/-- **From a restart on, or from the start, the calls of a session read the
    entries that match.** -/
theorem runs_reads (d : DirEnumeration) {call : GetCall} {calls : List GetCall}
    (hstart : (d.startOf call).pos = 0) (hcall : call.searchExpression = expression)
    (hcalls : ∀ call ∈ calls, ¬ call.Restarts ∧ call.searchExpression = expression) :
    Reads (d.matching P expression) ((d.runs P (call :: calls)).map Except.toOption) := by
  obtain ⟨page, hpage, hres⟩ := get_pages P expression d hcall
  obtain ⟨pages, c, hpages, hmap⟩ := runs_pages P (d.get P call).2 hcalls
  rw [listing_get] at hpages
  rw [hstart] at hpage
  have hreads := (hpage.append hpages).reads.map Prod.snd
  rw [map_snd_after_zero, List.singleton_append, List.map_cons, hres, hmap] at hreads
  exact hreads

end DirEnumeration

/-! ## Sessions -/

/-- The call of a callback to a session. -/
def Callback.getCall (enumerationId : GUID) : Callback → Option GetCall
  | .getDirectoryEnumeration id call => if id = enumerationId then some call else none
  | _ => none

/-- The callback does not start or end a session. -/
def Callback.Keeps (enumerationId : GUID) : Callback → Prop
  | .startDirectoryEnumeration _ id => id ≠ enumerationId
  | .endDirectoryEnumeration id => id ≠ enumerationId
  | .getDirectoryEnumeration .. => True

/-- The calls to a session. -/
def getCalls (enumerationId : GUID) (callbacks : List Callback) : List GetCall :=
  callbacks.filterMap (Callback.getCall enumerationId)

/-- The results of the calls to a session. -/
def sessionResults (enumerationId : GUID)
    (results : List (Callback × Except HRESULT (List DirEntry))) :
    List (Except HRESULT (List DirEntry)) :=
  results.filterMap fun e => (e.1.getCall enumerationId).map fun _ => e.2

theorem sessionResults_cons_none {enumerationId : GUID} {callback : Callback}
    (h : callback.getCall enumerationId = none) (res : Except HRESULT (List DirEntry))
    (results : List (Callback × Except HRESULT (List DirEntry))) :
    sessionResults enumerationId ((callback, res) :: results) =
      sessionResults enumerationId results :=
  List.filterMap_cons_none (by rw [h]; rfl)

theorem sessionResults_cons_some {enumerationId : GUID} {callback : Callback} {call : GetCall}
    (h : callback.getCall enumerationId = some call) (res : Except HRESULT (List DirEntry))
    (results : List (Callback × Except HRESULT (List DirEntry))) :
    sessionResults enumerationId ((callback, res) :: results) =
      res :: sessionResults enumerationId results :=
  List.filterMap_cons_some (by rw [h]; rfl)

namespace MountContext
variable {E : Eytzinger} {S : SortUnstable} {P : ProjectedFileSystem} {enumerationId : GUID}

theorem getDirectoryEnumeration_of_some {context : MountContext} {d : DirEnumeration}
    (hd : context.enumerations enumerationId = some d) (call : GetCall) :
    context.getDirectoryEnumeration P enumerationId call = ((d.get P call).1, { context with
      enumerations := Function.update context.enumerations enumerationId (d.get P call).2 }) := by
  rw [getDirectoryEnumeration, hd]

/-- A callback that is not a call to a session leaves the session alone. -/
theorem enumerations_step {context : MountContext} {callback : Callback}
    (hkeeps : callback.Keeps enumerationId) (hcall : callback.getCall enumerationId = none) :
    (context.step E S P callback).2.enumerations enumerationId =
      context.enumerations enumerationId := by
  rcases callback with ⟨filePathName, id⟩ | id | ⟨id, call⟩
  · rw [step, startDirectoryEnumeration]
    rcases context.newEnumeration E S P filePathName with e | enumeration
    · rfl
    · exact Function.update_of_ne (Ne.symm hkeeps) _ _
  · exact Function.update_of_ne (Ne.symm hkeeps) _ _
  · have hne : id ≠ enumerationId := by
      intro h
      rw [Callback.getCall, if_pos h] at hcall
      cases hcall
    rw [step, getDirectoryEnumeration]
    split
    · rfl
    · exact Function.update_of_ne hne.symm _ _

/-- **A session does not depend on the other sessions.** -/
theorem sessionResults_run {callbacks : List Callback} {context : MountContext}
    {d : DirEnumeration} (hd : context.enumerations enumerationId = some d)
    (hkeeps : ∀ callback ∈ callbacks, callback.Keeps enumerationId) :
    sessionResults enumerationId (context.run E S P callbacks) =
      d.runs P (getCalls enumerationId callbacks) := by
  induction callbacks generalizing context d with
  | nil => rfl
  | cons callback callbacks ih =>
    obtain ⟨hkeep, hrest⟩ := List.forall_mem_cons.1 hkeeps
    rw [run]
    rcases hcall : callback.getCall enumerationId with _ | call
    · rw [sessionResults_cons_none hcall, getCalls, List.filterMap_cons_none hcall]
      exact ih ((enumerations_step hkeep hcall).trans hd) hrest
    · rw [sessionResults_cons_some hcall, getCalls, List.filterMap_cons_some hcall]
      obtain rfl : callback = .getDirectoryEnumeration enumerationId call := by
        rcases callback with _ | _ | ⟨id, call'⟩
        · cases hcall
        · cases hcall
        · rw [Callback.getCall] at hcall
          split_ifs at hcall with h
          cases hcall
          rw [h]
      set next : MountContext := { context with
        enumerations := Function.update context.enumerations enumerationId (d.get P call).2 }
      have hstep : context.step E S P (.getDirectoryEnumeration enumerationId call) =
          ((d.get P call).1, next) := by
        rw [step, getDirectoryEnumeration_of_some hd]
      have hnext : next.enumerations enumerationId = some (d.get P call).2 :=
        Function.update_self _ _ _
      rw [hstep, DirEnumeration.runs, ← getCalls, ← ih hnext hrest]

section
variable {context : MountContext} {obj : RofsObject DvdbndConfig DvdbndFile} {path : Str}
  {inode : UInt64} {e : Entry DvdbndFile} {start stop : ℕ}

/-- **A session starts with the entries of its directory.** -/
theorem startDirectoryEnumeration_eq (S : SortUnstable) (P : ProjectedFileSystem)
    (enumerationId : GUID) (h : obj.IntoRofs E context.mount.fs.inner)
    (hlookup : context.mount.fs.inner.lookup E path = .ok inode)
    (he : context.mount.fs.inner.entry inode = .ok e) (hkind : e.kind = .dir start stop) :
    ∃ d, context.startDirectoryEnumeration E S P (.ok path) enumerationId =
        (.ok (), { context with
          enumerations := Function.update context.enumerations enumerationId (some d) }) ∧
      d.pos = 0 ∧ d.entries.Perm ((context.mount.fs.inner.dirIter start stop).map dirEntry) ∧
      (Std.TransCmp P.nameOrdering → d.entries.Pairwise fun a b => P.nameOrdering a.1 b.1 ≠ .gt) := by
  have hmissing : ∀ entry ∈ context.mount.fs.inner.dirIter start stop, entry.missing = false :=
    fun entry hmem => h.not_missing hmem
  obtain ⟨d, hd, hpos, hperm, hsorted⟩ := DirEnumeration.fromDirIter_eq S P hmissing
  refine ⟨d, ?_, hpos, hperm, hsorted⟩
  obtain ⟨inode', name, kind⟩ := e
  subst hkind
  have hnew : context.newEnumeration E S P (.ok path) = .ok d := by
    show (match context.mount.fs.inner.lookup E path with
      | .error _ => _
      | .ok inode => _) = _
    rw [hlookup]
    dsimp only
    rw [he]
    dsimp only
    rw [hd]
  rw [startDirectoryEnumeration, hnew]

end

/-- A call that returns an error, and does not restart, changes nothing. -/
theorem getDirectoryEnumeration_of_error {context : MountContext} {call : GetCall} {e : HRESULT}
    (hcall : ¬ call.Restarts)
    (h : (context.getDirectoryEnumeration P enumerationId call).1 = .error e) :
    (context.getDirectoryEnumeration P enumerationId call).2 = context := by
  rcases hd : context.enumerations enumerationId with _ | d
  · rw [getDirectoryEnumeration, hd]
  · rw [getDirectoryEnumeration_of_some hd] at h ⊢
    rcases DirEnumeration.get_cases P d call with ⟨e', hget⟩ | ⟨page, rest, -, -, hget⟩
    · rw [hget, DirEnumeration.startOf, if_neg hcall]
      show (⟨_, Function.update _ _ _⟩ : MountContext) = _
      rw [← hd, Function.update_eq_self]
    · rw [hget] at h
      cases h

variable (E S P) in
/-- In every run of callbacks that does not start or end the session, the calls
    from a restart to the next read the entries that match. -/
def SessionReads (context : MountContext) (enumerationId : GUID) (listing : List DirEntry) : Prop :=
  ∀ (callbacks : List Callback) (before calls after : List GetCall) (call : GetCall)
    (expression : Option Wide), (∀ callback ∈ callbacks, callback.Keeps enumerationId) →
    getCalls enumerationId callbacks = before ++ call :: calls ++ after →
    (before = [] ∨ call.Restarts) → call.searchExpression = expression →
    (∀ call ∈ calls, ¬ call.Restarts ∧ call.searchExpression = expression) →
    Reads (listing.filter fun e => DirEnumeration.Matches P expression e.1)
      ((((sessionResults enumerationId (context.run E S P callbacks)).drop before.length).take
        (call :: calls).length).map Except.toOption)

/-- **A session reads its directory.** -/
theorem sessionReads {context : MountContext} {d : DirEnumeration}
    (hd : context.enumerations enumerationId = some d) (hpos : d.pos = 0) :
    context.SessionReads E S P enumerationId d.entries := by
  intro callbacks before calls after call expression hkeeps hsplit hfirst hcall hcalls
  rw [sessionResults_run hd hkeeps, hsplit, List.append_assoc, DirEnumeration.runs_append,
    List.drop_left' (DirEnumeration.length_runs P d before), DirEnumeration.runs_append,
    List.take_left' (DirEnumeration.length_runs P _ _)]
  have hstart : ((d.afterRuns P before).startOf call).pos = 0 := by
    rw [DirEnumeration.startOf]
    split_ifs with hrestarts
    · rfl
    · obtain rfl := hfirst.resolve_right hrestarts
      exact hpos
  have hreads := DirEnumeration.runs_reads P (d.afterRuns P before) hstart hcall hcalls
  rwa [DirEnumeration.matching, DirEnumeration.entries_afterRuns] at hreads

end MountContext

end Fsvfs.Dvdbnd.Projfs
