/-
  Listing a directory with FUSE (`src/dvdbnd/mount/fuser.rs`).

  A reply of the `fuser` crate takes an entry or is full, whatever it holds
  (`Capacity`).  A client starts at the offset 0 and resumes at the offset of the
  last entry that it was given (`client`).  A directory has fewer than `2 ^ 32`
  entries, so that the counter of `zip(1..)` does not end.

  * `serves_readdirWith`: a call gives what it has room for of what is left;
  * `client_reads`: replies that have room for an entry read the directory.
-/
import Fsvfs.Dvdbnd.Read
import Fsvfs.Filesystem.Listing
import Fsvfs.Lib.Paging

namespace Fsvfs.Dvdbnd.Fuser

open Lib

/-- `Errno`, as far as `readdir` replies with it. -/
inductive Errno where
  | ENOENT
deriving DecidableEq, Repr

/-- Why a call gives no entries. -/
inductive Failure where
  | panic
  | errno (errno : Errno)
deriving DecidableEq, Repr

/-- `FileType`. -/
inductive FileType where
  | directory
  | regularFile
deriving DecidableEq, Repr

def BLOCK_SIZE : ℕ := 512

/-- `CACHE_TTL`, in seconds. -/
def CACHE_TTL : ℕ := 60

/-- `SystemTime`, in nanoseconds since the epoch. -/
abbrev SystemTime := ℤ

/-- `FileAttr`. -/
structure FileAttr where
  ino : UInt64
  size : UInt64
  blocks : UInt64
  atime : SystemTime
  mtime : SystemTime
  ctime : SystemTime
  crtime : SystemTime
  kind : FileType
  perm : UInt16
  nlink : UInt32
  uid : UInt32
  gid : UInt32
  rdev : UInt32
  blksize : UInt32
  flags : UInt32
deriving DecidableEq

/-- `file_type`. -/
def fileType {T : Type} (entry : Entry T) : FileType := match entry.kind with
  | .dir _ _ => .directory
  | .file _ => .regularFile

/-! ## Replies -/

/-- Whether a reply that holds some entries has room for one more. -/
abbrev Capacity (ι : Type) := List ι → ι → Bool

/-- `ReplyDirectory` and `ReplyDirectoryPlus`. -/
structure DirectoryReply (ι : Type) where
  capacity : Capacity ι
  entries : List ι

namespace DirectoryReply
variable {ι : Type}

/-- A reply without entries. -/
def new (capacity : Capacity ι) : DirectoryReply ι := ⟨capacity, []⟩

/-- Adding an entry: whether the reply is full, which then does not take it. -/
def add (reply : DirectoryReply ι) (entry : ι) : Bool × DirectoryReply ι :=
  if reply.capacity reply.entries entry then
    (false, { reply with entries := reply.entries ++ [entry] })
  else (true, reply)

end DirectoryReply

/-- An entry of a `ReplyDirectory`. -/
structure DirectoryEntry where
  ino : UInt64
  offset : UInt64
  kind : FileType
  name : Str
deriving DecidableEq

/-- An entry of a `ReplyDirectoryPlus`. -/
structure DirectoryPlusEntry where
  ino : UInt64
  offset : UInt64
  name : Str
  ttl : ℕ
  attr : FileAttr
  generation : UInt64
deriving DecidableEq

/-- `ArcDvdbndMount`, with the timestamp of its mount. -/
structure ArcDvdbndMount extends DvdbndMount where
  timestamp : SystemTime

/-! ## `readdir` and `readdirplus` -/

/-- The loop over the entries of a directory, each with the offset after it. -/
def fillReply {T ι : Type} (item : Entry T → UInt64 → ι) :
    List (Entry T × ℕ) → DirectoryReply ι → Except Failure (DirectoryReply ι)
  | [], reply => .ok reply
  | (entry, next) :: rest, reply =>
    if entry.missing then .error .panic else
      match reply.add (item entry (UInt64.ofNat next)) with
      | (true, reply) => .ok reply
      | (false, reply) => fillReply item rest reply

namespace ArcDvdbndMount
variable (mount : ArcDvdbndMount)

/-- `ArcDvdbndMount::file_attr`. -/
def fileAttr (ino : UInt64) (entry : Entry DvdbndFile) : FileAttr :=
  let (size, blocks) := match entry.kind with
    | .file (some data) =>
      let size := data.getUnpaddedLen
      (size.toUInt64, UInt64.ofNat ((size.toNat + BLOCK_SIZE - 1) / BLOCK_SIZE))
    | _ => (0, 0)
  { ino := ino
    size := size
    blocks := blocks
    atime := mount.timestamp
    mtime := mount.timestamp
    ctime := mount.timestamp
    crtime := mount.timestamp
    kind := fileType entry
    perm := 0o555
    nlink := 1
    uid := 0
    gid := 0
    rdev := 0
    blksize := UInt32.ofNat BLOCK_SIZE
    flags := 0 }

/-- `readdir` and `readdirplus`, with what they add to the reply. -/
def readdirWith {ι : Type} (item : Entry DvdbndFile → UInt64 → ι) (ino offset : UInt64)
    (reply : DirectoryReply ι) : Except Failure (DirectoryReply ι) :=
  match mount.fs.inner.entry ino with
  | .ok ⟨_, _, .dir start stop⟩ =>
    let iter := mount.fs.inner.dirIter start stop
    -- `skip` reads what it skips
    if (iter.take offset.toNat).any Entry.missing then .error .panic
    else fillReply item ((iter.zipIdx 1).drop offset.toNat) reply
  | .ok ⟨_, _, .file none⟩ => .error .panic
  | _ => .error (.errno .ENOENT)

/-- What `readdir` adds for an entry. -/
def directoryEntry (entry : Entry DvdbndFile) (next : UInt64) : DirectoryEntry where
  ino := entry.inode
  offset := next
  kind := fileType entry
  name := entry.name

/-- What `readdirplus` adds for an entry. -/
def directoryPlusEntry (entry : Entry DvdbndFile) (next : UInt64) : DirectoryPlusEntry where
  ino := entry.inode
  offset := next
  name := entry.name
  ttl := CACHE_TTL
  attr := mount.fileAttr entry.inode entry
  generation := 0

/-- `Filesystem::readdir`. -/
def readdir : UInt64 → UInt64 → DirectoryReply DirectoryEntry →
    Except Failure (DirectoryReply DirectoryEntry) :=
  mount.readdirWith directoryEntry

/-- `Filesystem::readdirplus`. -/
def readdirplus : UInt64 → UInt64 → DirectoryReply DirectoryPlusEntry →
    Except Failure (DirectoryReply DirectoryPlusEntry) :=
  mount.readdirWith mount.directoryPlusEntry

end ArcDvdbndMount

/-! ## Clients -/

section
variable {ι : Type}

/-- The pages that a client is given from an offset on. -/
def client (call : UInt64 → DirectoryReply ι → Except Failure (DirectoryReply ι))
    (cookie : ι → UInt64) : UInt64 → List (Capacity ι) → Except Failure (List (List ι))
  | _, [] => .ok []
  | offset, capacity :: rest => do
    let reply ← call offset (.new capacity)
    let pages ← client call cookie ((reply.entries.getLast?.map cookie).getD offset) rest
    .ok (reply.entries :: pages)

/-- Each reply has room for the first entry that it is offered. -/
def RoomForOne (children : List ι) (capacities : List (Capacity ι)) (pages : List (List ι)) : Prop :=
  ∀ i capacity child, capacities[i]? = some capacity →
    children[(pages.take i).flatten.length]? = some child → capacity [] child = true

theorem RoomForOne.head {page rest : List ι} {capacity : Capacity ι}
    {capacities : List (Capacity ι)} {pages : List (List ι)}
    (h : RoomForOne (page ++ rest) (capacity :: capacities) (page :: pages)) :
    ∀ child ∈ (page ++ rest).head?, capacity [] child = true := by
  intro child hchild
  exact h 0 capacity child rfl (by rwa [List.take_zero, List.flatten_nil, List.length_nil,
    ← List.head?_eq_getElem?])

theorem RoomForOne.tail {page rest : List ι} {capacity : Capacity ι}
    {capacities : List (Capacity ι)} {pages : List (List ι)}
    (h : RoomForOne (page ++ rest) (capacity :: capacities) (page :: pages)) :
    RoomForOne rest capacities pages := by
  intro i capacity child hcapacity hchild
  refine h (i + 1) capacity child (by simpa using hcapacity) ?_
  rw [List.take_succ_cons, List.flatten_cons, List.length_append, List.getElem?_append_right (by omega),
    Nat.add_sub_cancel_left]
  exact hchild

/-- A call gives what it has room for of what is left. -/
def Serves (call : UInt64 → DirectoryReply ι → Except Failure (DirectoryReply ι))
    (children : List ι) : Prop :=
  ∀ offset capacity, ∃ page rest, children.drop offset.toNat = page ++ rest ∧
    call offset (.new capacity) = .ok ⟨capacity, page⟩ ∧
      (page = [] → ∀ child ∈ rest.head?, capacity [] child = false)

variable {call : UInt64 → DirectoryReply ι → Except Failure (DirectoryReply ι)}
  {cookie : ι → UInt64} {children : List ι}

/-- The pages of a client.  A page is `none` if its reply has no room for the
    first entry that it is offered. -/
theorem client_pages (hcall : Serves call children)
    (hnum : (children.map fun child => (cookie child).toNat) = List.range' 1 children.length)
    (capacities : List (Capacity ι)) (offset : UInt64) :
    ∃ pages opts c, client call cookie offset capacities = .ok pages ∧
      (Listing.ofNumbered children _ hnum).Pages offset.toNat opts c ∧
      opts.map (·.getD []) = pages ∧
      (RoomForOne (children.drop offset.toNat) capacities pages → opts = pages.map some) := by
  induction capacities generalizing offset with
  | nil => exact ⟨[], [], _, rfl, .nil, rfl, fun _ => rfl⟩
  | cons capacity capacities ih =>
    obtain ⟨page, rest, hdrop, hreply, hfull⟩ := hcall offset capacity
    set next := (page.getLast?.map cookie).getD offset with hnext
    obtain ⟨pages, opts, c, hpages, hopts, hmap, hroom⟩ := ih next
    have hclient : client call cookie offset (capacity :: capacities) = .ok (page :: pages) := by
      rw [client, hreply]
      show Except.bind (client call cookie next capacities) _ = _
      rw [hpages]
      rfl
    have hafter := Listing.after_ofNumbered hnum
    have hresume : (Listing.ofNumbered children _ hnum).resume offset.toNat page = next.toNat := by
      rw [hnext, Listing.resume]
      cases page.getLast? <;> rfl
    have hrest : children.drop next.toNat = rest := by
      rw [← hafter, ← hresume]
      exact Listing.after_resume (by rw [hafter, hdrop])
    have hprefix : page <+: (Listing.ofNumbered children _ hnum).after offset.toNat := by
      rw [hafter, hdrop]
      exact List.prefix_append _ _
    have htail : RoomForOne (children.drop offset.toNat) (capacity :: capacities) (page :: pages) →
        opts = pages.map some := by
      rw [hdrop]
      intro h
      exact hroom (by rw [hrest]; exact h.tail)
    rw [← hresume] at hopts
    rcases page with _ | ⟨child, page⟩
    · rcases rest with _ | ⟨child, rest⟩
      · -- nothing is left
        refine ⟨_, some [] :: opts, c, hclient, .some hprefix ?_ hopts, by simp [hmap], ?_⟩
        · intro _
          rw [hafter, hdrop]
          rfl
        · intro h
          rw [htail h, List.map_cons]
      · -- the reply has no room for `child`
        refine ⟨_, none :: opts, c, hclient, .none hopts, by simp [hmap], fun h => ?_⟩
        rw [hdrop] at h
        exact absurd (h.head child rfl) (by simpa using hfull rfl child rfl)
    · refine ⟨_, some (child :: page) :: opts, c, hclient, .some hprefix (by simp) hopts,
        by simp [hmap], fun h => ?_⟩
      rw [htail h, List.map_cons]

/-- Whatever replies it has, a client that starts at the offset 0 is given the
    entries in order, each once, and all of them if its replies have room. -/
def ClientReads (call : UInt64 → DirectoryReply ι → Except Failure (DirectoryReply ι))
    (cookie : ι → UInt64) (children : List ι) : Prop :=
  ∀ capacities, ∃ pages, client call cookie 0 capacities = .ok pages ∧
    pages.flatten <+: children ∧
      (RoomForOne children capacities pages → Reads children (pages.map some))

/-- **A client reads a directory from its start.** -/
theorem client_reads (hcall : Serves call children)
    (hnum : (children.map fun child => (cookie child).toNat) = List.range' 1 children.length) :
    ClientReads call cookie children := by
  intro capacities
  obtain ⟨pages, opts, c, hpages, hopts, hmap, hroom⟩ := client_pages hcall hnum capacities 0
  have hreads := hopts.reads
  rw [Listing.after_ofNumbered hnum, show (0 : UInt64).toNat = 0 from rfl, List.drop_zero] at hreads
  refine ⟨pages, hpages, ?_, fun h => ?_⟩
  · rw [← hmap, ← List.flatMap_def]
    exact hreads.in_order
  · rwa [← hroom h]

end

/-! ## A directory -/

section
variable {T ι : Type}

/-- The entries of a directory, as they are added to replies. -/
def children (item : Entry T → UInt64 → ι) (iter : List (Entry T)) : List ι :=
  (iter.zipIdx 1).map fun (entry, next) => item entry (UInt64.ofNat next)

/-- The loop takes entries until one does not fit. -/
theorem fillReply_eq (item : Entry T → UInt64 → ι) {l : List (Entry T × ℕ)}
    (hl : ∀ e ∈ l, e.1.missing = false) (reply : DirectoryReply ι) :
    ∃ page rest, (l.map fun (entry, next) => item entry (UInt64.ofNat next)) = page ++ rest ∧
      fillReply item l reply = .ok ⟨reply.capacity, reply.entries ++ page⟩ ∧
        (page = [] → ∀ child ∈ rest.head?, reply.capacity reply.entries child = false) := by
  induction l generalizing reply with
  | nil => exact ⟨[], [], rfl, by rw [fillReply, List.append_nil], by simp⟩
  | cons e l ih =>
    obtain ⟨entry, next⟩ := e
    obtain ⟨he, hl⟩ := List.forall_mem_cons.1 hl
    set child := item entry (UInt64.ofNat next) with hchild
    rw [fillReply, he, ← hchild, DirectoryReply.add]
    by_cases hfits : reply.capacity reply.entries child = true
    · obtain ⟨page, rest, heq, hfill, -⟩ := ih hl ⟨reply.capacity, reply.entries ++ [child]⟩
      refine ⟨child :: page, rest, by rw [List.map_cons, heq]; rfl, ?_, by simp⟩
      rw [if_pos hfits]
      show fillReply item l ⟨reply.capacity, reply.entries ++ [child]⟩ = _
      rw [hfill, List.append_assoc, List.singleton_append]
    · refine ⟨[], child :: l.map fun (entry, next) => item entry (UInt64.ofNat next), rfl, ?_, ?_⟩
      · rw [if_neg hfits, List.append_nil]
        rfl
      · intro _ c hc
        obtain rfl : child = c := by simpa using hc
        simpa using hfits

end

namespace ArcDvdbndMount
variable {mount : ArcDvdbndMount} {E : Eytzinger} {obj : RofsObject DvdbndConfig DvdbndFile}
  {ino : UInt64} {e : Entry DvdbndFile} {start stop : ℕ} {ι : Type}

theorem serves_readdirWith (h : obj.IntoRofs E mount.fs.inner)
    (he : mount.fs.inner.entry ino = .ok e) (hkind : e.kind = .dir start stop)
    (item : Entry DvdbndFile → UInt64 → ι) :
    Serves (mount.readdirWith item ino) (children item (mount.fs.inner.dirIter start stop)) := by
  intro offset capacity
  set iter := mount.fs.inner.dirIter start stop with hiter
  have hmissing : ∀ entry ∈ iter, entry.missing = false := fun entry hmem => h.not_missing hmem
  have hskip : (iter.take offset.toNat).any Entry.missing = false := by
    rw [List.any_eq_false]
    intro entry hmem
    simp [hmissing entry (List.mem_of_mem_take hmem)]
  have hzip : ∀ e ∈ (iter.zipIdx 1).drop offset.toNat, e.1.missing = false := by
    intro e hmem
    exact hmissing e.1 (List.fst_mem_of_mem_zipIdx (List.mem_of_mem_drop hmem))
  obtain ⟨page, rest, heq, hfill, hfull⟩ := fillReply_eq item hzip (.new capacity)
  refine ⟨page, rest, ?_, ?_, hfull⟩
  · rw [children, ← List.map_drop, heq]
  · obtain ⟨inode, name, kind⟩ := e
    subst hkind
    rw [readdirWith, he]
    show (if (iter.take offset.toNat).any Entry.missing then _ else _) = _
    rw [hskip, if_neg Bool.false_ne_true, hfill]
    rfl

/-- The offsets of the entries count them from one on. -/
theorem offset_children (h : obj.IntoRofs E mount.fs.inner) {item : Entry DvdbndFile → UInt64 → ι}
    {cookie : ι → UInt64} (hcookie : ∀ entry next, cookie (item entry next) = next) :
    ((children item (mount.fs.inner.dirIter start stop)).map fun child => (cookie child).toNat) =
      List.range' 1 (children item (mount.fs.inner.dirIter start stop)).length := by
  have hlt := h.length_dirIter_lt start stop
  set iter := mount.fs.inner.dirIter start stop
  rw [children, List.map_map, List.length_map, List.length_zipIdx, ← List.zipIdx_map_snd 1 iter]
  refine List.map_congr_left fun e hmem => ?_
  have hle := List.snd_lt_add_of_mem_zipIdx hmem
  show (cookie (item e.1 (UInt64.ofNat e.2))).toNat = e.2
  rw [hcookie, UInt64.toNat_ofNat']
  omega

end ArcDvdbndMount

end Fsvfs.Dvdbnd.Fuser
