/-
  A session of a FUSE client (`src/dvdbnd/mount/fuser.rs`).

  Requests come with what the client has been given: inodes of `lookup`, and handles
  of `open` and `opendir`.  Listings are left out, since their inodes are not those
  of `lookup`, and so is `statfs`.  A request that is read on another thread may not
  be dispatched.

  * `answers_of_run`: in every run, a client that uses what it was given is never
    told that it is stale, nor that it does not exist.
-/
import Fsvfs.Dvdbnd.Contents
import Fsvfs.Dvdbnd.Fuser
import Fsvfs.Dvdbnd.ReadFiles
import Fsvfs.Filesystem.Walk

namespace Fsvfs.Dvdbnd.Session

open Lib Fuser

/-- `Errno`. -/
inductive Errno where
  | ENOSYS
  | ENOENT
  | EROFS
  | ENOTDIR
  | ESTALE
  | EIO
  | EACCES
  | ENOTSUP
deriving DecidableEq

/-- `OpenAccMode`. -/
inductive OpenAccMode where
  | O_RDONLY
  | O_WRONLY
  | O_RDWR
deriving DecidableEq

/-- `FopenFlags`. -/
inductive FopenFlags where
  | FOPEN_NOFLUSH
  | FOPEN_KEEP_CACHE
  | FOPEN_CACHE_DIR
deriving DecidableEq

/-- The requests. -/
inductive Request where
  | lookup (parent : UInt64) (name : OsStr)
  | getattr (ino : UInt64)
  | openFile (ino : UInt64) (mode : OpenAccMode)
  | opendir (ino : UInt64) (mode : OpenAccMode)
  | read (ino fh offset : UInt64) (size : UInt32) (dispatched : Bool)
  | release (ino fh : UInt64)
  | releasedir (ino fh : UInt64)
  | fsync (ino fh : UInt64)
  | fsyncdir (ino fh : UInt64)
  | getxattr (ino : UInt64) (name : OsStr)
  | access (ino : UInt64) (write : Bool)

/-- The replies. -/
inductive Reply where
  | error (errno : Errno)
  | entry (ttl : ℕ) (attr : FileAttr) (generation : UInt64)
  | attr (ttl : ℕ) (attr : FileAttr)
  | opened (fh : UInt64) (flags : List FopenFlags)
  | data (bytes : List UInt8)
  | ok

section
variable (E : Eytzinger) (mount : ArcDvdbndMount)

/-- `ReadOnlyFilesystem::entry`, which panics if the file does not exist. -/
def entry (ino : UInt64) : Checked (Except RofsError (Entry DvdbndFile)) := match mount.fs.inner.entry ino with
  | .error e => .ok (.error e)
  | .ok entry => if entry.missing then .error .panic else .ok (.ok entry)

/-- `Filesystem::lookup`. -/
def lookup (parent : UInt64) (name : OsStr) : Checked Reply := match OsStr.toStr name with
  | none => .ok (.error .ENOSYS)
  | some name => match mount.fs.inner.lookupInDir E parent name with
    | .error _ => .ok (.error .ENOENT)
    | .ok ino => do
      match ← entry mount ino with
      | .error _ => .ok (.error .ENOENT)
      | .ok e => .ok (.entry CACHE_TTL (mount.fileAttr ino e) 0)

/-- `Filesystem::getattr`. -/
def getattr (ino : UInt64) : Checked Reply := do
  match ← entry mount ino with
  | .error _ => .ok (.error .ENOENT)
  | .ok e => .ok (.attr CACHE_TTL (mount.fileAttr ino e))

/-- `Filesystem::open`. -/
def openFile (ino : UInt64) (mode : OpenAccMode) : Checked Reply :=
  if mode = .O_RDONLY then .ok (.opened ino [.FOPEN_NOFLUSH, .FOPEN_KEEP_CACHE]) else .ok (.error .EROFS)

/-- `Filesystem::opendir`. -/
def opendir (ino : UInt64) (mode : OpenAccMode) : Checked Reply :=
  if mode ≠ .O_RDONLY then .ok (.error .EROFS)
  else do
    match ← entry mount ino with
    | .ok ⟨_, _, .dir _ _⟩ => .ok (.opened ino [.FOPEN_NOFLUSH, .FOPEN_CACHE_DIR])
    | .ok _ => .ok (.error .ENOTDIR)
    | .error _ => .ok (.error .ENOENT)

/-- The task that `read` dispatches. -/
def readTask (ino : UInt64) (offset len : ℕ) : Checked Reply :=
  let run := mount.readFile ino (UInt64.ofNat offset) (UInt32.ofNat len)
  match run.result with
  | .ok _ => .ok (.data (delivered run.events))
  | .error .error => .ok (.error Errno.EIO)
  | .error .panic => .error .panic

/-- `Filesystem::read`. -/
def read (ino fh offset : UInt64) (size : UInt32) (dispatched : Bool) : Checked Reply :=
  if ino = fh then do
    match ← entry mount ino with
    | .ok ⟨_, _, .file (some file)⟩ =>
      let fileLen := file.getUnpaddedLen.toNat
      let offset := min offset.toNat fileLen
      let len := min (fileLen - offset) size.toNat
      if dispatched then readTask mount ino offset len else .ok (.error Errno.EIO)
    | _ => .ok (.error .ESTALE)
  else .ok (.error .ESTALE)

/-- `Filesystem::release`. -/
def release (ino fh : UInt64) : Checked Reply :=
  if ino = fh then do
    match ← entry mount ino with
    | .ok ⟨_, _, .file _⟩ => .ok .ok
    | _ => .ok (.error .ESTALE)
  else .ok (.error .ESTALE)

/-- `Filesystem::releasedir`. -/
def releasedir (ino fh : UInt64) : Checked Reply :=
  if ino = fh then do
    match ← entry mount ino with
    | .ok ⟨_, _, .dir _ _⟩ => .ok .ok
    | _ => .ok (.error .ESTALE)
  else .ok (.error .ESTALE)

/-- The reply to a request. -/
def handle : Request → Checked Reply
  | .lookup parent name => lookup E mount parent name
  | .getattr ino => getattr mount ino
  | .openFile ino mode => openFile ino mode
  | .opendir ino mode => opendir mount ino mode
  | .read ino fh offset size dispatched => read mount ino fh offset size dispatched
  | .release ino fh => release mount ino fh
  | .releasedir ino fh => releasedir mount ino fh
  | .fsync _ _ => .ok .ok
  | .fsyncdir _ _ => .ok .ok
  | .getxattr _ _ => .ok (.error .ENOTSUP)
  | .access _ write => if write then .ok (.error .EACCES) else .ok .ok

end

/-! ## Clients -/

/-- What a client has been given: the attributes of `lookup`, and the open files
    and directories with their handles. -/
structure Client where
  known : List FileAttr
  files : List (UInt64 × UInt64)
  dirs : List (UInt64 × UInt64)

namespace Client
variable (client : Client)

/-- A client that has been given nothing. -/
def new : Client := ⟨[], [], []⟩

/-- The root is a directory, and the kind of what was found is known. -/
def HasKind (ino : UInt64) (kind : FileType) : Prop :=
  (ino = DvdbndConfig.inodeRoot ∧ kind = .directory) ∨ ∃ attr ∈ client.known, attr.ino = ino ∧ attr.kind = kind

def Knows (ino : UInt64) : Prop := ∃ kind, client.HasKind ino kind

/-- The requests that a client makes. -/
def Asks : Request → Prop
  | .lookup parent _ => client.Knows parent
  | .getattr ino => client.Knows ino
  | .openFile ino _ => client.HasKind ino .regularFile
  | .opendir ino _ => client.Knows ino
  | .read ino fh _ _ _ => (ino, fh) ∈ client.files
  | .release ino fh => (ino, fh) ∈ client.files
  | .releasedir ino fh => (ino, fh) ∈ client.dirs
  | .fsync ino fh => (ino, fh) ∈ client.files
  | .fsyncdir ino fh => (ino, fh) ∈ client.dirs
  | .getxattr ino _ => client.Knows ino
  | .access ino _ => client.Knows ino

/-- What a reply gives a client. -/
def receive : Request → Reply → Client
  | .lookup _ _, .entry _ attr _ => { client with known := attr :: client.known }
  | .openFile ino _, .opened fh _ => { client with files := (ino, fh) :: client.files }
  | .opendir ino _, .opened fh _ => { client with dirs := (ino, fh) :: client.dirs }
  | .release ino fh, .ok => { client with files := client.files.erase (ino, fh) }
  | .releasedir ino fh, .ok => { client with dirs := client.dirs.erase (ino, fh) }
  | _, _ => client

/-- An attribute is the one that is known. -/
structure Agrees (attr : FileAttr) : Prop where
  kind : ∀ kind, client.HasKind attr.ino kind → attr.kind = kind
  known : ∀ a ∈ client.known, a.ino = attr.ino → attr = a

end Client

/-- A run of a client: its requests and their replies. -/
inductive Run (E : Eytzinger) (mount : ArcDvdbndMount) : Client → List (Request × Reply) → Client → Prop
  | nil {client} : Run E mount client [] client
  | cons {client req reply rest client'} : client.Asks req → handle E mount req = .ok reply →
      Run E mount (client.receive req reply) rest client' → Run E mount client ((req, reply) :: rest) client'

/-! ## Replies -/

/-- What the reply to a request is, for a client. -/
def Answers (E : Eytzinger) (mount : ArcDvdbndMount) (client : Client) : Request → Reply → Prop
  | .lookup parent name, reply => match OsStr.toStr name with
    | none => reply = .error .ENOSYS
    | some name => match mount.fs.inner.lookupInDir E parent name with
      | .error _ => reply = .error .ENOENT
      | .ok ino => ∃ attr, reply = .entry CACHE_TTL attr 0 ∧ attr.ino = ino ∧ client.Agrees attr
  | .getattr ino, reply => ∃ attr, reply = .attr CACHE_TTL attr ∧ attr.ino = ino ∧ client.Agrees attr
  | .openFile ino mode, reply => if mode = .O_RDONLY then ∃ flags, reply = .opened ino flags
    else reply = .error .EROFS
  | .opendir ino mode, reply => if mode ≠ .O_RDONLY then reply = .error .EROFS
    else ∀ kind, client.HasKind ino kind → match kind with
      | .directory => ∃ flags, reply = .opened ino flags
      | .regularFile => reply = .error .ENOTDIR
  | .read ino _ offset size dispatched, reply =>
    if dispatched = true ∧ (mount.readFile ino offset size).result = .ok () then
      reply = .data (delivered (mount.readFile ino offset size).events)
    else reply = .error Errno.EIO
  | .getxattr _ _, reply => reply = .error .ENOTSUP
  | .access _ write, reply => if write then reply = .error .EACCES else reply = .ok
  | .release _ _, reply => reply = .ok
  | .releasedir _ _, reply => reply = .ok
  | .fsync _ _, reply => reply = .ok
  | .fsyncdir _ _, reply => reply = .ok

/-- A request does not read a file whose run panics. -/
def Request.Runs (mount : ArcDvdbndMount) : Request → Prop
  | .read ino _ offset size dispatched => dispatched = true →
    (mount.readFile ino offset size).result ≠ .error .panic
  | _ => True

/-- What a client has been given is there. -/
structure Sound (mount : ArcDvdbndMount) (client : Client) : Prop where
  known : ∀ attr ∈ client.known, ∃ e, mount.fs.inner.entry attr.ino = .ok e ∧ attr = mount.fileAttr attr.ino e
  files : ∀ f ∈ client.files, f.2 = f.1 ∧ client.HasKind f.1 .regularFile
  dirs : ∀ d ∈ client.dirs, d.2 = d.1 ∧ client.HasKind d.1 .directory

section
variable {E : Eytzinger} {mount : ArcDvdbndMount} {obj : RofsObject DvdbndConfig DvdbndFile} {client : Client}
  {ino : UInt64} {e : Entry DvdbndFile}

theorem sound_new : Sound mount .new := ⟨nofun, nofun, nofun⟩

/-- What exists is no panic. -/
theorem entry_eq (h : obj.IntoRofs E mount.fs.inner) (he : mount.fs.inner.entry ino = .ok e) :
    entry mount ino = .ok (.ok e) := by
  rw [entry, he]
  show (if e.missing then _ else _) = _
  rw [h.entry_not_missing he, if_neg Bool.false_ne_true]

/-- A run reads what is left of the file after the offset. -/
theorem readFile_clamped {file : DvdbndFile} (hfile : mount.IsFile ino file) (offset : UInt64) (size : UInt32) :
    mount.readFile ino (UInt64.ofNat (min offset.toNat file.getUnpaddedLen.toNat))
        (UInt32.ofNat (min (file.getUnpaddedLen.toNat - min offset.toNat file.getUnpaddedLen.toNat) size.toNat)) =
      mount.readFile ino offset size := by
  have hlen := file.getUnpaddedLen.toNat_lt
  have hoffset : file.readOffset (UInt64.ofNat (min offset.toNat file.getUnpaddedLen.toNat)) =
      file.readOffset offset := by
    rw [DvdbndFile.readOffset, DvdbndFile.readOffset, UInt64.toNat_ofNat']
    omega
  have hread : file.readLen (UInt64.ofNat (min offset.toNat file.getUnpaddedLen.toNat))
      (UInt32.ofNat (min (file.getUnpaddedLen.toNat - min offset.toNat file.getUnpaddedLen.toNat) size.toNat)) =
        file.readLen offset size := by
    rw [DvdbndFile.readLen, DvdbndFile.readLen, hoffset, UInt32.toNat_ofNat', DvdbndFile.readOffset]
    omega
  rw [DvdbndMount.readFile_eq hfile, DvdbndMount.readFile_eq hfile, hoffset, hread]

namespace Sound

variable (hsound : Sound mount client) {b : Branch} (h : obj.IntoRofs E mount.fs.inner) (hb : obj.branch = some b)
include hsound h hb

/-- What is known exists, and is of its kind. -/
theorem exists_entry {kind : FileType} (hkind : client.HasKind ino kind) :
    ∃ e, mount.fs.inner.entry ino = .ok e ∧ fileType e = kind := by
  obtain ⟨rfl, rfl⟩ | ⟨attr, hattr, rfl, rfl⟩ := hkind
  · obtain ⟨e, start, stop, he, hdir⟩ := h.root_dir hb
    exact ⟨e, he, by rw [fileType, hdir]⟩
  · obtain ⟨e, he, heq⟩ := hsound.known attr hattr
    refine ⟨e, he, ?_⟩
    rw [heq]
    rfl

/-- The attributes of what exists are the ones that are known. -/
theorem agrees (he : mount.fs.inner.entry ino = .ok e) : client.Agrees (mount.fileAttr ino e) := by
  constructor
  · intro kind hkind
    obtain ⟨e', he', hkind'⟩ := hsound.exists_entry h hb hkind
    obtain rfl : e = e' := Except.ok.inj (he.symm.trans he')
    exact hkind'
  · intro a ha hino
    obtain ⟨e', he', heq⟩ := hsound.known a ha
    rw [hino] at he' heq
    obtain rfl : e = e' := Except.ok.inj (he.symm.trans he')
    exact heq.symm

/-- A file that is known has its data. -/
theorem isFile (hkind : client.HasKind ino .regularFile) : ∃ e file, mount.fs.inner.entry ino = .ok e ∧
    e.kind = .file (some file) := by
  obtain ⟨e, he, htype⟩ := hsound.exists_entry h hb hkind
  have hmissing := h.entry_not_missing he
  obtain ⟨inode, name, ⟨start, stop⟩ | ⟨_ | file⟩⟩ := e
  · cases htype
  · cases hmissing
  · exact ⟨_, file, he, rfl⟩

theorem lookup_answers {name : OsStr} (hparent : client.Knows ino) :
    ∃ reply, lookup E mount ino name = .ok reply ∧ Answers E mount client (.lookup ino name) reply ∧
      Sound mount (client.receive (.lookup ino name) reply) := by
  simp only [lookup, Answers]
  rcases OsStr.toStr name with _ | name
  · exact ⟨_, rfl, rfl, hsound⟩
  · dsimp only
    rcases hlookup : mount.fs.inner.lookupInDir E ino name with err | child
    · exact ⟨_, rfl, rfl, hsound⟩
    · obtain ⟨kind, hkind⟩ := hparent
      obtain ⟨_, hp, -⟩ := hsound.exists_entry h hb hkind
      obtain ⟨e, he⟩ := h.exists_entry_of_lookupInDir ⟨_, hp⟩ hlookup
      refine ⟨_, by simp only [entry_eq h he, Checked.ok_bind], ⟨_, rfl, rfl, hsound.agrees h hb he⟩, ?_, ?_, ?_⟩
      · intro attr hattr
        rcases List.mem_cons.1 hattr with rfl | hattr
        · exact ⟨e, he, rfl⟩
        · exact hsound.known attr hattr
      · intro f hf
        obtain ⟨heq, hroot | ⟨attr, hattr, hf⟩⟩ := hsound.files f hf
        · exact ⟨heq, .inl hroot⟩
        · exact ⟨heq, .inr ⟨attr, List.mem_cons_of_mem _ hattr, hf⟩⟩
      · intro d hd
        obtain ⟨heq, hroot | ⟨attr, hattr, hd⟩⟩ := hsound.dirs d hd
        · exact ⟨heq, .inl hroot⟩
        · exact ⟨heq, .inr ⟨attr, List.mem_cons_of_mem _ hattr, hd⟩⟩

theorem getattr_answers (hino : client.Knows ino) :
    ∃ reply, getattr mount ino = .ok reply ∧ Answers E mount client (.getattr ino) reply ∧
      Sound mount (client.receive (.getattr ino) reply) := by
  obtain ⟨kind, hkind⟩ := hino
  obtain ⟨e, he, -⟩ := hsound.exists_entry h hb hkind
  refine ⟨_, by rw [getattr, entry_eq h he]; rfl, ⟨_, rfl, rfl, hsound.agrees h hb he⟩, hsound⟩

omit h hb in
theorem openFile_answers {mode : OpenAccMode} (hino : client.HasKind ino .regularFile) :
    ∃ reply, openFile ino mode = .ok reply ∧ Answers E mount client (.openFile ino mode) reply ∧
      Sound mount (client.receive (.openFile ino mode) reply) := by
  simp only [openFile, Answers]
  split_ifs
  · refine ⟨_, rfl, ⟨_, rfl⟩, hsound.known, fun f hf => ?_, hsound.dirs⟩
    rcases List.mem_cons.1 hf with rfl | hf
    · exact ⟨rfl, hino⟩
    · exact hsound.files f hf
  · exact ⟨_, rfl, rfl, hsound⟩

theorem opendir_answers {mode : OpenAccMode} (hino : client.Knows ino) :
    ∃ reply, opendir mount ino mode = .ok reply ∧ Answers E mount client (.opendir ino mode) reply ∧
      Sound mount (client.receive (.opendir ino mode) reply) := by
  obtain ⟨kind, hkind⟩ := hino
  obtain ⟨e, he, htype⟩ := hsound.exists_entry h hb hkind
  have hsame : ∀ kind, client.HasKind ino kind → kind = fileType e := by
    intro kind hkind
    obtain ⟨e', he', htype⟩ := hsound.exists_entry h hb hkind
    rw [← htype, Except.ok.inj (he.symm.trans he')]
  simp only [opendir, Answers]
  split_ifs
  · exact ⟨_, rfl, rfl, hsound⟩
  · rw [entry_eq h he]
    obtain ⟨inode, name, ⟨start, stop⟩ | file⟩ := e
    · refine ⟨_, rfl, fun kind hkind => ?_, hsound.known, hsound.files, fun d hd => ?_⟩
      · rw [hsame kind hkind]
        exact ⟨_, rfl⟩
      · rcases List.mem_cons.1 hd with rfl | hd
        · refine ⟨rfl, ?_⟩
          rw [show FileType.directory = kind from htype]
          exact hkind
        · exact hsound.dirs d hd
    · refine ⟨_, rfl, fun kind hkind => ?_, hsound⟩
      rw [hsame kind hkind]
      rfl

theorem read_answers {fh offset : UInt64} {size : UInt32} {dispatched : Bool} (hfile : (ino, fh) ∈ client.files)
    (hruns : Request.Runs mount (.read ino fh offset size dispatched)) :
    ∃ reply, read mount ino fh offset size dispatched = .ok reply ∧
      Answers E mount client (.read ino fh offset size dispatched) reply := by
  obtain ⟨rfl, hkind⟩ : fh = ino ∧ client.HasKind ino .regularFile := hsound.files _ hfile
  obtain ⟨e, file, he, hdata⟩ := hsound.isFile h hb hkind
  obtain ⟨inode, name, kind⟩ := e
  subst hdata
  rw [read, if_pos rfl, entry_eq h he]
  simp only [Checked.ok_bind, Answers]
  rcases dispatched with _ | _
  · exact ⟨_, rfl, rfl⟩
  · have hclamped := @readFile_clamped mount fh file ⟨_, he, rfl⟩ offset size
    rw [if_pos rfl, readTask, hclamped]
    rcases hrun : (mount.readFile fh offset size).result with (_ | _) | _
    · exact ⟨_, rfl, by simp⟩
    · exact absurd hrun (hruns rfl)
    · exact ⟨_, rfl, by simp⟩

theorem release_answers {fh : UInt64} (hfile : (ino, fh) ∈ client.files) :
    release mount ino fh = .ok .ok ∧ Sound mount (client.receive (.release ino fh) .ok) := by
  obtain ⟨rfl, hkind⟩ : fh = ino ∧ client.HasKind ino .regularFile := hsound.files _ hfile
  obtain ⟨e, file, he, hdata⟩ := hsound.isFile h hb hkind
  obtain ⟨inode, name, kind⟩ := e
  subst hdata
  refine ⟨?_, hsound.known, fun f hf => hsound.files f (List.mem_of_mem_erase hf), hsound.dirs⟩
  rw [release, if_pos rfl, entry_eq h he]
  rfl

theorem releasedir_answers {fh : UInt64} (hdir : (ino, fh) ∈ client.dirs) :
    releasedir mount ino fh = .ok .ok ∧ Sound mount (client.receive (.releasedir ino fh) .ok) := by
  obtain ⟨rfl, hkind⟩ : fh = ino ∧ client.HasKind ino .directory := hsound.dirs _ hdir
  obtain ⟨e, he, htype⟩ := hsound.exists_entry h hb hkind
  refine ⟨?_, hsound.known, hsound.files, fun d hd => hsound.dirs d (List.mem_of_mem_erase hd)⟩
  rw [releasedir, if_pos rfl, entry_eq h he]
  obtain ⟨inode, name, ⟨start, stop⟩ | file⟩ := e
  · rfl
  · cases htype

/-- **A request is answered**, and what the reply gives is there. -/
theorem answers {req : Request} (hasks : client.Asks req) (hruns : req.Runs mount) :
    ∃ reply, handle E mount req = .ok reply ∧ Answers E mount client req reply ∧
      Sound mount (client.receive req reply) := by
  cases req with
  | lookup parent name => exact hsound.lookup_answers h hb hasks
  | getattr ino => exact hsound.getattr_answers h hb hasks
  | openFile ino mode => exact hsound.openFile_answers hasks
  | opendir ino mode => exact hsound.opendir_answers h hb hasks
  | read ino fh offset size dispatched =>
    obtain ⟨reply, hreply, hanswers⟩ := hsound.read_answers h hb hasks hruns
    exact ⟨reply, hreply, hanswers, hsound⟩
  | release ino fh =>
    obtain ⟨hreply, hreceive⟩ := hsound.release_answers h hb hasks
    exact ⟨_, hreply, rfl, hreceive⟩
  | releasedir ino fh =>
    obtain ⟨hreply, hreceive⟩ := hsound.releasedir_answers h hb hasks
    exact ⟨_, hreply, rfl, hreceive⟩
  | fsync ino fh => exact ⟨_, rfl, rfl, hsound⟩
  | fsyncdir ino fh => exact ⟨_, rfl, rfl, hsound⟩
  | getxattr ino name => exact ⟨_, rfl, rfl, hsound⟩
  | access ino write => cases write <;> exact ⟨_, rfl, rfl, hsound⟩

/-- A step of a run. -/
theorem receive {req : Request} {reply : Reply} (hasks : client.Asks req) (hreply : handle E mount req = .ok reply) :
    Sound mount (client.receive req reply) := by
  by_cases hruns : req.Runs mount
  · obtain ⟨reply', hreply', -, hreceive⟩ := hsound.answers h hb hasks hruns
    rwa [Except.ok.inj (hreply.symm.trans hreply')]
  · -- a read gives a client nothing
    cases req with
    | read ino fh offset size dispatched => exact hsound
    | _ => exact absurd trivial hruns

end Sound

/-- What a client has been given after a run is there. -/
theorem Run.sound {b : Branch} {steps : List (Request × Reply)} {client' : Client}
    (hrun : Run E mount client steps client') (hsound : Sound mount client) (h : obj.IntoRofs E mount.fs.inner)
    (hb : obj.branch = some b) : Sound mount client' := by
  induction hrun with
  | nil => exact hsound
  | cons hasks hreply _ ih => exact ih (hsound.receive h hb hasks hreply)

theorem exists_branch (h : obj.IntoRofs E mount.fs.inner) (hroot : mount.fs.inner.entry DvdbndConfig.inodeRoot = .ok e) :
    ∃ b, obj.branch = some b := by
  obtain ⟨node, hnode, -⟩ := Rofs.entry_eq_ok.1 hroot
  rcases hb : obj.branch with _ | b
  · rw [h.flattened.2.of_none hb] at hnode
    cases hnode
  · exact ⟨b, rfl⟩

/-- **After every run, each request of a client is answered** with what is known of
    its inode, or with the error for its kind, if no read panics. -/
theorem answers_of_run {steps : List (Request × Reply)} {req : Request} (h : obj.IntoRofs E mount.fs.inner)
    (hroot : mount.fs.inner.entry DvdbndConfig.inodeRoot = .ok e) (hrun : Run E mount .new steps client)
    (hasks : client.Asks req) (hruns : req.Runs mount) :
    ∃ reply, handle E mount req = .ok reply ∧ Answers E mount client req reply := by
  obtain ⟨b, hb⟩ := exists_branch h hroot
  obtain ⟨reply, hreply, hanswers, -⟩ := (hrun.sound sound_new h hb).answers h hb hasks hruns
  exact ⟨reply, hreply, hanswers⟩

end

/-- A client opens the root and closes it. -/
theorem answers_of_run_root : ∃ (obj : RofsObject DvdbndConfig DvdbndFile) (mount : ArcDvdbndMount)
    (flags : List FopenFlags) (client : Client), obj.IntoRofs Eytzinger.layout mount.fs.inner ∧
      Run Eytzinger.layout mount .new [(.opendir DvdbndConfig.inodeRoot .O_RDONLY,
        .opened DvdbndConfig.inodeRoot flags)] client ∧
          ∃ reply, handle Eytzinger.layout mount (.releasedir DvdbndConfig.inodeRoot DvdbndConfig.inodeRoot) =
            .ok reply ∧ reply = .ok := by
  obtain ⟨obj, fs, hobj, h⟩ := RofsObject.exists_intoRofs DvdbndConfig Eytzinger.layout
    [("a".toList, (⟨0, 16, 0, ⟨.replicate 12 0⟩, none⟩ : DvdbndFile))] (by simp) (by decide) (by decide)
  obtain ⟨b, -, hb, -⟩ := RofsObject.new_eq_some hobj
  obtain ⟨e, _, _, hroot, -⟩ := h.root_dir hb
  let mount : ArcDvdbndMount :=
    { platform := .unix, fs := ⟨fs, []⟩, bdts := fun _ => .error .error, aes := fun _ => zeroCipher, timestamp := 0 }
  have hdir : Client.new.HasKind DvdbndConfig.inodeRoot .directory := .inl ⟨rfl, rfl⟩
  have hsound : Sound mount .new := sound_new
  obtain ⟨reply, hreply, hanswers, -⟩ := @Sound.opendir_answers _ _ _ _ _ hsound _ h hb .O_RDONLY ⟨_, hdir⟩
  obtain ⟨flags, rfl⟩ : ∃ flags, reply = .opened DvdbndConfig.inodeRoot flags := hanswers _ hdir
  have hrun : Run Eytzinger.layout mount .new [(.opendir DvdbndConfig.inodeRoot .O_RDONLY,
      .opened DvdbndConfig.inodeRoot flags)] ⟨[], [], [(DvdbndConfig.inodeRoot, DvdbndConfig.inodeRoot)]⟩ :=
    .cons ⟨_, hdir⟩ hreply .nil
  have hanswered := answers_of_run h hroot hrun (show Client.Asks _ (.releasedir _ _) from List.mem_cons_self) trivial
  exact ⟨obj, mount, flags, _, h, hrun, hanswered⟩

end Fsvfs.Dvdbnd.Session
