/-
  What a FUSE client reads of a file.

  The client reads in order, in whole blocks, and other requests may stand in
  between.  A read that fails may be made again.

  * `gets_contents`: in every run, the replies for a file are what the archive has
    of it, and a short one came to its end.
-/
import Fsvfs.Dvdbnd.Blocks
import Fsvfs.Dvdbnd.Session
import Fsvfs.Dvdbnd.Truncated
import Fsvfs.Lib.Sequential

namespace Fsvfs.Dvdbnd

open Lib Bhd5 Traced

/-! ## Sessions -/

namespace Session

open Fuser DvdbndMount

/-- What a client was given of a file. -/
def pieces (ino : UInt64) (steps : List (Request × Reply)) : List (Piece UInt8) := steps.filterMap fun
  | (.read ino' _ offset size _, .data bytes) =>
    if ino' = ino then some ⟨offset.toNat, size.toNat, bytes⟩ else none
  | _ => none

section
variable {bhdOf : SrcId → File} {bdtOf : SrcId → ℕ → UInt8} {E : Eytzinger} {puts : List Put}
  {builder : DvdbndRofsBuilder} {values : List (SrcId × DvdbndRofsCached)} {mount : ArcDvdbndMount}
  {obj : RofsObject DvdbndConfig DvdbndFile} {ino : UInt64} {file : DvdbndFile} {client client' : Client}
  {steps : List (Request × Reply)}

/-- The replies of a run. -/
theorem Run.handles (hrun : Run E mount client steps client') :
    ∀ step ∈ steps, handle E mount step.1 = .ok step.2 := by
  induction hrun with
  | nil => exact fun step hstep => nomatch hstep
  | cons _ hreply _ ih =>
    intro step hstep
    rcases List.mem_cons.1 hstep with rfl | hstep
    · exact hreply
    · exact ih step hstep

theorem mem_pieces {piece : Piece UInt8} : piece ∈ pieces ino steps ↔ ∃ fh offset size dispatched bytes,
    (.read ino fh offset size dispatched, .data bytes) ∈ steps ∧
      piece = ⟨offset.toNat, size.toNat, bytes⟩ := by
  rw [pieces, List.mem_filterMap]
  constructor
  · rintro ⟨step, hmem, heq⟩
    split at heq
    · split_ifs at heq with hino
      subst hino
      exact ⟨_, _, _, _, _, hmem, (Option.some.inj heq).symm⟩
    · cases heq
  · rintro ⟨fh, offset, size, dispatched, bytes, hmem, rfl⟩
    exact ⟨_, hmem, if_pos rfl⟩

/-- The data of a reply is what the run has delivered. -/
theorem data_of_read (h : obj.IntoRofs E mount.fs.inner) (hfile : mount.IsFile ino file) {fh offset : UInt64}
    {size : UInt32} {dispatched : Bool} {bytes : List UInt8}
    (hread : read mount ino fh offset size dispatched = .ok (.data bytes)) :
    (mount.readFile ino offset size).result = .ok () ∧ bytes = delivered (mount.readFile ino offset size).events := by
  have hclamped := readFile_clamped hfile offset size
  obtain ⟨⟨inode, name, kind⟩, he, hkind⟩ := hfile
  subst hkind
  by_cases hsame : ino = fh
  · rw [read, if_pos hsame, entry_eq h he] at hread
    rcases dispatched with _ | _
    · cases hread
    · replace hread : readTask mount ino _ _ = .ok (.data bytes) := hread
      rw [readTask, hclamped] at hread
      rcases hrun : (mount.readFile ino offset size).result with (_ | _) | _
      · rw [hrun] at hread
        cases hread
      · rw [hrun] at hread
        cases hread
      · rw [hrun] at hread
        cases hread
        exact ⟨rfl, rfl⟩
  · rw [read, if_neg hsame] at hread
    cases hread

/-- The data of a reply is what there is of the file, from the offset on. -/
theorem of_readsBlocks {F : ℕ → UInt8} (h : obj.IntoRofs E mount.fs.inner) (hfile : mount.IsFile ino file)
    (hreads : ReadsBlocks mount.toDvdbndMount ino file F) {fh offset : UInt64} {size : UInt32} {dispatched : Bool}
    {bytes : List UInt8} (hread : read mount ino fh offset size dispatched = .ok (.data bytes))
    (hoffset : BLOCK_SIZE ∣ offset.toNat ∨ offset.toNat = file.getUnpaddedLen.toNat) :
    Piece.Of F file.getUnpaddedLen.toNat ⟨offset.toNat, size.toNat, bytes⟩ := by
  obtain ⟨hok, rfl⟩ := data_of_read h hfile hread
  have ho : file.readOffset offset = min offset.toNat file.getUnpaddedLen.toNat := rfl
  have hl : file.readLen offset size = min size.toNat (file.getUnpaddedLen.toNat - file.readOffset offset) := rfl
  rw [Piece.Of]
  dsimp only
  rcases Nat.le_total offset.toNat file.getUnpaddedLen.toNat with hle | hge
  · rw [Nat.min_eq_left hle] at ho
    rw [ho] at hl
    rw [hreads.delivered offset size ?_ hok, ho, hl]
    rw [ho]
    exact hoffset.imp_right fun hend => by omega
  · -- the read is after the end
    have hnone : file.readLen offset size = 0 := by omega
    rw [hreads.delivered offset size (.inr hnone) hok, hnone, Nat.sub_eq_zero_of_le hge, Nat.min_zero]
    rfl

/-- **What a client reads of a file in order is what its archive has under its path**,
    in every run, and a reply that is short came to the end of the file. -/
theorem gets_contents (hmount : Mounted bhdOf bdtOf E puts builder values mount.toDvdbndMount) {e : Entry DvdbndFile}
    (hroot : mount.fs.inner.entry DvdbndConfig.inodeRoot = .ok e) (hrun : Run E mount .new steps client)
    {attr : FileAttr} (hattr : attr ∈ client.known) (hkind : attr.kind = .regularFile) {path : Str}
    (hpath : mount.fs.inner.lookup E path = .ok attr.ino) (hsequential : Sequential 0 (pieces attr.ino steps))
    (hblocks : ∀ piece ∈ pieces attr.ino steps, BLOCK_SIZE ∣ piece.len) :
    ∃ file, mount.IsFile attr.ino file ∧ attr.size = file.getUnpaddedLen.toUInt64 ∧
      ∃ d ∈ (bhdOf file.srcId).buckets.decoded.zip (bhdOf file.srcId).encryption,
        Names bhdOf puts builder values (norm DvdbndConfig path) file.srcId d.1 ∧
        (∃ store, mount.fs.encryptionStore.get file.srcId = some store ∧ LinkedTo d.1 d.2 file store) ∧
          Gets (storedContents mount.aes (bdtOf file.srcId) d) attr.size.toNat 0 (pieces attr.ino steps) := by
  obtain ⟨obj, h⟩ := exists_intoRofs_of_finish hmount.finish
  obtain ⟨b, hb⟩ := exists_branch h hroot
  have hsound := hrun.sound sound_new h hb
  obtain ⟨e', file, he', hdata⟩ := hsound.isFile h hb (.inr ⟨attr, hattr, rfl, hkind⟩)
  have hfile : mount.IsFile attr.ino file := ⟨e', he', hdata⟩
  have hsize : attr.size = file.getUnpaddedLen.toUInt64 := by
    obtain ⟨e'', he'', heq⟩ := hsound.known attr hattr
    obtain rfl : e' = e'' := Except.ok.inj (he'.symm.trans he'')
    rw [heq, ArcDvdbndMount.fileAttr, hdata]
  obtain ⟨d, hd, hnames, hlinked, hreads⟩ := hmount.readsBlocks hpath hfile
  refine ⟨file, hfile, hsize, d, hd, hnames, hlinked, ?_⟩
  have hsizeNat : attr.size.toNat = file.getUnpaddedLen.toNat := by
    rw [hsize, UInt32.toNat_toUInt64]
  refine @Sequential.gets _ _ _ _ BLOCK_SIZE _ hsequential (Nat.zero_le _) (.inl (Nat.dvd_zero _)) hblocks
    fun piece hpiece hoffset => ?_
  obtain ⟨fh, offset, size, dispatched, bytes, hstep, rfl⟩ := mem_pieces.1 hpiece
  rw [hsizeNat] at hoffset ⊢
  exact of_readsBlocks h hfile hreads (hrun.handles _ hstep) hoffset

/-! ## A session -/

theorem exactUpTo_available (bdtLen : ℕ) : ExactUpTo (available bdtLen) (fun _ => 0) bdtLen := by
  intro len pos hlen hstop
  have hzeros : List.replicate len (0 : UInt8) = window (fun _ => 0) pos len :=
    eq_window _ List.length_replicate fun i hi => by rw [List.getElem?_replicate, if_pos hi]
  rw [available, if_neg (by omega), Nat.min_eq_left (by omega), hzeros]

/-- A mount of a filesystem whose BDTs are 148 zeros. -/
def zerosMount (fs : DvdbndRofs) : ArcDvdbndMount where
  platform := .unix
  fs := fs
  bdts _ := .ok (available 148)
  aes _ := zeroCipher
  timestamp := 0

section
variable {values : List (SrcId × DvdbndRofsCached)} {fs : DvdbndRofs} {ino : UInt64} {file : DvdbndFile}

theorem zip_encryptedArchive : encryptedArchive.bhd.buckets.decoded.zip encryptedArchive.bhd.encryption =
    [(Decoded.of (⟨7, 48, 100, 0, 64⟩ : FileEntryDs2), some ⟨64, zeroEncryption⟩)] := rfl

theorem aligned_zeroEncryption : Aligned zeroEncryption 48 := by
  refine ⟨⟨fun r hr _ => ?_, List.pairwise_singleton _ _⟩, fun r hr => ?_⟩
  · rw [List.mem_singleton.1 hr]
    decide
  · rw [List.mem_singleton.1 hr]
    decide

/-- The mount of the archive with one encrypted file. -/
theorem mounted_zerosMount (hfinish : encryptedBuilder.Finish Eytzinger.layout values fs) :
    Mounted (fun _ => encryptedArchive.bhd) (fun _ _ => 0) Eytzinger.layout [] encryptedBuilder values
      (zerosMount fs).toDvdbndMount := by
  refine ⟨.nil, uses_encryptedBuilder, hfinish, fun put _ reader hreader d hd => ?_, fun put _ d hd e he => ?_⟩
  · cases hreader
    cases List.mem_singleton.1 hd
    exact exactUpTo_available 148
  · rw [zip_encryptedArchive] at hd
    obtain rfl := List.mem_singleton.1 hd
    cases he
    exact aligned_zeroEncryption

/-- Its file is read whole. -/
theorem readFile_zerosMount (hfinish : encryptedBuilder.Finish Eytzinger.layout values fs) {e : Entry DvdbndFile}
    (he : fs.inner.entry ino = .ok e) (hkind : e.kind = .file (some file)) :
    ((zerosMount fs).readFile ino 0 48).result = .ok () := by
  have hfile : (zerosMount fs).IsFile ino file := ⟨e, he, hkind⟩
  obtain ⟨store, hget, F, _, entry, encryption, hmem, hstored⟩ := @stored_of_mem_files
    (fun _ => encryptedArchive.bhd) _ _ _ _ uses_encryptedBuilder.bhds (fun e he => nomatch he) hfinish _
      (mem_files_of_entry he hkind)
  rw [zip_encryptedArchive] at hmem
  obtain ⟨hentry, rfl⟩ := Prod.mk.inj (List.mem_singleton.1 hmem)
  have hlinked := hstored.linkedTo
  rw [hentry] at hlinked
  have hdataOffset : file.dataOffset = 100 := hlinked.dataOffset
  have hlen : file.len = 48 := hlinked.len
  have hunpadded : file.unpaddedLen = 0 := hlinked.unpaddedLen
  obtain ⟨id, out, out', rest, hid, rfl, hrecord⟩ := hstored.record _ rfl
  have hsize : file.getUnpaddedLen.toNat = 48 := by
    rw [DvdbndFile.getUnpaddedLen, if_pos hunpadded, hlen]
    rfl
  have ho : file.readOffset 0 = 0 := Nat.zero_min _
  have hl : file.readLen 0 48 = 48 := by
    rw [DvdbndFile.readLen, ho, hsize]
    rfl
  -- the file ends where the BDT does
  have hend : file.dataOffset.toNat + file.len.toNat = 148 := by
    rw [hdataOffset, hlen]
    rfl
  rw [readFile_eq hfile, ho, hl, ← readAt_extended _ file fun _ => 0, hend]
  obtain ⟨prev, next, -, hrun⟩ := @readAt_stored ((zerosMount fs).extended (fun _ => 0) 148) file _ (fun _ => 0) 0 48 F _
    entry zeroEncryption (by decide) ⟨id, out, out', rest, hid, hget, hrecord⟩ rfl
    (exactUpTo_available 148).extendReader
    (by rw [DvdbndFile.InBounds, hdataOffset, hlen]; decide)
    (by
      rw [DvdbndFile.HasWindows, hdataOffset]
      exact .inr (show UInt64.toNat 100 + 0 + 48 + Platform.unix.windowSize < 2 ^ 64 by decide))
  rw [hrun, if_neg (by rw [hlen]; simp)]
  rfl

end

theorem exists_encryptedMount : ∃ (values : List (SrcId × DvdbndRofsCached)) (fs : DvdbndRofs) (ino : UInt64)
    (e r : Entry DvdbndFile) (file : DvdbndFile) (obj : DvdbndObject),
    Mounted (fun _ => encryptedArchive.bhd) (fun _ _ => 0) Eytzinger.layout [] encryptedBuilder values
        (zerosMount fs).toDvdbndMount ∧
      obj.IntoRofs Eytzinger.layout fs.inner ∧ fs.inner.entry DvdbndConfig.inodeRoot = .ok r ∧
      fs.inner.lookupInDir Eytzinger.layout DvdbndConfig.inodeRoot ".data0\\00\\00000007".toList = .ok ino ∧
      fs.inner.entry ino = .ok e ∧ e.kind = .file (some file) ∧ ((zerosMount fs).readFile ino 0 48).result = .ok () := by
  obtain ⟨values, fs, ino, e, file, hfinish, hlookup, he, hkind⟩ := exists_encryptedFilesystem
  obtain ⟨obj, hinto⟩ := exists_intoRofs_of_finish hfinish
  obtain ⟨r, hroot⟩ : ∃ r, fs.inner.entry DvdbndConfig.inodeRoot = .ok r := by
    rcases hb : obj.branch with _ | b
    · obtain ⟨node, hnode, -⟩ := Rofs.entry_eq_ok.1 he
      rw [hinto.flattened.2.of_none hb] at hnode
      cases hnode
    · obtain ⟨r, _, _, hr, -⟩ := hinto.root_dir hb
      exact ⟨r, hr⟩
  exact ⟨values, fs, ino, e, r, file, obj, mounted_zerosMount hfinish, hinto, hroot, hlookup, he, hkind,
    readFile_zerosMount hfinish he hkind⟩

/-- A client finds the file, opens it and reads it. -/
theorem gets_contents_encryptedMount : ∃ (values : List (SrcId × DvdbndRofsCached)) (mount : ArcDvdbndMount)
    (client : Client) (attr : FileAttr) (steps : List (Request × Reply)), Run Eytzinger.layout mount .new steps client ∧
      (pieces attr.ino steps).length = 1 ∧ ∃ file, mount.IsFile attr.ino file ∧
        attr.size = file.getUnpaddedLen.toUInt64 ∧
          ∃ d ∈ encryptedArchive.bhd.buckets.decoded.zip encryptedArchive.bhd.encryption,
            Names (fun _ => encryptedArchive.bhd) [] encryptedBuilder values
              (norm DvdbndConfig ".data0\\00\\00000007".toList) file.srcId d.1 ∧
            (∃ store, mount.fs.encryptionStore.get file.srcId = some store ∧ LinkedTo d.1 d.2 file store) ∧
              Gets (storedContents mount.aes (fun _ => 0) d) attr.size.toNat 0 (pieces attr.ino steps) := by
  obtain ⟨values, fs, ino, ⟨inode, name, kind⟩, r, file, obj, hmount, hinto, hroot, hlookup, he, hkind, hread⟩ :=
    exists_encryptedMount
  subst hkind
  set mount := zerosMount fs
  have hentry : entry mount ino = .ok (.ok ⟨inode, name, .file (some file)⟩) := entry_eq hinto he
  let attr := mount.fileAttr ino ⟨inode, name, .file (some file)⟩
  let steps : List (Request × Reply) := [
    (.lookup DvdbndConfig.inodeRoot (Str.bytes ".data0\\00\\00000007".toList), .entry CACHE_TTL attr 0),
    (.openFile ino .O_RDONLY, .opened ino [.FOPEN_NOFLUSH, .FOPEN_KEEP_CACHE]),
    (.read ino ino 0 48 true, .data (delivered (mount.readFile ino 0 48).events))]
  have hrun : Run Eytzinger.layout mount .new steps ⟨[attr], [(ino, ino)], []⟩ := by
    refine .cons ⟨_, .inl ⟨rfl, rfl⟩⟩ ?_ (.cons (.inr ⟨_, List.mem_cons_self, rfl, rfl⟩) rfl
      (.cons List.mem_cons_self ?_ .nil))
    · rw [handle, Session.lookup, OsStr.toStr_bytes]
      dsimp only
      rw [show mount.fs.inner.lookupInDir _ _ _ = _ from hlookup]
      dsimp only
      rw [hentry]
      rfl
    · have hclamped := @readFile_clamped mount ino file ⟨_, he, rfl⟩ 0 48
      rw [handle, read, if_pos rfl, hentry]
      show readTask mount ino _ _ = _
      rw [readTask, hclamped, hread]
  have hpieces : pieces attr.ino steps = [⟨0, 48, delivered (mount.readFile ino 0 48).events⟩] := by
    rw [show attr.ino = ino from rfl]
    simp [pieces, steps]
  refine ⟨values, mount, _, attr, steps, hrun, by rw [hpieces]; rfl, ?_⟩
  refine gets_contents hmount hroot hrun List.mem_cons_self rfl hlookup ?_ fun piece hpiece => ?_
  · rw [hpieces]
    exact ⟨rfl, trivial⟩
  · rw [hpieces] at hpiece
    rw [List.mem_singleton.1 hpiece]
    exact ⟨3, rfl⟩

end

end Session

end Fsvfs.Dvdbnd
