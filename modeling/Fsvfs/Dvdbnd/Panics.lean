/-
  Which requests for a file of an accepted archive panic.

  The parser compares the sizes of an entry, but it does not look at its offset.

  * `unpadded_le`: a request that is clamped is inside of the stored file;
  * `readFile_ne_panic_iff`: the files that end before the 64-bit positions do,
    with room for the windows, are read without a panic, unless they are encrypted
    and empty.
-/
import Fsvfs.Dvdbnd.Neighbours
import Fsvfs.Dvdbnd.Records

namespace Fsvfs.Dvdbnd

open Lib Bhd5

/-! ## The sizes of an entry -/

theorem toNat_u32OfMax0 {n : Int32} (h : 0 ≤ n) : (u32OfMax0 n).toNat = n.toInt.toNat := by
  have hnot : ¬ n < 0 := Int32.not_lt.2 h
  have hnonneg : 0 ≤ n.toInt := Int32.le_iff_toInt_le.1 h
  rw [u32OfMax0, if_neg hnot]
  show n.toBitVec.toNat = _
  have hint : n.toInt = n.toBitVec.toInt := rfl
  rw [hint] at hnonneg ⊢
  rw [BitVec.toInt_eq_toNat_cond] at hnonneg ⊢
  split_ifs at hnonneg ⊢ <;> omega

theorem getD_nonZero32 (n : UInt32) : (nonZero32 n).getD 0 = n := by
  rw [nonZero32]
  split_ifs with h
  · exact h.symm
  · rfl

theorem unpadded_le_of_validSizes {fileSize unpaddedFileSize : Int32}
    (h : validSizes fileSize unpaddedFileSize = true) :
    ((nonZero32 (u32OfMax0 unpaddedFileSize)).getD 0).toNat ≤ (u32OfMax0 fileSize).toNat := by
  obtain ⟨hsize, hunpadded, hle⟩ := validSizes_spec h
  rw [getD_nonZero32, toNat_u32OfMax0 hsize, toNat_u32OfMax0 hunpadded]
  exact Int.toNat_le_toNat (Int32.le_iff_toInt_le.1 hle)

/-- **The unpadded size of an accepted entry is at most its size.** -/
theorem unpadded_le {o : ByteOrder} {bytes : List UInt8} {bhd : File}
    (h : tryRefFromBytes o bytes = .ok bhd) : ∀ d ∈ bhd.buckets.decoded,
      (d.unpaddedFileSize.getD 0).toNat ≤ d.fileSize.toNat := by
  obtain ⟨header, hheader⟩ := header_of_tryRef h
  have hin := (wellFormed_of_header hheader h).inside
  intro d hd
  rcases bhd with ⟨format, l | l | l | l, encryption, salt⟩
  · obtain ⟨e, -, rfl⟩ := List.mem_map.1 hd
    exact Nat.zero_le _
  · obtain ⟨e, -, rfl⟩ := List.mem_map.1 hd
    exact Nat.zero_le _
  · obtain ⟨e, he, rfl⟩ := List.mem_map.1 hd
    cases format with
    | DarkSouls3 => exact unpadded_le_of_validSizes (Bool.and_eq_true_iff.1 (hin.valid e he)).1
    | _ => exact hin.elim
  · obtain ⟨e, he, rfl⟩ := List.mem_map.1 hd
    cases format with
    | EldenRing => exact unpadded_le_of_validSizes (Bool.and_eq_true_iff.1 (hin.valid e he)).1
    | _ => exact hin.elim

/-! ## Requests -/

/-- A file that ends before the 64-bit positions do.  If it is encrypted, there is
    room for the windows of the request, and something to read. -/
structure DvdbndFile.Readable (file : DvdbndFile) (platform : Platform) (o l : ℕ) : Prop where
  stop : file.dataOffset.toNat + file.len.toNat < 2 ^ 64
  windows : file.encryptionId.isSome = true → file.HasWindows platform o l
  nonempty : file.encryptionId.isSome = true → file.len = 0 → platform.windowSize ≤ file.dataOffset.toNat

/-- A request that is clamped is inside of the stored file. -/
theorem DvdbndFile.readEnd_le {file : DvdbndFile} (h : file.unpaddedLen.toNat ≤ file.len.toNat)
    (fileOffset : UInt64) (len : UInt32) :
    file.readOffset fileOffset + file.readLen fileOffset len ≤ file.len.toNat := by
  have hle : file.getUnpaddedLen.toNat ≤ file.len.toNat := by
    rw [getUnpaddedLen]
    split_ifs
    · exact Nat.le_refl _
    · exact h
  rw [readLen, readOffset]
  omega

namespace DvdbndMount
variable {mount : DvdbndMount} {inode : UInt64} {file : DvdbndFile} {reader : ReadManagedAt}
  {bdt : ℕ → UInt8}

/-- A request for a plain file inside of its archive does not panic. -/
theorem readAt_ne_panic_of_plain {o l : ℕ} (hstop : o + l < 2 ^ 32) (hplain : file.encryptionId = none)
    (hreader : mount.bdts file.srcId = .ok reader) (hexact : Exact reader bdt) (hin : file.InBounds o l) :
    (mount.readAt file o l).result ≠ .error .panic := by
  rw [readAt_plain hstop hplain hreader hexact hin]
  exact nofun

/-- A request for an encrypted file with a record panics if the file is empty and
    at the start of its archive. -/
theorem readAt_ne_panic_of_stored {E : Type} [FileEntry E] {entry : E} {encryption : Encryption} {o l : ℕ}
    (hstop : o + l < 2 ^ 32) (hstored : Stored mount.fs file entry encryption)
    (hreader : mount.bdts file.srcId = .ok reader) (hexact : Exact reader bdt) (hin : file.InBounds o l)
    (hwindows : file.HasWindows mount.platform o l) :
    (mount.readAt file o l).result ≠ .error .panic ↔
      (file.len = 0 → mount.platform.windowSize ≤ file.dataOffset.toNat) := by
  obtain ⟨prev, next, -, hrun⟩ := readAt_stored hstop hstored hreader hexact hin hwindows
  rw [hrun]
  split_ifs with hempty
  · exact iff_of_false (fun h => h rfl) fun h => Nat.not_le.2 hempty.2 (h hempty.1)
  · refine iff_of_true nofun fun hzero => ?_
    exact Nat.not_lt.1 fun hlt => hempty ⟨hzero, hlt⟩

/-- **A request panics** unless the file is readable. -/
theorem readAt_ne_panic_iff {o l : ℕ} (hstop : o + l < 2 ^ 32) (hle : o + l ≤ file.len.toNat)
    (hstored : file.encryptionId.isSome = true → ∃ (E : Type) (_ : FileEntry E) (entry : E)
      (encryption : Encryption), Stored mount.fs file entry encryption)
    (hreader : mount.bdts file.srcId = .ok reader) (hexact : Exact reader bdt) :
    (mount.readAt file o l).result ≠ .error .panic ↔ file.Readable mount.platform o l := by
  have hget : ∀ id, file.encryptionId = some id →
      ∃ store, mount.fs.encryptionStore.get file.srcId = some store := by
    intro id hid
    obtain ⟨E, _, entry, encryption, _, out, out', rest, -, hget, -⟩ := hstored (by rw [hid]; rfl)
    exact ⟨_, hget⟩
  have hpanics : ¬ (file.InBounds o l → file.encryptionId.isSome = true ∧
      ¬ file.HasWindows mount.platform o l) ∨ ¬ (mount.readAt file o l).result ≠ .error .panic := by
    by_cases h : file.InBounds o l → file.encryptionId.isSome = true ∧ ¬ file.HasWindows mount.platform o l
    · right
      rw [readAt_panic hstop hreader hget h]
      exact fun hne => hne rfl
    · exact .inl h
  constructor
  · intro hne
    obtain h | h := hpanics
    · rw [Classical.not_imp, not_and, not_not] at h
      obtain ⟨hin, hwindows⟩ := h
      refine ⟨hin.1, hwindows, fun hsome => ?_⟩
      obtain ⟨E, _, entry, encryption, hstored⟩ := hstored hsome
      exact (readAt_ne_panic_of_stored hstop hstored hreader hexact hin (hwindows hsome)).1 hne
    · exact absurd hne h
  · intro h
    have hin : file.InBounds o l := ⟨h.stop, hle⟩
    rcases hid : file.encryptionId with _ | id
    · exact readAt_ne_panic_of_plain hstop hid hreader hexact hin
    · have hsome : file.encryptionId.isSome = true := by rw [hid]; rfl
      obtain ⟨E, _, entry, encryption, hstored⟩ := hstored hsome
      exact (readAt_ne_panic_of_stored hstop hstored hreader hexact hin (h.windows hsome)).2 (h.nonempty hsome)

/-- **Reading a file of an accepted archive panics** unless the file is readable. -/
theorem readFile_ne_panic_iff {o : ByteOrder} {bytes : List UInt8} {bhd : File} {dict : Option Dictionary}
    {name path : Str} {srcId : SrcId} {files : List (Str × DvdbndFile)} {store : List UInt8}
    (hbhd : tryRefFromBytes o bytes = .ok bhd) (hprocess : processBhd dict bhd name srcId = .ok (files, store))
    (hmem : (path, file) ∈ files) (hfile : mount.IsFile inode file)
    (hstore : mount.fs.encryptionStore.get file.srcId = some store)
    (hreader : mount.bdts file.srcId = .ok reader) (hexact : Exact reader bdt)
    (fileOffset : UInt64) (len : UInt32) :
    (mount.readFile inode fileOffset len).result ≠ .error .panic ↔
      file.Readable mount.platform (file.readOffset fileOffset) (file.readLen fileOffset len) := by
  obtain ⟨-, E, _, entry, encryption, hentry, hfrom⟩ := processBhd_stored hprocess _ hmem
  have hunpadded : file.unpaddedLen.toNat ≤ file.len.toNat := by
    have hle := unpadded_le hbhd _ (List.of_mem_zip hentry).1
    rwa [← hfrom.linkedTo.unpaddedLen, ← hfrom.linkedTo.len] at hle
  rw [readFile_eq hfile]
  refine readAt_ne_panic_iff (file.readEnd_lt fileOffset len) (DvdbndFile.readEnd_le hunpadded fileOffset len)
    (fun hsome => ?_) hreader hexact
  rcases encryption with _ | e
  · have hnone : file.encryptionId = none := hfrom.plain rfl
    rw [hnone] at hsome
    cases hsome
  · obtain ⟨id, out, out', rest, hid, rfl, hrecord⟩ := hfrom.record e rfl
    exact ⟨E, _, entry, e.val, id, out, out', rest, hid, hstore, hrecord⟩

/-- Processing an archive with one encrypted file. -/
theorem processBhd_one {entry : FileEntryDs3} {encryption : Ref Encryption} {id : EncryptionId}
    {store : List UInt8} {format : Format} {offset : ℕ} {salt : Option (List UInt8)} (name : Str) (srcId : SrcId)
    (hstore : storeEncryption entry encryption.val [] = .ok (id, store)) :
    processBhd none ⟨format, .DarkSouls3 [⟨offset, [entry]⟩], [some encryption], salt⟩ name srcId =
      .ok ([(fallbackPath name (FileEntry.pathHash entry), entryFile srcId entry (some id))], store) := by
  have hentry : storeEntry entry (some encryption) [] = .ok (some id, store) := by
    rw [storeEntry, hstore]
    rfl
  show processEntries _ _ [(entry, some encryption)] [] = _
  rw [processEntries, hentry]
  rfl

/-- A `DarkSouls3` image with an entry that is empty, with encryption data. -/
def emptyImage : List UInt8 :=
  [0x42, 0x48, 0x44, 0x35, 0xff, 1, 0, 0, 1, 0, 0, 0, 96, 0, 0, 0, 1, 0, 0, 0, 28, 0, 0, 0,
    0, 0, 0, 0, 1, 0, 0, 0, 36, 0, 0, 0,
    1, 0, 0, 0, 0, 0, 0, 0, 0, 0, 0, 0, 0, 0, 0, 0, 0, 0, 0, 0, 0, 0, 0, 0,
    76, 0, 0, 0, 0, 0, 0, 0, 0, 0, 0, 0, 0, 0, 0, 0,
    0, 0, 0, 0, 0, 0, 0, 0, 0, 0, 0, 0, 0, 0, 0, 0, 0, 0, 0, 0]

def emptyFile : File where
  format := .DarkSouls3
  buckets := .DarkSouls3 [⟨36, [⟨1, 0, 0, 0, 76, 0⟩]⟩]
  encryption := [some ⟨76, ⟨.replicate 16 0, 0, []⟩⟩]
  salt := some []

theorem not_readFile_ne_panic : ¬ ∀ (o : ByteOrder) (bytes : List UInt8) (bhd : File)
    (dict : Option Dictionary) (name path : Str) (srcId : SrcId) (files : List (Str × DvdbndFile))
    (store : List UInt8) (mount : DvdbndMount) (inode : UInt64) (file : DvdbndFile) (reader : ReadManagedAt)
    (bdt : ℕ → UInt8) (fileOffset : UInt64) (len : UInt32),
      tryRefFromBytes o bytes = .ok bhd → processBhd dict bhd name srcId = .ok (files, store) →
        (path, file) ∈ files → mount.IsFile inode file → mount.fs.encryptionStore.get file.srcId = some store →
          mount.bdts file.srcId = .ok reader → Exact reader bdt →
            (mount.readFile inode fileOffset len).result ≠ .error .panic := by
  intro h
  let entry : FileEntryDs3 := ⟨1, 0, 0, 0, 76, 0⟩
  let file : DvdbndFile := entryFile ⟨.replicate 12 0⟩ entry (some firstId)
  obtain ⟨store, hstore⟩ := @exists_store_firstId _ _ entry ⟨.replicate 16 0, 0, []⟩ (by decide) nofun
  have hprocess := @processBhd_one entry ⟨76, _⟩ _ _ .DarkSouls3 36 (some []) "data0".toList
    ⟨.replicate 12 0⟩ hstore
  have hfile := isFile_ofZeros .unix file store
  have hget : (ofZeros .unix file store).fs.encryptionStore.get file.srcId = some store :=
    List.lookup_cons_self
  have hne := h .LE emptyImage emptyFile none "data0".toList _ _ _ store _ 1 file _ (fun _ => 0) 0 0 rfl
    hprocess List.mem_cons_self hfile hget rfl (fun _ _ _ => rfl)
  rw [readFile_eq hfile] at hne
  -- nothing is read, and `CiphertextBuffer::curr` finds no buffer
  have hstored : Stored (ofZeros .unix file store).fs file entry _ := stored_ofZeros rfl hstore
  have hwindows : file.HasWindows .unix (file.readOffset 0) (file.readLen 0 0) := by decide
  have hle : Platform.unix.windowSize ≤ file.dataOffset.toNat :=
    (readAt_ne_panic_of_stored (by decide) hstored rfl (fun _ _ _ => rfl) (by decide) hwindows).1 hne rfl
  exact absurd hle (by decide)

theorem readFile_ne_panic_encryptedImage : ∃ file store,
    ((ofZeros .unix file store).readFile 1 5 20).result ≠ .error .panic := by
  let entry : FileEntryDs3 := ⟨1, 32, 0, 0, 76, 20⟩
  let file : DvdbndFile := entryFile ⟨.replicate 12 0⟩ entry (some firstId)
  let encryption : Encryption :=
    ⟨⟨[1, 2, 3, 4, 5, 6, 7, 8, 9, 10, 11, 12, 13, 14, 15, 16].toArray, rfl⟩, 1, [⟨0, 16⟩]⟩
  have hacc : ∀ r ∈ encryption.ranges, r.Accepted (FileEntry.fileSize entry).toNat := by
    intro r hr
    rw [List.mem_singleton.1 hr]
    exact .inr (.inl ⟨by decide, by decide, by decide⟩)
  obtain ⟨store, hstore⟩ := @exists_store_firstId _ _ entry encryption (by decide) hacc
  have hprocess := @processBhd_one entry ⟨76, encryption⟩ _ _ .DarkSouls3 36 (some []) "data0".toList
    ⟨.replicate 12 0⟩ hstore
  have hget : (ofZeros .unix file store).fs.encryptionStore.get file.srcId = some store :=
    List.lookup_cons_self
  have hiff := @readFile_ne_panic_iff (ofZeros .unix file store) 1 file _ (fun _ => 0) .LE encryptedImage
    encryptedFile none "data0".toList _ _ _ store rfl hprocess List.mem_cons_self (isFile_ofZeros .unix file store)
      hget rfl (fun _ _ _ => rfl) 5 20
  have hwindows : file.HasWindows .unix (file.readOffset 5) (file.readLen 5 20) := by decide
  exact ⟨file, store, hiff.2 ⟨by decide, fun _ => hwindows, fun _ h => absurd h (by decide)⟩⟩

end DvdbndMount

end Fsvfs.Dvdbnd
