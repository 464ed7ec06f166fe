/-
  The link between a file and its record in an encryption store.

  * `run_storeEncryptionMut`: a call of `store_encryption` that fails leaves the
    store unchanged;
  * `processEntries_stored`: every file of an archive has the id of its record,
    and the ids are distinct;
  * `linked_of_reachable`: the link survives caching and merging.
-/
import Fsvfs.Dvdbnd.Cache
import Fsvfs.Dvdbnd.Store

namespace Fsvfs.Dvdbnd

open Lib Bhd5

/-- `store_encryption`, with its store as a state. -/
def storeEncryptionMut {E : Type} [FileEntry E] (entry : E) (encryption : Encryption) :
    ExceptT StoreError (StateM (List UInt8)) EncryptionId := do
  let ranges ← ExceptT.mk (pure (storeRanges (FileEntry.fileOffset entry)
    (FileEntry.fileSize entry).toUInt64 encryption.ranges))
  let ranges := sortRanges ranges
  match U24.tryFrom ranges.length with
  | none => throw .TooManyRanges
  | some rangeCount => match EncryptionId.tryFromIndex (← get).length with
    | none => throw .TooManyRanges
    | some index =>
      modify (· ++ Aes128.codec.write ⟨encryption.key, rangeCount⟩)
      modify (· ++ ranges.flatMap Range.codec.write)
      pure index

/-- **What a call of `store_encryption` leaves of the store.** -/
theorem run_storeEncryptionMut {E : Type} [FileEntry E] (entry : E) (encryption : Encryption)
    (out : List UInt8) : (storeEncryptionMut entry encryption).run out =
      match storeEncryption entry encryption out with
      | .ok (id, out') => (.ok id, out')
      | .error err => (.error err, out) := by
  rw [storeEncryption, storeEncryptionMut]
  rcases storeRanges (FileEntry.fileOffset entry) (FileEntry.fileSize entry).toUInt64
    encryption.ranges with err | ranges
  · rfl
  · have hranges : ∀ f : List Range → ExceptT StoreError (StateM (List UInt8)) EncryptionId,
        (ExceptT.mk (pure (.ok ranges)) >>= f) = f ranges := fun _ => rfl
    have hranges' : ∀ f : List Range → Except StoreError (EncryptionId × List UInt8),
        (.ok ranges >>= f) = f ranges := fun _ => rfl
    have hget : ∀ f : List UInt8 → ExceptT StoreError (StateM (List UInt8)) EncryptionId,
        (get >>= f).run out = (f out).run out := fun _ => rfl
    rw [hranges, hranges']
    dsimp only
    rcases U24.tryFrom (sortRanges ranges).length with _ | rangeCount
    · rfl
    · dsimp only
      rw [hget]
      rcases EncryptionId.tryFromIndex out.length with _ | index
      · rfl
      · rfl

/-! ## One archive -/

section
variable {E : Type} [FileEntry E] {entry : E} {encryption : Option (Ref Encryption)} {path path' : UInt64 → Str}
  {srcId srcId' : SrcId} {store store' store'' : List UInt8} {id : Option EncryptionId}

/-- A file made of an entry, whose encryption data is in a store. -/
structure StoredFor (entry : E) (encryption : Option (Ref Encryption)) (file : DvdbndFile)
    (store : List UInt8) : Prop where
  file_eq : file = entryFile file.srcId entry file.encryptionId
  plain : encryption = none → file.encryptionId = none
  record : ∀ e ∈ encryption, ∃ id out out' rest, file.encryptionId = some id ∧
    store = out' ++ rest ∧ storeEncryption entry e.val out = .ok (id, out')

/-- What storing the encryption data of an entry comes to. -/
theorem storeEntry_eq_ok (h : storeEntry entry encryption store = .ok (id, store')) :
    encryption = none ∧ id = none ∧ store' = store ∨
      ∃ e i, encryption = some e ∧ id = some i ∧ storeEncryption entry e.val store = .ok (i, store') := by
  rcases encryption with _ | e
  · cases h
    exact .inl ⟨rfl, rfl, rfl⟩
  · rw [storeEntry] at h
    rcases hstore : storeEncryption entry e.val store with err | ⟨i, out⟩
    · rw [hstore] at h
      cases h
    · rw [hstore] at h
      cases h
      exact .inr ⟨e, i, rfl, rfl, hstore⟩

/-- A record is a header and its ranges. -/
theorem length_of_store {e : Encryption} {i : EncryptionId} (h : storeEncryption entry e store = .ok (i, store')) :
    store'.length = store.length + (20 + (recordRanges e).length * 8) := by
  obtain ⟨-, rangeCount, -, -, rfl⟩ := storeEncryption_eq_ok.1 h
  have hlen : (Aes128.codec.write ⟨e.key, rangeCount⟩).length = 20 := Aes128.codec.length_write _
  have hranges : ((recordRanges e).flatMap Range.codec.write).length = (recordRanges e).length * 8 :=
    Range.codec.length_flatMap_write _
  rw [List.length_append, writeRecord, List.length_append, hlen, hranges]

/-- A record is appended. -/
theorem length_lt_of_store {e : Encryption} {i : EncryptionId}
    (h : storeEncryption entry e store = .ok (i, store')) :
    store <+: store' ∧ store.length < store'.length ∧ i.intoIndex = store.length := by
  have hlen := length_of_store h
  obtain ⟨-, rangeCount, -, hid, rfl⟩ := storeEncryption_eq_ok.1 h
  exact ⟨List.prefix_append _ _, by omega, (EncryptionId.tryFromIndex_eq_some.1 hid).2⟩

theorem prefix_of_storeEntry (h : storeEntry entry encryption store = .ok (id, store')) :
    store <+: store' := by
  rcases storeEntry_eq_ok h with ⟨-, -, rfl⟩ | ⟨e, i, -, -, hstore⟩
  · exact List.prefix_refl _
  · exact (length_lt_of_store hstore).1

/-- The steps of the loop over the entries. -/
theorem processEntries_cons {rest : List (E × Option (Ref Encryption))} {files : List (Str × DvdbndFile)}
    (h : processEntries path srcId ((entry, encryption) :: rest) store = .ok (files, store')) :
    ∃ id mid files', storeEntry entry encryption store = .ok (id, mid) ∧
      processEntries path srcId rest mid = .ok (files', store') ∧
        files = (path (FileEntry.pathHash entry), entryFile srcId entry id) :: files' := by
  rw [processEntries] at h
  rcases h1 : storeEntry entry encryption store with err | ⟨id, mid⟩
  · rw [h1] at h
    cases h
  rw [h1] at h
  rcases h2 : processEntries path srcId rest mid with err | ⟨files', out⟩
  · simp only [bind, Except.bind, h2] at h
    cases h
  · simp only [bind, Except.bind, h2] at h
    cases h
    exact ⟨id, mid, files', rfl, h2, rfl⟩

/-- The loop over the entries appends to the store. -/
theorem prefix_of_processEntries {l : List (E × Option (Ref Encryption))}
    {files : List (Str × DvdbndFile)} (h : processEntries path srcId l store = .ok (files, store')) :
    store <+: store' := by
  induction l generalizing store files with
  | nil =>
    cases h
    exact List.prefix_refl _
  | cons e l ih =>
    obtain ⟨id, mid, files', hstore, hrest, -⟩ := processEntries_cons h
    exact (prefix_of_storeEntry hstore).trans (ih hrest)

/-- **Every file has the path of its entry, and the encryption data in the store.** -/
theorem processEntries_stored {l : List (E × Option (Ref Encryption))} {files : List (Str × DvdbndFile)}
    (h : processEntries path srcId l store = .ok (files, store')) :
    List.Forall₂ (fun e f => f.1 = path (FileEntry.pathHash e.1) ∧ f.2.srcId = srcId ∧
      StoredFor e.1 e.2 f.2 store') l files := by
  induction l generalizing store files with
  | nil =>
    cases h
    exact .nil
  | cons e l ih =>
    obtain ⟨id, mid, files', hstore, hrest, rfl⟩ := processEntries_cons h
    refine .cons ⟨rfl, rfl, rfl, fun hnone => ?_, fun r hr => ?_⟩ (ih hrest)
    · rcases storeEntry_eq_ok hstore with ⟨-, rfl, -⟩ | ⟨e', i, hsome, -⟩
      · rfl
      · rw [hnone] at hsome
        cases hsome
    · rcases storeEntry_eq_ok hstore with ⟨hnone, -⟩ | ⟨e', i, hsome, rfl, hrecord⟩
      · rw [Option.mem_def, hnone] at hr
        cases hr
      · obtain rfl : r = e' := Option.some.inj (hr.symm.trans hsome)
        obtain ⟨rest, rfl⟩ := prefix_of_processEntries hrest
        exact ⟨i, store, mid, rest, rfl, rfl, hrecord⟩

/-- The ids of some files. -/
def ids (files : List (Str × DvdbndFile)) : List EncryptionId := files.filterMap fun f => f.2.encryptionId

/-- **The ids of an archive are distinct**, as each is where its record starts. -/
theorem processEntries_ids {l : List (E × Option (Ref Encryption))} {files : List (Str × DvdbndFile)}
    (h : processEntries path srcId l store = .ok (files, store')) :
    (∀ i ∈ ids files, store.length ≤ i.intoIndex) ∧ (ids files).Nodup := by
  induction l generalizing store files with
  | nil =>
    cases h
    exact ⟨fun i hi => (nomatch hi), List.nodup_nil⟩
  | cons e l ih =>
    obtain ⟨id, mid, files', hstore, hrest, rfl⟩ := processEntries_cons h
    obtain ⟨hle, hnodup⟩ := ih hrest
    rcases storeEntry_eq_ok hstore with ⟨-, rfl, rfl⟩ | ⟨e', i, -, rfl, hrecord⟩
    · exact ⟨hle, hnodup⟩
    · obtain ⟨-, hlt, hindex⟩ := length_lt_of_store hrecord
      have hids : ids ((path (FileEntry.pathHash e.1), entryFile srcId e.1 (some i)) :: files') =
        i :: ids files' := rfl
      rw [hids]
      refine ⟨List.forall_mem_cons.2 ⟨Nat.le_of_eq hindex.symm, fun j hj => ?_⟩,
        List.nodup_cons.2 ⟨fun hmem => ?_, hnodup⟩⟩
      · have := hle j hj
        omega
      · have := hle i hmem
        omega

/-- The store does not depend on the paths of the entries, nor on the source id. -/
theorem processEntries_store {l : List (E × Option (Ref Encryption))} {files files' : List (Str × DvdbndFile)}
    (h : processEntries path srcId l store = .ok (files, store'))
    (h' : processEntries path' srcId' l store = .ok (files', store'')) : store' = store'' := by
  induction l generalizing store files files' with
  | nil =>
    cases h
    cases h'
    rfl
  | cons e l ih =>
    obtain ⟨id, mid, _, hstore, hrest, -⟩ := processEntries_cons h
    obtain ⟨id', mid', _, hstore', hrest', -⟩ := processEntries_cons h'
    rw [hstore] at hstore'
    cases hstore'
    exact ih hrest hrest'

end

/-- An archive has entries of one kind. -/
theorem exists_processFiles (bhd : File) : ∃ (E : Type) (_ : FileEntry E) (l : List (Ref (List E))),
    bhd.buckets.decoded = decoded l ∧ ∀ dict name srcId,
      processBhd dict bhd name srcId = processFiles dict l name srcId bhd.encryption := by
  obtain ⟨format, buckets, encryption, salt⟩ := bhd
  rcases buckets with l | l | l | l
  · exact ⟨_, _, l, rfl, fun _ _ _ => rfl⟩
  · exact ⟨_, _, l, rfl, fun _ _ _ => rfl⟩
  · exact ⟨_, _, l, rfl, fun _ _ _ => rfl⟩
  · exact ⟨_, _, l, rfl, fun _ _ _ => rfl⟩

/-- The record at an id has the key and the ranges of the encryption data of a
    file of a size. -/
def HasRecord (store : List UInt8) (id : EncryptionId) (size : ℕ) (encryption : Encryption) : Prop :=
  ∃ header ranges, record store id = some (header, ranges) ∧ header.key = encryption.key ∧
    (ranges.Pairwise fun a b => a.extent.stop ≤ b.extent.stop) ∧
      ((∀ r ∈ encryption.ranges, r.endOffset.toNat ≤ size) →
        (ranges.map Range.extent).Perm (extents encryption))

/-- **What is stored is read back.** -/
theorem hasRecord_of_store {E : Type} [FileEntry E] {entry : E} {encryption : Encryption}
    {out out' : List UInt8} {id : EncryptionId}
    (h : storeEncryption entry encryption out = .ok (id, out')) (rest : List UInt8) :
    HasRecord (out' ++ rest) id (FileEntry.fileSize entry).toNat encryption := by
  have hacc := (storeEncryption_eq_ok.1 h).1
  have hsize := (FileEntry.fileSize entry).toNat_lt
  obtain ⟨rangeCount, hrecord⟩ := record_of_store h rest
  refine ⟨_, _, hrecord, rfl, pairwise_recordRanges (fits_recordRanges hacc hsize), fun hle => ?_⟩
  refine map_extent_recordRanges hsize fun r hr hne => ?_
  rcases hacc r hr with heq | hfit | hslip
  · exact absurd heq hne
  · exact hfit
  · have hend := hle r hr
    have hgt := hslip.gt
    omega

/-- A file of an entry, with a store that has the record of its encryption data. -/
structure LinkedTo (d : Decoded) (encryption : Option (Ref Encryption)) (file : DvdbndFile)
    (store : List UInt8) : Prop where
  dataOffset : file.dataOffset = d.fileOffset
  len : file.len = d.fileSize
  unpaddedLen : file.unpaddedLen = d.unpaddedFileSize.getD 0
  plain : encryption = none → file.encryptionId = none
  record : ∀ e ∈ encryption, ∃ id, file.encryptionId = some id ∧ HasRecord store id d.fileSize.toNat e.val

theorem StoredFor.linkedTo {E : Type} [FileEntry E] {entry : E} {encryption : Option (Ref Encryption)}
    {file : DvdbndFile} {store : List UInt8} (h : StoredFor entry encryption file store) :
    LinkedTo (Decoded.of entry) encryption file store where
  dataOffset := by
    rw [h.file_eq]
    rfl
  len := by
    rw [h.file_eq]
    rfl
  unpaddedLen := by
    rw [h.file_eq]
    rfl
  plain := h.plain
  record := by
    intro e he
    obtain ⟨id, out, out', rest, hid, rfl, hstore⟩ := h.record e he
    exact ⟨id, hid, hasRecord_of_store hstore rest⟩

section
variable {dict dict' : Option Dictionary} {bhd : File} {name name' : Str} {srcId srcId' : SrcId}
  {files files' : List (Str × DvdbndFile)} {store store' : List UInt8}

/-- Every file of an archive is made of an entry, whose path it has, and whose
    encryption data is stored. -/
theorem processBhd_path_stored (h : processBhd dict bhd name srcId = .ok (files, store)) :
    ∀ f ∈ files, f.2.srcId = srcId ∧ ∃ (E : Type) (_ : FileEntry E) (entry : E)
      (encryption : Option (Ref Encryption)),
        (Decoded.of entry, encryption) ∈ bhd.buckets.decoded.zip bhd.encryption ∧
          f.1 = entryPath (hashesOf dict (FileEntry.u64Hash E) name) name (FileEntry.pathHash entry) ∧
            StoredFor entry encryption f.2 store := by
  obtain ⟨E, _, l, hdecoded, hprocess⟩ := exists_processFiles bhd
  rw [hprocess] at h
  intro f hf
  obtain ⟨e, he, hpath, hsrc, hstored⟩ : ∃ e ∈ (flatEntries l).zip bhd.encryption,
      f.1 = entryPath (hashesOf dict (FileEntry.u64Hash E) name) name (FileEntry.pathHash e.1) ∧
        f.2.srcId = srcId ∧ StoredFor e.1 e.2 f.2 store := by
    have hall := processEntries_stored h
    obtain ⟨i, hi, rfl⟩ := List.mem_iff_getElem.1 hf
    have hi' : i < ((flatEntries l).zip bhd.encryption).length := by
      rw [hall.length_eq]
      exact hi
    exact ⟨_, List.getElem_mem hi', List.forall₂_iff_get.1 hall |>.2 i hi' hi⟩
  refine ⟨hsrc, E, _, e.1, e.2, ?_, hpath, hstored⟩
  rw [hdecoded, decoded, List.zip_map_left]
  exact List.mem_map_of_mem (f := Prod.map Decoded.of id) he

theorem processBhd_stored (h : processBhd dict bhd name srcId = .ok (files, store)) :
    ∀ f ∈ files, f.2.srcId = srcId ∧ ∃ (E : Type) (_ : FileEntry E) (entry : E)
      (encryption : Option (Ref Encryption)),
        (Decoded.of entry, encryption) ∈ bhd.buckets.decoded.zip bhd.encryption ∧
          StoredFor entry encryption f.2 store := by
  intro f hf
  obtain ⟨hsrc, E, _, entry, encryption, hmem, -, hstored⟩ := processBhd_path_stored h f hf
  exact ⟨hsrc, E, _, entry, encryption, hmem, hstored⟩

theorem processBhd_ids (h : processBhd dict bhd name srcId = .ok (files, store)) : (ids files).Nodup := by
  obtain ⟨E, _, l, -, hprocess⟩ := exists_processFiles bhd
  rw [hprocess] at h
  exact (processEntries_ids h).2

/-- The store of an archive does not depend on what it is used for. -/
theorem processBhd_store (h : processBhd dict bhd name srcId = .ok (files, store))
    (h' : processBhd dict' bhd name' srcId' = .ok (files', store')) : store = store' := by
  obtain ⟨E, _, l, -, hprocess⟩ := exists_processFiles bhd
  rw [hprocess] at h h'
  exact processEntries_store h h'

end

/-! ## Building -/

section
variable (bhdOf : SrcId → File)

/-- A store of the archive that a source id stands for. -/
def IsStoreOf (srcId : SrcId) (store : List UInt8) : Prop :=
  ∃ dict name files, processBhd dict (bhdOf srcId) name srcId = .ok (files, store)

/-- A value that was made of the archive its source id stands for. -/
def IsValueOf (e : SrcId × DvdbndRofsCached) : Prop :=
  ∃ dict name files, processBhd dict (bhdOf e.1) name e.1 = .ok (files, e.2.2) ∧
    RofsObject.new files = some e.2.1

/-- A value that a builder has made of the files of an archive at a path. -/
structure MadeBy (builder : DvdbndRofsBuilder) (bhdPath : BhdPath) (e : SrcId × DvdbndRofsCached)
    (files : List (Str × DvdbndFile)) : Prop where
  mem : (bhdPath, bhdOf e.1, e.1) ∈ builder.bhds
  process : processBhd builder.dict (bhdOf e.1) bhdPath.filePrefix e.1 = .ok (files, e.2.2)
  new : RofsObject.new files = some e.2.1

/-- A builder of the archives that the source ids stand for, which may be cached. -/
structure Uses (cache : List (SrcId × DvdbndRofsCached)) (builder : DvdbndRofsBuilder) : Prop where
  bhds : ∀ e ∈ builder.bhds, e.2.1 = bhdOf e.2.2
  cached : ∀ e ∈ builder.cached, e ∈ cache

/-- The values in the cache after some filesystems have been built. -/
inductive Reachable (E : Eytzinger) : List (SrcId × DvdbndRofsCached) → Prop
  | nil : Reachable E []
  | finish {cache values : List (SrcId × DvdbndRofsCached)} {builder : DvdbndRofsBuilder} {fs : DvdbndRofs} :
      Reachable E cache → Uses bhdOf cache builder → builder.Finish E values fs →
        Reachable E (cache ++ values)

/-- A file whose source id has a store, with the record of its entry. -/
def Linked (fs : DvdbndRofs) (file : DvdbndFile) : Prop :=
  ∃ store, fs.encryptionStore.get file.srcId = some store ∧
    ∃ e ∈ (bhdOf file.srcId).buckets.decoded.zip (bhdOf file.srcId).encryption,
      LinkedTo e.1 e.2 file store

variable {bhdOf} {builder : DvdbndRofsBuilder} {processed files : List ProcessedBhd}
  {cache values : List (SrcId × DvdbndRofsCached)} {E : Eytzinger} {fs : DvdbndRofs}

theorem IsStoreOf.unique {srcId : SrcId} {store store' : List UInt8} (h : IsStoreOf bhdOf srcId store)
    (h' : IsStoreOf bhdOf srcId store') : store = store' := by
  obtain ⟨_, _, _, h⟩ := h
  obtain ⟨_, _, _, h'⟩ := h'
  exact processBhd_store h h'

theorem IsValueOf.isStoreOf {e : SrcId × DvdbndRofsCached} (h : IsValueOf bhdOf e) :
    IsStoreOf bhdOf e.1 e.2.2 := by
  obtain ⟨dict, name, files, h, -⟩ := h
  exact ⟨dict, name, files, h⟩

/-- An archive that has been processed is the one of its source id, with the dictionary
    of the builder. -/
theorem exists_processBhd (hbhds : ∀ e ∈ builder.bhds, e.2.1 = bhdOf e.2.2)
    (hprocess : builder.process = some processed) (hperm : processed.Perm files) {bhd : ProcessedBhd}
    (hbhd : bhd ∈ files) : ∃ path, (path, bhdOf bhd.srcId, bhd.srcId) ∈ builder.bhds ∧
      processBhd builder.dict (bhdOf bhd.srcId) path.filePrefix bhd.srcId = .ok (bhd.files, bhd.store) := by
  obtain ⟨⟨path, bhd', srcId⟩, he, heq⟩ := (mem_of_mapM hprocess).1 (hperm.mem_iff.2 hbhd)
  obtain rfl : bhd' = bhdOf srcId := hbhds _ he
  dsimp only at heq
  rcases hok : processBhd builder.dict (bhdOf srcId) path.filePrefix srcId with err | ⟨files', store'⟩
  · rw [hok] at heq
    cases heq
  · rw [hok] at heq
    cases heq
    exact ⟨path, he, hok⟩

/-- **The encryption store of a source id is the one of its archive.** -/
theorem isStoreOf_of_get (hbhds : ∀ e ∈ builder.bhds, e.2.1 = bhdOf e.2.2)
    (hcached : ∀ e ∈ builder.cached, IsValueOf bhdOf e) (hprocess : builder.process = some processed)
    (hperm : processed.Perm files) {srcId : SrcId} {store : List UInt8}
    (h : (builder.encryptionStore files).get srcId = some store) : IsStoreOf bhdOf srcId store := by
  rcases List.mem_append.1 (SrcIdMap.mem_of_get h) with hmem | hmem
  · obtain ⟨e, he, heq⟩ := List.mem_map.1 hmem
    cases heq
    exact (hcached e he).isStoreOf
  · obtain ⟨bhd, hbhd, heq⟩ := List.mem_map.1 hmem
    cases heq
    obtain ⟨path, -, hok⟩ := exists_processBhd hbhds hprocess hperm hbhd
    exact ⟨_, _, _, hok⟩

theorem MadeBy.isValueOf {bhdPath : BhdPath} {e : SrcId × DvdbndRofsCached} {files : List (Str × DvdbndFile)}
    (h : MadeBy bhdOf builder bhdPath e files) : IsValueOf bhdOf e :=
  ⟨_, _, files, h.process, h.new⟩

/-- A value is made of an archive of the builder, whose store it has. -/
theorem madeBy_of_value (hbhds : ∀ e ∈ builder.bhds, e.2.1 = bhdOf e.2.2)
    (hcached : ∀ e ∈ builder.cached, IsValueOf bhdOf e) (hprocess : builder.process = some processed)
    (hperm : processed.Perm files) {bhd : ProcessedBhd} (hbhd : bhd ∈ files) {e : SrcId × DvdbndRofsCached}
    (hvalue : builder.value files bhd = some e) :
    (∃ bhdPath, MadeBy bhdOf builder bhdPath e bhd.files) ∧
      (builder.encryptionStore files).get e.1 = some e.2.2 := by
  obtain ⟨obj, hobj, hvalue⟩ := Option.bind_eq_some_iff.1 hvalue
  obtain ⟨store, hstore, hvalue⟩ := Option.bind_eq_some_iff.1 hvalue
  cases hvalue
  obtain ⟨path, hmem, hok⟩ := exists_processBhd hbhds hprocess hperm hbhd
  obtain rfl := (isStoreOf_of_get hbhds hcached hprocess hperm hstore).unique ⟨_, _, _, hok⟩
  exact ⟨⟨path, hmem, hok, hobj⟩, hstore⟩

/-- What is put in the cache is made of the archive of its source id. -/
theorem isValueOf_of_values (hbhds : ∀ e ∈ builder.bhds, e.2.1 = bhdOf e.2.2)
    (hcached : ∀ e ∈ builder.cached, IsValueOf bhdOf e) (hprocess : builder.process = some processed)
    (hperm : processed.Perm files) (hvalues : builder.values files = some values) :
    ∀ e ∈ values, IsValueOf bhdOf e ∧ (builder.encryptionStore files).get e.1 = some e.2.2 := by
  intro e he
  obtain ⟨bhd, hbhd, hvalue⟩ := (mem_of_mapM hvalues).1 he
  obtain ⟨⟨_, hmade⟩, hstore⟩ := madeBy_of_value hbhds hcached hprocess hperm hbhd hvalue
  exact ⟨hmade.isValueOf, hstore⟩

theorem isValueOf_of_finish (hbhds : ∀ e ∈ builder.bhds, e.2.1 = bhdOf e.2.2)
    (hcached : ∀ e ∈ builder.cached, IsValueOf bhdOf e) (hfinish : builder.Finish E values fs) :
    ∀ e ∈ values, IsValueOf bhdOf e := by
  obtain ⟨hprocess, hperm, hvalues, -, -, -⟩ := hfinish
  exact fun e he => (isValueOf_of_values hbhds hcached hprocess hperm hvalues e he).1

/-- **All values in the cache are made of the archives of their source ids.** -/
theorem Reachable.isValueOf (h : Reachable bhdOf E cache) : ∀ e ∈ cache, IsValueOf bhdOf e := by
  induction h with
  | nil => exact fun e he => nomatch he
  | finish _ huses hfinish ih =>
    intro e he
    rcases List.mem_append.1 he with he | he
    · exact ih e he
    · exact isValueOf_of_finish huses.bhds (fun e he => ih e (huses.cached e he)) hfinish e he

/-- The files of a reduction are those of its objects. -/
theorem mem_files_of_reduces {objs : List DvdbndObject} {obj : DvdbndObject}
    (h : Reduces RofsObject.default RofsObject.merge objs obj) {file : DvdbndFile} (hfile : file ∈ obj.files) :
    ∃ o ∈ objs, file ∈ o.files := by
  induction h with
  | identity => exact nomatch hfile
  | item a => exact ⟨a, List.mem_cons_self, hfile⟩
  | op _ _ hmerge ihl ihr =>
    rw [RofsObject.files_merge hmerge] at hfile
    rcases List.mem_append.1 hfile with hfile | hfile
    · obtain ⟨o, ho, hfile⟩ := ihl hfile
      exact ⟨o, List.mem_append_left _ ho, hfile⟩
    · obtain ⟨o, ho, hfile⟩ := ihr hfile
      exact ⟨o, List.mem_append_right _ ho, hfile⟩

/-- **A finished filesystem has the stores of its archives.** -/
theorem store_of_finish (hbhds : ∀ e ∈ builder.bhds, e.2.1 = bhdOf e.2.2)
    (hcached : ∀ e ∈ builder.cached, IsValueOf bhdOf e) (hfinish : builder.Finish E values fs) :
    ∀ e ∈ builder.cached ++ values, IsValueOf bhdOf e ∧ fs.encryptionStore.get e.1 = some e.2.2 := by
  obtain ⟨hprocess, hperm, hvalues, -, -, -⟩ := hfinish
  rename_i processed files objs obj inner
  intro e he
  rcases List.mem_append.1 he with he | he
  · -- the stores of the cache may be replaced by those of the same archives
    have hmem : (e.1, e.2.2) ∈ (builder.cached.map fun e => (e.1, e.2.2)) ++
        files.map fun bhd => (bhd.srcId, bhd.store) :=
      List.mem_append_left _ (List.mem_map.2 ⟨e, he, rfl⟩)
    obtain ⟨store, hstore⟩ := SrcIdMap.get_isSome hmem
    have hvalue := hcached e he
    obtain rfl := (isStoreOf_of_get hbhds hcached hprocess hperm hstore).unique hvalue.isStoreOf
    exact ⟨hvalue, hstore⟩
  · exact isValueOf_of_values hbhds hcached hprocess hperm hvalues e he

/-- **The objects of a finished filesystem are those of its archives**, whose stores
    it has. -/
theorem exists_values_of_finish (hbhds : ∀ e ∈ builder.bhds, e.2.1 = bhdOf e.2.2)
    (hcached : ∀ e ∈ builder.cached, IsValueOf bhdOf e) (hfinish : builder.Finish E values fs) :
    ∃ (objs : List DvdbndObject) (obj : DvdbndObject), ((builder.objects values).map Prod.snd).Perm objs ∧
      Reduces RofsObject.default RofsObject.merge objs obj ∧ obj.IntoRofs E fs.inner ∧
        ∀ o ∈ objs, ∃ e ∈ builder.cached ++ values, e.2.1 = o ∧ IsValueOf bhdOf e ∧
          fs.encryptionStore.get e.1 = some e.2.2 := by
  have hstores := store_of_finish hbhds hcached hfinish
  obtain ⟨-, -, -, hobjs, hreduce, hinto⟩ := hfinish
  rename_i objs obj inner
  refine ⟨objs, obj, hobjs, hreduce, hinto, fun o ho => ?_⟩
  obtain ⟨⟨srcId, o⟩, hmem, rfl⟩ := List.mem_map.1 (hobjs.mem_iff.2 ho)
  have hget := SrcIdMap.get_of_mem (SrcIdMap.nodup_collect _) hmem
  obtain ⟨e, he, heq⟩ := List.mem_map.1 (SrcIdMap.mem_of_get hget)
  cases heq
  exact ⟨e, he, rfl, hstores e he⟩

/-- **Every file of a finished filesystem is made of an entry** of the archive of its
    source id, whose encryption data is stored. -/
theorem stored_of_mem_files (hbhds : ∀ e ∈ builder.bhds, e.2.1 = bhdOf e.2.2)
    (hcached : ∀ e ∈ builder.cached, IsValueOf bhdOf e) (hfinish : builder.Finish E values fs)
    {file : DvdbndFile} (hfile : file ∈ fs.inner.files) :
    ∃ store, fs.encryptionStore.get file.srcId = some store ∧
      ∃ (F : Type) (_ : FileEntry F) (entry : F) (encryption : Option (Ref Encryption)),
        (Decoded.of entry, encryption) ∈ (bhdOf file.srcId).buckets.decoded.zip (bhdOf file.srcId).encryption ∧
          StoredFor entry encryption file store := by
  obtain ⟨objs, obj, -, hreduce, hinto, hvalues⟩ := exists_values_of_finish hbhds hcached hfinish
  rw [hinto.flattened.1] at hfile
  obtain ⟨o, ho, hfile⟩ := mem_files_of_reduces hreduce hfile
  obtain ⟨e, -, rfl, ⟨dict, name, files, hok, hnew⟩, hstore⟩ := hvalues o ho
  obtain ⟨-, -, -, hfiles⟩ := RofsObject.new_eq_some hnew
  rw [hfiles] at hfile
  obtain ⟨f, hf, rfl⟩ := List.mem_map.1 hfile
  obtain ⟨hsrc, hstored⟩ := processBhd_stored hok f hf
  rw [hsrc]
  exact ⟨_, hstore, hstored⟩

/-- **Every file of a finished filesystem is linked to its entry.** -/
theorem linked_of_mem_files (hbhds : ∀ e ∈ builder.bhds, e.2.1 = bhdOf e.2.2)
    (hcached : ∀ e ∈ builder.cached, IsValueOf bhdOf e) (hfinish : builder.Finish E values fs)
    {file : DvdbndFile} (hfile : file ∈ fs.inner.files) : Linked bhdOf fs file := by
  obtain ⟨store, hget, F, _, entry, encryption, hmem, hstored⟩ :=
    stored_of_mem_files hbhds hcached hfinish hfile
  exact ⟨store, hget, _, hmem, hstored.linkedTo⟩

theorem mem_files_of_entry {C : Config} {T : Type} {fs : Rofs C T} {inode : UInt64} {entry : Entry T} {file : T}
    (h : fs.entry inode = .ok entry) (hkind : entry.kind = .file (some file)) : file ∈ fs.files := by
  rw [Rofs.entry] at h
  split at h
  · cases h
  · rename_i node _
    cases h
    rw [Rofs.nodeEntry] at hkind
    split at hkind
    · cases hkind
    · exact List.mem_of_getElem? (EntryKind.file.inj hkind)

/-- **Encryption ids stay linked to their records**: in every filesystem that is
    built with whatever the cache holds, and in the store of every archive. -/
theorem linked_of_reachable (bhdOf : SrcId → File) (E : Eytzinger) :
    (∀ cache builder values fs, Reachable bhdOf E cache → Uses bhdOf cache builder →
      builder.Finish E values fs → ∀ inode entry file, fs.inner.entry inode = .ok entry →
        entry.kind = .file (some file) → Linked bhdOf fs file) ∧
    (∀ dict bhd name srcId files store, processBhd dict bhd name srcId = .ok (files, store) →
      (ids files).Nodup) ∧
    ∀ {F : Type} [FileEntry F] (entry : F) (encryption : Encryption) (out out' : List UInt8)
      (err : StoreError), (storeEncryptionMut entry encryption).run out = (.error err, out') → out' = out := by
  refine ⟨fun cache builder values fs hcache huses hfinish inode entry file hentry hkind => ?_,
    fun dict bhd name srcId files store h => processBhd_ids h, fun entry encryption out out' err h => ?_⟩
  · exact linked_of_mem_files huses.bhds (fun e he => hcache.isValueOf e (huses.cached e he)) hfinish
      (mem_files_of_entry hentry hkind)
  · rw [run_storeEncryptionMut] at h
    rcases hstore : storeEncryption entry encryption out with err' | ⟨id, out₁⟩
    · rw [hstore] at h
      exact (Prod.mk.inj h).2.symm
    · rw [hstore] at h
      cases h

end

/-- An archive with one encrypted file. -/
def encryptedArchive : Archive where
  path := ⟨[], "data0.bhd".toList⟩
  bhd :=
    { format := .DarkSouls2
      buckets := .DarkSouls2 [⟨32, [⟨7, 48, 100, 0, 64⟩]⟩]
      encryption := [some ⟨64, zeroEncryption⟩]
      salt := none }
  srcId := ⟨.replicate 12 0⟩

theorem process_encryptedArchive : ∃ file store, encryptedArchive.process none =
    some ⟨[(".data0/00/00000007".toList, file)], store, ⟨.replicate 12 0⟩⟩ := by
  have hacc : ∀ r ∈ zeroEncryption.ranges, r.Accepted 48 := by
    intro r hr
    rw [List.mem_singleton.1 hr]
    exact .inr (.inl ⟨by decide, by decide, by decide⟩)
  obtain ⟨id, store, hstore⟩ := @exists_store FileEntryDs2 _ ⟨7, 48, 100, 0, 64⟩ zeroEncryption []
    (by decide) (by decide) hacc
  refine ⟨entryFile ⟨.replicate 12 0⟩ (⟨7, 48, 100, 0, 64⟩ : FileEntryDs2) (some id), store, ?_⟩
  have hentry : storeEntry (⟨7, 48, 100, 0, 64⟩ : FileEntryDs2) (some ⟨64, zeroEncryption⟩) [] =
      .ok (some id, store) := by
    rw [storeEntry, hstore]
    rfl
  have hprocess : processBhd none encryptedArchive.bhd encryptedArchive.path.filePrefix encryptedArchive.srcId =
      .ok ([(".data0/00/00000007".toList,
        entryFile ⟨.replicate 12 0⟩ (⟨7, 48, 100, 0, 64⟩ : FileEntryDs2) (some id))], store) := by
    show processEntries _ _ [(_, _)] [] = _
    rw [processEntries, hentry]
    rfl
  rw [Archive.process, hprocess]
  rfl

/-- An archive with two encrypted files. -/
def pairArchive : Archive where
  path := ⟨[], "data1.bhd".toList⟩
  bhd :=
    { format := .DarkSouls2
      buckets := .DarkSouls2 [⟨32, [⟨7, 48, 100, 0, 96⟩, ⟨8, 48, 148, 0, 128⟩]⟩]
      encryption := [some ⟨96, zeroEncryption⟩, some ⟨128, zeroEncryption⟩]
      salt := none }
  srcId := ⟨.replicate 12 1⟩

theorem processBhd_pairArchive : ∃ file file' store, processBhd none pairArchive.bhd "data1".toList pairArchive.srcId =
    .ok ([(".data1/00/00000007".toList, file), (".data1/00/00000008".toList, file')], store) ∧
      (ids [(".data1/00/00000007".toList, file), (".data1/00/00000008".toList, file')]).length = 2 := by
  have hacc : ∀ r ∈ zeroEncryption.ranges, r.Accepted 48 := by
    intro r hr
    rw [List.mem_singleton.1 hr]
    exact .inr (.inl ⟨by decide, by decide, by decide⟩)
  obtain ⟨id, mid, hstore⟩ := @exists_store FileEntryDs2 _ ⟨7, 48, 100, 0, 96⟩ zeroEncryption []
    (by decide) (by decide) hacc
  have hmid : mid.length = 28 := by
    rw [length_of_store hstore, recordRanges, sortRanges, List.length_mergeSort]
    rfl
  obtain ⟨id', store, hstore'⟩ := @exists_store FileEntryDs2 _ ⟨8, 48, 148, 0, 128⟩ zeroEncryption mid
    (by decide) (by rw [hmid]; decide) hacc
  have hentry : storeEntry (⟨7, 48, 100, 0, 96⟩ : FileEntryDs2) (some ⟨96, zeroEncryption⟩) [] =
      .ok (some id, mid) := by
    rw [storeEntry, hstore]
    rfl
  have hentry' : storeEntry (⟨8, 48, 148, 0, 128⟩ : FileEntryDs2) (some ⟨128, zeroEncryption⟩) mid =
      .ok (some id', store) := by
    rw [storeEntry, hstore']
    rfl
  refine ⟨entryFile ⟨.replicate 12 1⟩ (⟨7, 48, 100, 0, 96⟩ : FileEntryDs2) (some id),
    entryFile ⟨.replicate 12 1⟩ (⟨8, 48, 148, 0, 128⟩ : FileEntryDs2) (some id'), store, ?_, rfl⟩
  show processEntries _ _ [(_, _), (_, _)] [] = _
  rw [processEntries, hentry]
  show (processEntries _ _ [(_, _)] mid).bind _ = _
  rw [processEntries, hentry']
  rfl

theorem unconflicting_pairArchive : pairArchive.Unconflicting none encryptedArchive := by
  obtain ⟨file, store, hprocess⟩ := process_encryptedArchive
  obtain ⟨file₁, file₂, store', hprocess', -⟩ := processBhd_pairArchive
  intro p q hp hq
  rw [Archive.process, show pairArchive.path.filePrefix = "data1".toList from rfl, hprocess'] at hp
  rw [hprocess] at hq
  cases hp
  cases hq
  have hsurvivors : RofsObject.survivors DvdbndConfig
      [(".data1/00/00000007".toList, file₁), (".data1/00/00000008".toList, file₂)] =
        [([".data1".toList, "00".toList, "00000007".toList], 0),
          ([".data1".toList, "00".toList, "00000008".toList], 1)] := by rfl
  have hsurvivors' : RofsObject.survivors DvdbndConfig [(".data0/00/00000007".toList, file)] =
      [([".data0".toList, "00".toList, "00000007".toList], 0)] := by rfl
  dsimp only
  rw [hsurvivors, hsurvivors']
  decide

/-- A filesystem of both archives, one of which is cached. -/
theorem exists_pairFilesystem : ∃ (e : SrcId × DvdbndRofsCached) (fs fs' : DvdbndRofs)
    (values : List (SrcId × DvdbndRofsCached)),
    (⟨[(encryptedArchive.path, encryptedArchive.bhd, encryptedArchive.srcId)], none, []⟩ :
      DvdbndRofsBuilder).Finish Eytzinger.layout [e] fs ∧
    (⟨[(pairArchive.path, pairArchive.bhd, pairArchive.srcId)], none, [e]⟩ :
      DvdbndRofsBuilder).Finish Eytzinger.layout values fs' ∧ fs'.inner.fileCount = 3 := by
  obtain ⟨file, store, hprocess⟩ := process_encryptedArchive
  obtain ⟨file₁, file₂, store', hprocess', -⟩ := processBhd_pairArchive
  have hpair : pairArchive.process none =
      some ⟨[(".data1/00/00000007".toList, file₁), (".data1/00/00000008".toList, file₂)], store',
        pairArchive.srcId⟩ := by
    rw [Archive.process, show pairArchive.path.filePrefix = "data1".toList from rfl, hprocess']
  obtain ⟨obj, hobj, hcount, hsize⟩ := object_of_process hprocess (by decide) (by decide)
  obtain ⟨obj', hobj', hcount', hsize'⟩ := object_of_files hpair (show 2 < 2 ^ 32 by decide) (by
    refine List.forall_mem_cons.2 ⟨?_, List.forall_mem_singleton.2 ?_⟩ <;> dsimp only <;> decide)
  have hsrc : ([pairArchive, encryptedArchive].map Archive.srcId).Nodup := by decide
  have hobjs : ∀ a ∈ [pairArchive, encryptedArchive], ∃ obj, a.object none = some obj := by
    simp [hobj, hobj']
  have hcounts : ([pairArchive, encryptedArchive].map (Archive.fileCount none)).sum = 3 := by
    simp [hcount, hcount']
  have hsizes : ([pairArchive, encryptedArchive].map (Archive.size none)).sum ≤ 200 := by
    have hle : RofsObject.filesSize DvdbndConfig
        [(".data1/00/00000007".toList, file₁), (".data1/00/00000008".toList, file₂)] ≤ 100 := by
      simp only [RofsObject.filesSize, List.map_cons, List.map_nil]
      decide
    simp only [List.map_cons, List.map_nil, List.sum_cons, List.sum_nil]
    omega
  obtain ⟨e, fs, values, fs', hfinish, -, hbuilder, hfinish'⟩ :=
    exists_finish_cached Eytzinger.layout hsrc hobjs (by omega) (by omega)
  obtain ⟨objs, obj'', hinto, hperm, hunion⟩ :=
    isUnion_of_finish hsrc (List.pairwise_pair.2 unconflicting_pairArchive) hbuilder hfinish'
  refine ⟨e, fs, fs', values, hfinish, hfinish', ?_⟩
  rw [Rofs.fileCount, hinto.flattened.1, hunion.files, (hperm.map _).sum_nat, sum_filterMap]
  exact hcounts

/-- The archives that the two source ids stand for. -/
def encryptedBhd (srcId : SrcId) : File :=
  if srcId = encryptedArchive.srcId then encryptedArchive.bhd else pairArchive.bhd

/-- An archive with two records, and a cached one. -/
theorem linked_pairArchive : ∃ (cache values : List (SrcId × DvdbndRofsCached)) (builder : DvdbndRofsBuilder)
    (fs : DvdbndRofs), Reachable encryptedBhd Eytzinger.layout cache ∧ builder.cached.length = 1 ∧
      builder.Finish Eytzinger.layout values fs ∧ fs.inner.fileCount = 3 ∧
      (∀ inode entry file, fs.inner.entry inode = .ok entry → entry.kind = .file (some file) →
        Linked encryptedBhd fs file) ∧
      (∃ files store, processBhd none pairArchive.bhd "data1".toList pairArchive.srcId = .ok (files, store) ∧
        (ids files).length = 2 ∧ (ids files).Nodup) ∧
      ∃ err, (storeEncryptionMut (⟨7, 48, 100, 0, 96⟩ : FileEntryDs2) ⟨.replicate 16 0, 1, [⟨16, 64⟩]⟩).run [1] =
        (.error err, [1]) := by
  obtain ⟨file₁, file₂, store, hprocess, hids⟩ := processBhd_pairArchive
  obtain ⟨e, fs, fs', values, hfinish, hfinish', hcount⟩ := exists_pairFilesystem
  have hreach : Reachable encryptedBhd Eytzinger.layout ([] ++ [e]) :=
    .finish .nil ⟨by simp [encryptedBhd], List.forall_mem_nil _⟩ hfinish
  have huses : Uses encryptedBhd ([] ++ [e]) ⟨[(pairArchive.path, pairArchive.bhd, pairArchive.srcId)], none, [e]⟩ :=
    ⟨List.forall_mem_singleton.2 (if_neg (by decide)).symm, fun e he => he⟩
  obtain ⟨hlinked, hnodup, hunchanged⟩ := linked_of_reachable encryptedBhd Eytzinger.layout
  obtain ⟨err, out, hrun⟩ : ∃ err out, (storeEncryptionMut (⟨7, 48, 100, 0, 96⟩ : FileEntryDs2)
      ⟨.replicate 16 0, 1, [⟨16, 64⟩]⟩).run [1] = (.error err, out) := by
    rw [run_storeEncryptionMut]
    exact ⟨_, _, rfl⟩
  obtain rfl := hunchanged _ _ _ _ _ hrun
  exact ⟨_, values, _, fs', hreach, rfl, hfinish', hcount, hlinked _ _ values fs' hreach huses hfinish',
    ⟨_, store, hprocess, hids, hnodup _ _ _ _ _ _ hprocess⟩, err, hrun⟩

end Fsvfs.Dvdbnd
