/-
  Images: files as they are written, layout by layout.

  An image of a layout has a bucket table, the entries of every bucket and the
  encryption data at the offsets that point to them (`IsImage`).  The parser of
  one layout succeeds exactly on the images of that layout
  (`tryRefBuckets_iff`), and an image has one reading (`IsImage.unique`).
-/
import Fsvfs.Bhd5.WellFormed

namespace Fsvfs.Bhd5

open Lib

/-! ## Slices -/

theorem IsSlice.at {R : Type} {c : Codec R} {bytes : List UInt8} {r : Ref (List R)}
    (h : IsSlice c bytes r) : At bytes r.offset (r.val.flatMap c.write) := by
  have hw : r.val.flatMap c.write = (bytes.drop r.offset).take (r.val.length * c.size) := by
    refine Codec.write_of_read fun k a ha => ?_
    rw [List.drop_drop]
    exact h.read k a ha
  refine ⟨?_, ?_⟩
  · rw [c.length_flatMap_write]
    exact h.inside
  · rw [c.length_flatMap_write, hw]

/-- **A slice is read where its records are written.** -/
theorem tryRefSliceHelper_iff {R : Type} {c : Codec R} {bytes : List UInt8} {count offset : ℕ}
    {r : Ref (List R)} : tryRefSliceHelper c bytes (some count) offset = some r ↔
      r.offset = offset ∧ r.val.length = count ∧ At bytes offset (r.val.flatMap c.write) := by
  constructor
  · intro h
    obtain ⟨hoff, hcount, hslice⟩ := tryRefSliceHelper_spec h
    exact ⟨hoff, (Option.some.inj hcount).symm, hoff ▸ hslice.at⟩
  · rintro ⟨hoff, hcount, hat⟩
    obtain ⟨rest, hrest⟩ := hat.drop
    have hle := hat.1
    have hlen := c.length_flatMap_write r.val
    have hdrop := congrArg List.length hrest
    rw [List.length_drop, List.length_append] at hdrop
    rw [hcount] at hlen
    simp only [tryRefSliceHelper]
    rw [if_pos (by omega), if_pos (by rw [List.length_drop]; omega), hrest, ← hcount,
      c.readMany_write, Option.map_some, ← hoff]

/-! ## Images of one layout -/

section
variable {B E : Type} [BucketHeader B] [FileEntry E] {o : ByteOrder} {bytes : List UInt8}
  {header : Header}

/-- The bytes of encryption data. -/
def Encryption.write (o : ByteOrder) (enc : Encryption) : List UInt8 :=
  (Encryption.headCodec o).write (enc.key, enc.rangeCount) ++
    enc.ranges.flatMap (EncryptionRange.codec o).write

/-- Encryption data is written where the entry says. -/
def HasEncryption (o : ByteOrder) (bytes : List UInt8) (e : E) : Prop :=
  ∀ offset, FileEntry.encryptionOffset e = some offset → ∃ enc : Encryption,
    usizeOfI32 enc.rangeCount = some enc.ranges.length ∧ At bytes offset.toNat (enc.write o)

/-- An image of one layout, with the entries `l`. -/
structure IsImage (B : Type) [BucketHeader B] (o : ByteOrder) (bytes : List UInt8)
    (header : Header) (l : List (Ref (List E))) : Prop where
  table : ∃ t : List B, t.length = header.usizeBucketCount ∧
    At bytes (header.bucketTableOffset o) (t.flatMap (BucketHeader.codec o).write) ∧
    List.Forall₂ IsBucket t l
  entries : ∀ b ∈ l, At bytes b.offset (b.val.flatMap (FileEntry.codec o).write)
  valid : ∀ e ∈ flatEntries l, FileEntry.isValid e header = true
  offset0 : (atOffset0 (flatEntries l)).length ≤ 1
  encryption : ∀ e ∈ flatEntries l, HasEncryption o bytes e

theorem validateEntries_of_valid : ∀ {entries : List E} {st : Bool},
    (∀ e ∈ entries, FileEntry.isValid e header = true) →
    (atOffset0 entries).length + st.toNat ≤ 1 → ∃ st', validateEntries header st entries = some st'
  | [], st, _, _ => ⟨st, rfl⟩
  | e :: entries, st, hv, h0 => by
    obtain ⟨he, hv⟩ := List.forall_mem_cons.1 hv
    rw [validateEntries]
    simp only [validatorIsValid]
    by_cases h : FileEntry.fileOffset e = 0
    · have hst : st = false := by
        cases st with
        | false => rfl
        | true => simp [atOffset0, h] at h0
      subst hst
      simp only [h, decide_true, Bool.and_false, Bool.false_eq_true, if_false, he, if_true]
      exact validateEntries_of_valid hv (by simpa [atOffset0, h] using h0)
    · simp only [h, decide_false, Bool.false_and, Bool.false_eq_true, if_false, he, if_true]
      exact validateEntries_of_valid hv (by simpa [atOffset0, h] using h0)

/-- The buckets of an image are read. -/
theorem refBuckets_of_image {t : List B} {l : List (Ref (List E))} (ht : List.Forall₂ IsBucket t l) :
    ∀ {st : Bool}, (∀ b ∈ l, At bytes b.offset (b.val.flatMap (FileEntry.codec o).write)) →
      (∀ e ∈ flatEntries l, FileEntry.isValid e header = true) →
      (atOffset0 (flatEntries l)).length + st.toNat ≤ 1 →
      refBuckets o bytes header st t = some l := by
  induction ht with
  | nil =>
    intro st _ _ _
    rfl
  | @cons b bucket t l hb _ ih =>
    intro st hat hv h0
    rw [flatEntries, List.flatMap_cons] at hv h0
    rw [atOffset0, List.filter_append, List.length_append] at h0
    obtain ⟨hat, hats⟩ := List.forall_mem_cons.1 hat
    have hslice : tryRefSliceHelper (FileEntry.codec o) bytes (BucketHeader.entryCount b)
        (BucketHeader.entryOffset b) = some bucket := by
      rw [hb.2]
      exact tryRefSliceHelper_iff.2 ⟨hb.1.symm, rfl, hb.1 ▸ hat⟩
    have hv1 : ∀ e ∈ bucket.val, FileEntry.isValid e header = true := fun e he =>
      hv e (List.mem_append_left _ he)
    obtain ⟨st', hst'⟩ : ∃ st', validateEntries header st bucket.val = some st' :=
      validateEntries_of_valid hv1 (by rw [atOffset0]; omega)
    have hcount := (validateEntries_spec hst').2
    rw [atOffset0] at hcount
    have hrest := @ih st' hats (fun e he => hv e (List.mem_append_right _ he))
      (by rw [atOffset0, flatEntries]; omega)
    rw [refBuckets, hslice]
    simp [hst', hrest]

theorem IsEncryption.at {r : Ref Encryption} (h : IsEncryption o bytes r) :
    At bytes r.offset (r.val.write o) := by
  have hhead := (Encryption.headCodec o).write_read _ _ h.head
  have hlen := (Encryption.headCodec o).length_write (r.val.key, r.val.rangeCount)
  have hranges : r.val.ranges.flatMap (EncryptionRange.codec o).write =
      (bytes.drop (r.offset + (Encryption.headCodec o).size)).take
        (r.val.ranges.length * (EncryptionRange.codec o).size) := by
    refine Codec.write_of_read fun k a ha => ?_
    rw [List.drop_drop]
    exact h.ranges k a ha
  have hin := h.inside
  refine at_append.2 ⟨⟨?_, ?_⟩, ?_, ?_⟩
  · rw [hlen]
    omega
  · rw [hlen, hhead]
  · rw [hlen, Codec.length_flatMap_write]
    exact hin
  · rw [hlen, Codec.length_flatMap_write, hranges]

theorem EncryptionOf.hasEncryption {e : E} {enc : Option (Ref Encryption)}
    (h : EncryptionOf o bytes e enc) : HasEncryption o bytes e := by
  intro offset hoff
  rw [EncryptionOf, hoff] at h
  obtain ⟨r, rfl, hr, henc⟩ := h
  exact ⟨r.val, henc.count, hr ▸ henc.at⟩

/-- Encryption data is found exactly where it is written. -/
theorem refEncryption_iff {e : E} :
    (∃ enc, refEncryption o bytes e = .ok enc) ↔ HasEncryption o bytes e := by
  constructor
  · rintro ⟨enc, h⟩
    exact (refEncryption_spec h).hasEncryption
  · intro h
    unfold refEncryption
    rcases hoff : FileEntry.encryptionOffset e with _ | offset
    · exact ⟨none, rfl⟩
    obtain ⟨enc, hcount, hat⟩ := h offset hoff
    obtain ⟨rest, hrest⟩ := hat.drop
    have hle := hat.1
    have hdrop := congrArg List.length hrest
    have hhead := (Encryption.headCodec o).length_write (enc.key, enc.rangeCount)
    have hranges := (EncryptionRange.codec o).length_flatMap_write enc.ranges
    rw [List.length_drop, Encryption.write, List.length_append, List.length_append] at hdrop
    rw [Encryption.write, List.append_assoc] at hrest
    refine ⟨some ⟨offset.toNat, enc⟩, ?_⟩
    simp only
    rw [if_pos (by omega), if_pos (by rw [List.length_drop]; omega), hrest,
      List.take_left' hhead, Codec.read_write]
    simp only [hcount]
    rw [if_pos (by simp only [List.length_append]; omega), List.drop_left' hhead,
      Codec.readMany_write]

theorem refEncryptions_of_hasEncryption {entries : List E}
    (h : ∀ e ∈ entries, HasEncryption o bytes e) :
    ∃ encs, refEncryptions o bytes entries = .ok encs := by
  induction entries with
  | nil => exact ⟨[], rfl⟩
  | cons e entries ih =>
    obtain ⟨he, h⟩ := List.forall_mem_cons.1 h
    obtain ⟨enc, h1⟩ := refEncryption_iff.2 he
    obtain ⟨rest, h2⟩ := ih h
    exact ⟨enc :: rest, by rw [refEncryptions, h1, h2]; rfl⟩

/-- What `tryRefEncryption` does for the entries of one layout. -/
structure Encrypts (o : ByteOrder) (bytes : List UInt8) (f : List (Ref (List E)) → Buckets) :
    Prop where
  sound : ∀ l encs, tryRefEncryption o bytes (f l) = .ok encs →
    List.Forall₂ (EncryptionOf o bytes) (flatEntries l) encs
  complete : ∀ l, (∀ e ∈ flatEntries l, HasEncryption o bytes e) →
    ∃ encs, tryRefEncryption o bytes (f l) = .ok encs

theorem IsImage.read {l : List (Ref (List E))} (h : IsImage B o bytes header l) : ∃ t : List B,
    tryRefSliceHelper (BucketHeader.codec o) bytes (some header.usizeBucketCount)
      (header.bucketTableOffset o) = some ⟨header.bucketTableOffset o, t⟩ ∧
    refBuckets o bytes header false t = some l := by
  obtain ⟨t, hcount, hat, ht⟩ := h.table
  exact ⟨t, tryRefSliceHelper_iff.2 ⟨rfl, hcount, hat⟩,
    refBuckets_of_image ht h.entries h.valid (by simpa using h.offset0)⟩

/-- **An image has one reading.** -/
theorem IsImage.unique {l l' : List (Ref (List E))} (h : IsImage B o bytes header l)
    (h' : IsImage B o bytes header l') : l = l' := by
  obtain ⟨t, hslice, hbuckets⟩ := h.read
  obtain ⟨t', hslice', hbuckets'⟩ := h'.read
  rw [hslice] at hslice'
  obtain rfl : t = t' := by simpa using hslice'
  rw [hbuckets] at hbuckets'
  exact Option.some.inj hbuckets'

/-- **The parser of a layout succeeds exactly on its images.** -/
theorem tryRefBuckets_iff {f : List (Ref (List E)) → Buckets} (hf : Encrypts o bytes f)
    {b : Buckets} : (∃ encs, tryRefBuckets B o bytes header f = .ok (b, encs)) ↔
      ∃ l, b = f l ∧ IsImage B o bytes header l := by
  constructor
  · rintro ⟨encs, h⟩
    obtain ⟨l, rfl, hok, henc⟩ := tryRefBuckets_spec hf.sound h
    obtain ⟨r, hoff, hlen, hslice, ht⟩ := hok.table
    refine ⟨l, rfl, ⟨r.val, hlen, hoff ▸ hslice.at, ht⟩, fun b hb => (hok.slices b hb).at,
      hok.valid, hok.offset0, fun e he => ?_⟩
    obtain ⟨enc, -, h⟩ := exists_of_forall₂ (R := fun enc e => EncryptionOf o bytes e enc)
      (List.Forall₂.flip henc) e he
    exact h.hasEncryption
  · rintro ⟨l, rfl, hl⟩
    obtain ⟨t, hslice, hbuckets⟩ := hl.read
    obtain ⟨encs, hencs⟩ := hf.complete l hl.encryption
    refine ⟨encs, ?_⟩
    rw [tryRefBuckets, hslice]
    simp only [hbuckets, hencs]
    rfl

end

section
variable {o : ByteOrder} {bytes : List UInt8}

theorem encrypts_ds : Encrypts o bytes .DarkSouls where
  sound l encs h := by
    cases h
    rw [← length_flatEntries]
    exact forall₂_replicate (fun _ => rfl) _
  complete _ _ := ⟨_, rfl⟩

theorem encrypts_ds2 : Encrypts o bytes .DarkSouls2 where
  sound _ _ h := refEncryptions_spec h
  complete _ h := refEncryptions_of_hasEncryption h

theorem encrypts_ds3 : Encrypts o bytes .DarkSouls3 where
  sound _ _ h := refEncryptions_spec h
  complete _ h := refEncryptions_of_hasEncryption h

theorem encrypts_er : Encrypts o bytes .EldenRing where
  sound _ _ h := refEncryptions_spec h
  complete _ h := refEncryptions_of_hasEncryption h

/-! ## The header -/

/-- The bytes of a header before its last field. -/
def Header.head (o : ByteOrder) (h : Header) : List UInt8 :=
  magic.write () ++ (bom o).write () ++ Codec.bool.write h.hasCrypto ++ [0] ++ [0] ++
    (oneU32 o).write () ++ (Codec.u32 o).write h.fileSize ++ (Codec.i32 o).write h.bucketCount ++
    (Codec.u32 o).write h.bucketOffset

theorem Header.write_eq (h : Header) :
    (Header.codec o).write h = h.head o ++ h.bucketOffset2OrSaltLen.toList := by
  simp only [Header.head, List.append_assoc]
  rfl

@[simp] theorem Header.length_head (h : Header) : (h.head o).length = 24 := by
  have hlen := (Header.codec o).length_write h
  rw [Header.write_eq, List.length_append, Vector.length_toList] at hlen
  have hsize : (Header.codec o).size = 32 := by cases o <;> rfl
  omega

theorem size_header : (Header.codec o).size = 32 := by
  cases o <;> rfl

/-- The header that is read has the last field that stands in the file. -/
theorem tryRefHeader_of_head {h : Header} (hat : At bytes 0 (h.head o)) (hlen : 32 ≤ bytes.length) :
    ∃ v : Vector UInt8 8, v.toList = (bytes.drop 24).take 8 ∧
      tryRefHeader o bytes = .ok { h with bucketOffset2OrSaltLen := v } := by
  have hv : ((bytes.drop 24).take 8).length = 8 := by
    rw [List.length_take, List.length_drop]
    omega
  refine ⟨⟨((bytes.drop 24).take 8).toArray, by simpa using hv⟩, rfl, ?_⟩
  have htake : bytes.take 24 = h.head o := by
    have := hat.2
    rwa [List.drop_zero, Header.length_head] at this
  have hwrite : bytes.take (Header.codec o).size = (Header.codec o).write
      { h with bucketOffset2OrSaltLen := ⟨((bytes.drop 24).take 8).toArray, by simpa using hv⟩ } := by
    rw [Header.write_eq, size_header, show (32 : ℕ) = 24 + 8 from rfl, List.take_add, htake]
    rfl
  unfold tryRefHeader
  simp only
  rw [if_pos (by rw [size_header]; exact hlen), hwrite, Codec.read_write]

theorem length_of_tryRefHeader {h : Header} (hh : tryRefHeader o bytes = .ok h) :
    32 ≤ bytes.length := by
  simp only [tryRefHeader] at hh
  split_ifs at hh with hlen
  rwa [size_header] at hlen

end

/-! ## Entries -/

/-- An entry as it is used: by the methods of `FileEntry`. -/
structure Decoded where
  pathHash : UInt64
  u64Hash : Bool
  fileOffset : UInt64
  fileSize : UInt32
  unpaddedFileSize : Option UInt32
  encryptionOffset : Option UInt64
deriving DecidableEq

def Decoded.of {E : Type} [FileEntry E] (e : E) : Decoded where
  pathHash := FileEntry.pathHash e
  u64Hash := FileEntry.u64Hash E
  fileOffset := FileEntry.fileOffset e
  fileSize := FileEntry.fileSize e
  unpaddedFileSize := FileEntry.unpaddedFileSize e
  encryptionOffset := FileEntry.encryptionOffset e

def decoded {E : Type} [FileEntry E] (l : List (Ref (List E))) : List Decoded :=
  (flatEntries l).map Decoded.of

def Buckets.decoded : Buckets → List Decoded
  | .DarkSouls l => Bhd5.decoded l
  | .DarkSouls2 l => Bhd5.decoded l
  | .DarkSouls3 l => Bhd5.decoded l
  | .EldenRing l => Bhd5.decoded l

/-- A hash of a layout with 32-bit hashes has 32 bits. -/
theorem Buckets.pathHash_lt {b : Buckets} {d : Decoded} (hd : d ∈ b.decoded)
    (h : d.u64Hash = false) : d.pathHash.toNat < 2 ^ 32 := by
  rcases b with l | l | l | l <;> obtain ⟨e, -, rfl⟩ := List.mem_map.1 hd
  · exact e.pathHash.toNat_lt
  · exact e.pathHash.toNat_lt
  · exact e.pathHash.toNat_lt
  · cases h

/-- The entries of one layout have hashes of one width. -/
theorem Buckets.u64Hash_eq {b : Buckets} {d d' : Decoded} (hd : d ∈ b.decoded)
    (hd' : d' ∈ b.decoded) : d.u64Hash = d'.u64Hash := by
  rcases b with l | l | l | l <;> obtain ⟨e, -, rfl⟩ := List.mem_map.1 hd <;>
    obtain ⟨e', -, rfl⟩ := List.mem_map.1 hd' <;> rfl

end Fsvfs.Bhd5
