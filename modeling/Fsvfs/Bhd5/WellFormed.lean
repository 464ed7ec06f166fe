/-
  What the BHD5 parser accepts is well-formed.

  Every function of the parser gets one lemma that says what its success
  means: `tryRefSliceHelper_spec` for a slice, `validateEntries_spec` for the
  validator, `refBuckets_spec` for the buckets and `refEncryptions_spec` for
  the encryption data.  `BucketsOk` collects them for one layout, and
  `wellFormed_of_tryRef` is the result for a whole file.
-/
import Fsvfs.Bhd5.Format
import Mathlib.Data.List.Forall2

namespace Fsvfs.Bhd5

open Lib

/-! ## Slices -/

/-- A slice lies inside the input and is read from there. -/
structure IsSlice {R : Type} (c : Codec R) (bytes : List UInt8) (r : Ref (List R)) : Prop where
  inside : r.offset + r.val.length * c.size ≤ bytes.length
  read : ∀ k a, r.val[k]? = some a →
    c.read ((bytes.drop (r.offset + k * c.size)).take c.size) = some a

theorem tryRefSliceHelper_spec {R : Type} {c : Codec R} {bytes : List UInt8} {count : Option ℕ}
    {offset : ℕ} {r : Ref (List R)} (h : tryRefSliceHelper c bytes count offset = some r) :
    r.offset = offset ∧ count = some r.val.length ∧ IsSlice c bytes r := by
  unfold tryRefSliceHelper at h
  rcases count with _ | count
  · cases h
  simp only at h
  split_ifs at h with h1 h2
  obtain ⟨l, hl, rfl⟩ := Option.map_eq_some_iff.1 h
  have hlen := Codec.length_of_readMany hl
  rw [List.length_drop] at h2
  refine ⟨rfl, by rw [hlen], ⟨?_, fun k a hk => ?_⟩⟩
  · dsimp only
    rw [hlen]
    omega
  · rw [← List.drop_drop]
    exact Codec.readMany_spec hl hk

/-! ## The validator -/

section
variable {E : Type} [FileEntry E] {header : Header}

/-- The entries at file offset 0. -/
def atOffset0 (entries : List E) : List E := entries.filter fun e => FileEntry.fileOffset e = 0

/-- The validator lets through valid entries, and one of them at offset 0. -/
theorem validateEntries_spec : ∀ {entries : List E} {st st' : Bool},
    validateEntries header st entries = some st' →
      (∀ e ∈ entries, FileEntry.isValid e header = true) ∧
      (atOffset0 entries).length + st.toNat = st'.toNat
  | [], st, st', h => by cases h; simp [atOffset0]
  | e :: entries, st, st', h => by
    rw [validateEntries] at h
    simp only [validatorIsValid] at h
    by_cases h0 : FileEntry.fileOffset e = 0
    · simp only [h0, decide_true, Bool.true_and, Bool.or_true] at h
      cases st with
      | true => simp at h
      | false =>
        simp only [Bool.false_eq_true, if_false] at h
        split_ifs at h with hv
        obtain ⟨h1, h2⟩ := validateEntries_spec h
        refine ⟨List.forall_mem_cons.2 ⟨hv, h1⟩, ?_⟩
        simpa [atOffset0, h0] using h2
    · simp only [h0, decide_false, Bool.false_and, Bool.false_eq_true, if_false, Bool.or_false] at h
      split_ifs at h with hv
      obtain ⟨h1, h2⟩ := validateEntries_spec h
      refine ⟨List.forall_mem_cons.2 ⟨hv, h1⟩, ?_⟩
      simpa [atOffset0, h0] using h2

/-! ## Buckets -/

/-- A bucket is where its header says. -/
def IsBucket {B : Type} [BucketHeader B] (header : B) (bucket : Ref (List E)) : Prop :=
  BucketHeader.entryOffset header = bucket.offset ∧
    BucketHeader.entryCount header = some bucket.val.length

/-- What the buckets of one layout have been checked for. -/
structure BucketsOk (B : Type) [BucketHeader B] (o : ByteOrder) (bytes : List UInt8)
    (header : Header) (buckets : List (Ref (List E))) : Prop where
  table : ∃ r : Ref (List B), r.offset = header.bucketTableOffset o ∧
    r.val.length = header.usizeBucketCount ∧ IsSlice (BucketHeader.codec o) bytes r ∧
    List.Forall₂ IsBucket r.val buckets
  slices : ∀ b ∈ buckets, IsSlice (FileEntry.codec o) bytes b
  valid : ∀ e ∈ flatEntries buckets, FileEntry.isValid e header = true
  offset0 : (atOffset0 (flatEntries buckets)).length ≤ 1

theorem refBuckets_spec {B : Type} [BucketHeader B] {o : ByteOrder} {bytes : List UInt8} :
    ∀ {l : List B} {st : Bool} {buckets : List (Ref (List E))},
      refBuckets o bytes header st l = some buckets →
        List.Forall₂ IsBucket l buckets ∧
        (∀ b ∈ buckets, IsSlice (FileEntry.codec o) bytes b) ∧
        (∀ e ∈ flatEntries buckets, FileEntry.isValid e header = true) ∧
        (atOffset0 (flatEntries buckets)).length + st.toNat ≤ 1
  | [], st, _, h => by
    cases h
    exact ⟨.nil, by simp, by simp [flatEntries], by cases st <;> simp [flatEntries, atOffset0]⟩
  | b :: l, st, _, h => by
    obtain ⟨entries, h1, h⟩ := Option.bind_eq_some_iff.1 h
    obtain ⟨st', h2, h⟩ := Option.bind_eq_some_iff.1 h
    obtain ⟨rest, h3, h⟩ := Option.bind_eq_some_iff.1 h
    cases h
    obtain ⟨hoff, hcount, hslice⟩ := tryRefSliceHelper_spec h1
    obtain ⟨hv, h0⟩ := validateEntries_spec h2
    obtain ⟨r1, r2, r3, r4⟩ := refBuckets_spec h3
    refine ⟨.cons ⟨hoff.symm, hcount⟩ r1, List.forall_mem_cons.2 ⟨hslice, r2⟩, ?_, ?_⟩
    · intro e he
      rw [flatEntries, List.flatMap_cons, List.mem_append] at he
      exact he.elim (hv e) (r3 e)
    · rw [flatEntries, List.flatMap_cons, atOffset0, List.filter_append, List.length_append]
      rw [atOffset0] at h0
      rw [atOffset0, flatEntries] at r4
      omega

/-! ## Encryption data -/

/-- The encryption data lies inside the input, with as many ranges as it
    says. -/
structure IsEncryption (o : ByteOrder) (bytes : List UInt8) (r : Ref Encryption) : Prop where
  inside : r.offset + (Encryption.headCodec o).size +
    r.val.ranges.length * (EncryptionRange.codec o).size ≤ bytes.length
  head : (Encryption.headCodec o).read
    ((bytes.drop r.offset).take (Encryption.headCodec o).size) = some (r.val.key, r.val.rangeCount)
  count : usizeOfI32 r.val.rangeCount = some r.val.ranges.length
  ranges : ∀ k a, r.val.ranges[k]? = some a → (EncryptionRange.codec o).read
    ((bytes.drop (r.offset + (Encryption.headCodec o).size + k * (EncryptionRange.codec o).size)).take
      (EncryptionRange.codec o).size) = some a

/-- The encryption data of an entry, if it has any. -/
def EncryptionOf (o : ByteOrder) (bytes : List UInt8) (entry : E) (enc : Option (Ref Encryption)) :
    Prop :=
  match FileEntry.encryptionOffset entry with
  | none => enc = none
  | some offset => ∃ r, enc = some r ∧ r.offset = offset.toNat ∧ IsEncryption o bytes r

theorem refEncryption_spec {o : ByteOrder} {bytes : List UInt8} {entry : E}
    {enc : Option (Ref Encryption)} (h : refEncryption o bytes entry = .ok enc) :
    EncryptionOf o bytes entry enc := by
  unfold refEncryption at h
  unfold EncryptionOf
  rcases hoff : FileEntry.encryptionOffset entry with _ | offset
  · simp only [hoff] at h
    cases h; rfl
  simp only [hoff] at h ⊢
  split_ifs at h with h1 h2
  rcases hhead : (Encryption.headCodec o).read
    ((bytes.drop offset.toNat).take (Encryption.headCodec o).size) with _ | ⟨key, rangeCount⟩
  · simp [hhead] at h
  simp only [hhead] at h
  rcases hcount : usizeOfI32 rangeCount with _ | nRanges
  · simp [hcount] at h
  simp only [hcount] at h
  split_ifs at h with h3
  rcases hranges : (EncryptionRange.codec o).readMany nRanges
    ((bytes.drop offset.toNat).drop (Encryption.headCodec o).size) with _ | ranges
  · simp only [hranges] at h
    cases h
  simp only [hranges] at h
  cases h
  have hlen := Codec.length_of_readMany hranges
  rw [List.length_drop] at h3
  refine ⟨_, rfl, rfl, ⟨?_, hhead, by rw [hcount, hlen], fun k a hk => ?_⟩⟩
  · dsimp only
    rw [hlen]
    omega
  · rw [← List.drop_drop, ← List.drop_drop]
    exact Codec.readMany_spec hranges hk

theorem refEncryptions_spec {o : ByteOrder} {bytes : List UInt8} :
    ∀ {entries : List E} {encs : List (Option (Ref Encryption))},
      refEncryptions o bytes entries = .ok encs →
        List.Forall₂ (EncryptionOf o bytes) entries encs
  | [], _, h => by cases h; exact .nil
  | e :: entries, _, h => by
    rw [refEncryptions] at h
    rcases h1 : refEncryption o bytes e with err | enc
    · rw [h1] at h; cases h
    rcases h2 : refEncryptions o bytes entries with err | rest
    · rw [h1, h2] at h; cases h
    rw [h1, h2] at h
    cases h
    exact .cons (refEncryption_spec h1) (refEncryptions_spec h2)

/-! ## One layout -/

omit [FileEntry E] in
theorem length_flatEntries {buckets : List (Ref (List E))} :
    (flatEntries buckets).length = (buckets.map fun b => b.val.length).sum := by
  simp [flatEntries, List.length_flatMap]

/-- The encryption data of a layout without any. -/
theorem forall₂_replicate {o : ByteOrder} {bytes : List UInt8}
    (hnone : ∀ e : E, FileEntry.encryptionOffset e = none) (entries : List E) :
    List.Forall₂ (EncryptionOf o bytes) entries (List.replicate entries.length none) := by
  induction entries with
  | nil => exact .nil
  | cons e entries ih =>
    refine .cons ?_ ih
    rw [EncryptionOf, hnone]

/-- **What success means for one layout.** -/
theorem tryRefBuckets_spec {B : Type} [BucketHeader B] {o : ByteOrder} {bytes : List UInt8}
    {f : List (Ref (List E)) → Buckets} {buckets : Buckets} {encs : List (Option (Ref Encryption))}
    (hf : ∀ l encs, tryRefEncryption o bytes (f l) = .ok encs →
      List.Forall₂ (EncryptionOf o bytes) (flatEntries l) encs)
    (h : tryRefBuckets B o bytes header f = .ok (buckets, encs)) :
    ∃ l, buckets = f l ∧ BucketsOk B o bytes header l ∧
      List.Forall₂ (EncryptionOf o bytes) (flatEntries l) encs := by
  unfold tryRefBuckets at h
  rcases h1 : tryRefSliceHelper (BucketHeader.codec o : Codec B) bytes
    (some header.usizeBucketCount) (header.bucketTableOffset o) with _ | r
  · rw [h1] at h; cases h
  rcases h2 : refBuckets (E := E) o bytes header false r.val with _ | l
  · rw [h1] at h; simp only [h2] at h; cases h
  rcases h3 : tryRefEncryption o bytes (f l) with err | encs'
  · rw [h1] at h; simp only [h2, h3] at h; cases h
  rw [h1] at h
  simp only [h2, h3] at h
  cases h
  obtain ⟨hoff, hcount, hslice⟩ := tryRefSliceHelper_spec h1
  obtain ⟨r1, r2, r3, r4⟩ := refBuckets_spec h2
  exact ⟨l, rfl, ⟨⟨r, hoff, (Option.some.inj hcount).symm, hslice, r1⟩, r2, r3, by simpa using r4⟩,
    hf l _ h3⟩

end

/-! ## The file -/

/-- The fields of an entry that its format has. -/
structure EntryView where
  fileSize : Int32
  unpaddedFileSize : Option Int32
  fileOffset : UInt64
  encryptionOffset : Option UInt64

/-- The entries of a file in flattened bucket order. -/
def Buckets.views : Buckets → List EntryView
  | .DarkSouls b => (flatEntries b).map fun e => ⟨e.fileSize, none, e.fileOffset, none⟩
  | .DarkSouls2 b => (flatEntries b).map fun e => ⟨e.fileSize, none, e.fileOffset, e.encryptionOffset⟩
  | .DarkSouls3 b => (flatEntries b).map fun e =>
    ⟨e.fileSize, e.unpaddedFileSize, e.fileOffset, e.encryptionOffset⟩
  | .EldenRing b => (flatEntries b).map fun e =>
    ⟨e.fileSize, e.unpaddedFileSize, e.fileOffset, e.encryptionOffset⟩

/-- The buckets have the layout of the format, and the bucket headers and the
    file entries lie inside the input. -/
def Inside (o : ByteOrder) (bytes : List UInt8) (header : Header) : Format → Buckets → Prop
  | .DarkSouls, .DarkSouls b => BucketsOk BucketHeaderAll o bytes header b
  | .DarkSoulsRemastered, .DarkSouls b => BucketsOk BucketHeaderDsr o bytes header b
  | .DarkSouls2, .DarkSouls2 b => BucketsOk BucketHeaderAll o bytes header b
  | .DarkSouls3, .DarkSouls3 b => BucketsOk BucketHeaderAll o bytes header b
  | .EldenRing, .EldenRing b => BucketsOk BucketHeaderAll o bytes header b
  | _, _ => False

/-- The encryption data that belongs to an entry: none, or the record at its offset. -/
structure EncryptedBy (o : ByteOrder) (bytes : List UInt8) (format : Format) (e : EntryView)
    (enc : Option (Ref Encryption)) : Prop where
  none_iff : enc = none ↔
    format = .DarkSouls ∨ format = .DarkSoulsRemastered ∨ e.encryptionOffset = some 0
  record : ∀ r, enc = some r →
    ∃ offset, e.encryptionOffset = some offset ∧ r.offset = offset.toNat ∧ IsEncryption o bytes r

/-- A well-formed file. -/
structure WellFormed (o : ByteOrder) (bytes : List UInt8) (header : Header) (f : File) : Prop where
  inside : Inside o bytes header f.format f.buckets
  encryption_inside : ∀ r, some r ∈ f.encryption → IsEncryption o bytes r
  fileSize : ∀ e ∈ f.buckets.views, 0 ≤ e.fileSize
  unpaddedFileSize : f.format = .DarkSouls3 ∨ f.format = .EldenRing →
    ∀ e ∈ f.buckets.views, ∃ n, e.unpaddedFileSize = some n ∧ 0 ≤ n ∧ n ≤ e.fileSize
  offset0 : (f.buckets.views.filter fun e => e.fileOffset = 0).length ≤ 1
  encryption : List.Forall₂ (EncryptedBy o bytes f.format) f.buckets.views f.encryption
  noCrypto : header.hasCrypto = false → ∀ enc ∈ f.encryption, enc = none

/-- What the fields of a valid entry have been checked for. -/
structure ViewOk {E : Type} [FileEntry E] (header : Header) (format : Format) (e : E)
    (v : EntryView) : Prop where
  fileOffset : v.fileOffset = FileEntry.fileOffset e
  fileSize : 0 ≤ v.fileSize
  unpaddedFileSize : format = .DarkSouls3 ∨ format = .EldenRing →
    ∃ n, v.unpaddedFileSize = some n ∧ 0 ≤ n ∧ n ≤ v.fileSize
  encryptionOffset : FileEntry.encryptionOffset e = none ↔ format = .DarkSouls ∨
    format = .DarkSoulsRemastered ∨ v.encryptionOffset = some 0
  sameOffset : ∀ offset, FileEntry.encryptionOffset e = some offset → v.encryptionOffset = some offset
  noCrypto : header.hasCrypto = false → FileEntry.encryptionOffset e = none

theorem EncryptionOf.eq_none {E : Type} [FileEntry E] {o : ByteOrder} {bytes : List UInt8} {e : E}
    {enc : Option (Ref Encryption)} (h : EncryptionOf o bytes e enc) :
    enc = none ↔ FileEntry.encryptionOffset e = none := by
  rw [EncryptionOf] at h
  rcases he : FileEntry.encryptionOffset e with _ | offset
  · simp only [he] at h
    simp [h]
  · simp only [he] at h
    obtain ⟨r, rfl, -, -⟩ := h
    simp

theorem EncryptionOf.record {E : Type} [FileEntry E] {o : ByteOrder} {bytes : List UInt8}
    {e : E} {r : Ref Encryption} (h : EncryptionOf o bytes e (some r)) :
    ∃ offset, FileEntry.encryptionOffset e = some offset ∧ r.offset = offset.toNat ∧ IsEncryption o bytes r := by
  rw [EncryptionOf] at h
  rcases he : FileEntry.encryptionOffset e with _ | offset
  · simp only [he] at h
    cases h
  · simp only [he] at h
    obtain ⟨r', hr, hoffset, h⟩ := h
    cases hr
    exact ⟨offset, rfl, hoffset, h⟩

theorem exists_of_forall₂ {α β : Type} {R : α → β → Prop} {l : List α} {u : List β}
    (h : List.Forall₂ R l u) : ∀ b ∈ u, ∃ a ∈ l, R a b := by
  induction h with
  | nil =>
    intro b hb
    cases hb
  | cons hab _ ih =>
    intro b hb
    rcases List.mem_cons.1 hb with rfl | hb
    · exact ⟨_, List.mem_cons_self, hab⟩
    · obtain ⟨a, ha, hR⟩ := ih b hb
      exact ⟨a, List.mem_cons_of_mem _ ha, hR⟩

/-- A file whose entries have been checked is well-formed. -/
theorem WellFormed.of_view {E : Type} [FileEntry E] {o : ByteOrder} {bytes : List UInt8}
    {header : Header} {f : File} {l : List (Ref (List E))} (view : E → EntryView)
    (hin : Inside o bytes header f.format f.buckets)
    (hviews : f.buckets.views = (flatEntries l).map view)
    (h0 : (atOffset0 (flatEntries l)).length ≤ 1)
    (hok : ∀ e ∈ flatEntries l, ViewOk header f.format e (view e))
    (henc : List.Forall₂ (EncryptionOf o bytes) (flatEntries l) f.encryption) :
    WellFormed o bytes header f := by
  refine ⟨hin, fun r hr => ?_, fun v hv => ?_, fun hf v hv => ?_, ?_, ?_, fun hc enc he => ?_⟩
  · obtain ⟨e, -, h⟩ := exists_of_forall₂ henc _ hr
    obtain ⟨-, -, -, h⟩ := h.record
    exact h
  · rw [hviews, List.mem_map] at hv
    obtain ⟨e, he, rfl⟩ := hv
    exact (hok e he).fileSize
  · rw [hviews, List.mem_map] at hv
    obtain ⟨e, he, rfl⟩ := hv
    exact (hok e he).unpaddedFileSize hf
  · rw [hviews, List.filter_map, List.length_map]
    rw [atOffset0] at h0
    refine Nat.le_trans (Nat.le_of_eq (congrArg List.length (List.filter_congr fun e he => ?_))) h0
    show decide ((view e).fileOffset = 0) = decide (FileEntry.fileOffset e = 0)
    rw [(hok e he).fileOffset]
  · rw [hviews, List.forall₂_map_left_iff]
    refine ((List.forall₂_and_left _ _).2 ⟨fun e he => he, henc⟩).imp ?_
    rintro e enc ⟨he, h⟩
    refine ⟨h.eq_none.trans (hok e he).encryptionOffset, ?_⟩
    rintro r rfl
    obtain ⟨offset, hoffset, hr⟩ := h.record
    exact ⟨offset, (hok e he).sameOffset offset hoffset, hr⟩
  · obtain ⟨e, he, h⟩ := exists_of_forall₂ henc _ he
    exact h.eq_none.2 ((hok e he).noCrypto hc)

/-! ## The layouts -/

theorem nonZero64_eq_none {n : UInt64} : nonZero64 n = none ↔ n = 0 := by
  unfold nonZero64
  split_ifs with h <;> simp [h]

theorem nonZero64_eq_some {n m : UInt64} (h : nonZero64 n = some m) : n = m := by
  unfold nonZero64 at h
  split_ifs at h
  exact Option.some.inj h

theorem validCrypto_spec {encryptionOffset fileHashOffset : UInt64} {header : Header}
    (h : validCrypto encryptionOffset fileHashOffset header = true) (hc : header.hasCrypto = false) :
    encryptionOffset = 0 := by
  unfold validCrypto at h
  simp only [hc, Bool.false_eq_true, if_false, Bool.and_eq_true, decide_eq_true_eq] at h
  exact h.1

theorem validSizes_spec {fileSize unpaddedFileSize : Int32}
    (h : validSizes fileSize unpaddedFileSize = true) :
    0 ≤ fileSize ∧ 0 ≤ unpaddedFileSize ∧ unpaddedFileSize ≤ fileSize := by
  simp only [validSizes, decide_eq_true_eq, not_or, Int32.not_lt] at h
  exact h

theorem viewOk_ds {header : Header} {format : Format}
    (hf : format = .DarkSouls ∨ format = .DarkSoulsRemastered) {e : FileEntryDs}
    (h : FileEntry.isValid e header = true) :
    ViewOk header format e ⟨e.fileSize, none, e.fileOffset, none⟩ where
  fileOffset := rfl
  fileSize := of_decide_eq_true h
  unpaddedFileSize := by
    rintro (rfl | rfl) <;> simp at hf
  encryptionOffset := iff_of_true rfl (hf.elim .inl fun h => .inr (.inl h))
  sameOffset _ h := by cases h
  noCrypto _ := rfl

theorem viewOk_ds2 {header : Header} {e : FileEntryDs2} (h : FileEntry.isValid e header = true) :
    ViewOk header .DarkSouls2 e ⟨e.fileSize, none, e.fileOffset, some e.encryptionOffset⟩ := by
  simp only [FileEntry.isValid] at h
  split_ifs at h with h0
  refine ⟨rfl, Int32.not_lt.1 h0, fun hf => ?_, ?_, fun _ h => congrArg some (nonZero64_eq_some h), fun hc => ?_⟩
  · rcases hf with hf | hf <;> cases hf
  · simp [FileEntry.encryptionOffset, nonZero64_eq_none]
  · exact nonZero64_eq_none.2 (validCrypto_spec h hc)

theorem viewOk_ds3 {header : Header} {e : FileEntryDs3} (h : FileEntry.isValid e header = true) :
    ViewOk header .DarkSouls3 e
      ⟨e.fileSize, some e.unpaddedFileSize, e.fileOffset, some e.encryptionOffset⟩ := by
  simp only [FileEntry.isValid, Bool.and_eq_true] at h
  obtain ⟨h1, h2, h3⟩ := validSizes_spec h.1
  refine ⟨rfl, h1, fun _ => ⟨_, rfl, h2, h3⟩, ?_, fun _ h => congrArg some (nonZero64_eq_some h), fun hc => ?_⟩
  · simp [FileEntry.encryptionOffset, nonZero64_eq_none]
  · exact nonZero64_eq_none.2 (validCrypto_spec h.2 hc)

theorem viewOk_er {header : Header} {e : FileEntryEr} (h : FileEntry.isValid e header = true) :
    ViewOk header .EldenRing e
      ⟨e.fileSize, some e.unpaddedFileSize, e.fileOffset, some e.encryptionOffset⟩ := by
  simp only [FileEntry.isValid, Bool.and_eq_true] at h
  obtain ⟨h1, h2, h3⟩ := validSizes_spec h.1
  refine ⟨rfl, h1, fun _ => ⟨_, rfl, h2, h3⟩, ?_, fun _ h => congrArg some (nonZero64_eq_some h), fun hc => ?_⟩
  · simp [FileEntry.encryptionOffset, nonZero64_eq_none]
  · exact nonZero64_eq_none.2 (validCrypto_spec h.2 hc)

/-- `Except.map` succeeds on what has succeeded. -/
theorem of_map_eq_ok {ε α β : Type} {f : α → β} {x : Except ε α} {b : β} (h : x.map f = .ok b) :
    ∃ a, x = .ok a ∧ f a = b := by
  rcases x with e | a
  · cases h
  · cases h
    exact ⟨a, rfl, rfl⟩

section
variable {o : ByteOrder} {bytes : List UInt8} {header : Header} {f : File}

theorem wellFormed_ds {B : Type} [BucketHeader B] {format : Format} {buckets : Buckets}
    {encryption : List (Option (Ref Encryption))}
    (hf : format = .DarkSouls ∨ format = .DarkSoulsRemastered)
    (hin : ∀ l, BucketsOk B o bytes header l → Inside o bytes header format (.DarkSouls l))
    (h : tryRefBuckets B o bytes header .DarkSouls = .ok (buckets, encryption)) :
    WellFormed o bytes header ⟨format, buckets, encryption, none⟩ := by
  obtain ⟨l, rfl, hl, henc⟩ := tryRefBuckets_spec (fun l encs he => by
    cases he
    rw [← length_flatEntries]
    exact forall₂_replicate (fun _ => rfl) _) h
  exact .of_view _ (hin l hl) rfl hl.offset0 (fun e he => viewOk_ds hf (hl.valid e he)) henc

theorem wellFormed_ds3Ds2Er {saltLen : ℕ} (h : tryRefDs3Ds2Er o bytes header saltLen = .ok f) :
    WellFormed o bytes header f := by
  unfold tryRefDs3Ds2Er at h
  rcases h3 : tryRefBuckets BucketHeaderAll o bytes header .DarkSouls3 with e3 | ⟨buckets, encryption⟩
  · simp only [h3] at h
    rcases h2 : tryRefBuckets BucketHeaderAll o bytes header .DarkSouls2 with
      e2 | ⟨buckets, encryption⟩
    · simp only [h2] at h
      obtain ⟨⟨buckets, encryption⟩, her, rfl⟩ := of_map_eq_ok h
      obtain ⟨l, rfl, hl, henc⟩ := tryRefBuckets_spec (f := .EldenRing) (fun l encs he => refEncryptions_spec he) her
      exact .of_view _ hl rfl hl.offset0 (fun e he => viewOk_er (hl.valid e he)) henc
    · simp only [h2] at h
      cases h
      obtain ⟨l, rfl, hl, henc⟩ := tryRefBuckets_spec (f := .DarkSouls2) (fun l encs he => refEncryptions_spec he) h2
      exact .of_view _ hl rfl hl.offset0 (fun e he => viewOk_ds2 (hl.valid e he)) henc
  · simp only [h3] at h
    cases h
    obtain ⟨l, rfl, hl, henc⟩ := tryRefBuckets_spec (f := .DarkSouls3) (fun l encs he => refEncryptions_spec he) h3
    exact .of_view _ hl rfl hl.offset0 (fun e he => viewOk_ds3 (hl.valid e he)) henc

/-- The parser goes by the header. -/
theorem tryRefFromBytes_of_header (hh : tryRefHeader o bytes = .ok header) :
    tryRefFromBytes o bytes = match header.saltLen o with
      | some saltLen => tryRefDs3Ds2Er o bytes header saltLen
      | none => if header.isDsrFormat then tryRefDsr o bytes header
        else tryRefDs1 o bytes header := by
  unfold tryRefFromBytes
  rw [hh]
  rfl

theorem header_of_tryRef (h : tryRefFromBytes o bytes = .ok f) :
    ∃ header, tryRefHeader o bytes = .ok header := by
  rcases hh : tryRefHeader o bytes with e | header
  · unfold tryRefFromBytes at h
    rw [hh] at h
    cases h
  · exact ⟨header, rfl⟩

/-- A file is well-formed in every layout. -/
theorem wellFormed_of_header (hh : tryRefHeader o bytes = .ok header) (h : tryRefFromBytes o bytes = .ok f) :
    WellFormed o bytes header f := by
  rw [tryRefFromBytes_of_header hh] at h
  rcases hs : header.saltLen o with _ | saltLen
  · simp only [hs] at h
    split_ifs at h
    · rw [tryRefDsr] at h
      obtain ⟨⟨buckets, encryption⟩, hb, rfl⟩ := of_map_eq_ok h
      exact wellFormed_ds (.inr rfl) (fun _ => id) hb
    · rw [tryRefDs1] at h
      obtain ⟨⟨buckets, encryption⟩, hb, rfl⟩ := of_map_eq_ok h
      exact wellFormed_ds (.inl rfl) (fun _ => id) hb
  · simp only [hs] at h
    exact wellFormed_ds3Ds2Er h

/-- **What the parser accepts is well-formed.** -/
theorem wellFormed_of_tryRef (h : tryRefFromBytes o bytes = .ok f) :
    ∃ header, tryRefHeader o bytes = .ok header ∧ WellFormed o bytes header f := by
  obtain ⟨header, hh⟩ := header_of_tryRef h
  exact ⟨header, hh, wellFormed_of_header hh h⟩

end

/-- A `DarkSouls3` image with an empty salt, one bucket, one entry and its
    encryption data. -/
def encryptedImage : List UInt8 :=
  [0x42, 0x48, 0x44, 0x35, 0xff, 1, 0, 0, 1, 0, 0, 0, 112, 0, 0, 0, 1, 0, 0, 0, 28, 0, 0, 0,
    0, 0, 0, 0, 1, 0, 0, 0, 36, 0, 0, 0,
    1, 0, 0, 0, 32, 0, 0, 0, 0, 0, 0, 0, 0, 0, 0, 0, 0, 0, 0, 0, 0, 0, 0, 0,
    76, 0, 0, 0, 0, 0, 0, 0, 20, 0, 0, 0, 0, 0, 0, 0,
    1, 2, 3, 4, 5, 6, 7, 8, 9, 10, 11, 12, 13, 14, 15, 16, 1, 0, 0, 0,
    0, 0, 0, 0, 0, 0, 0, 0, 16, 0, 0, 0, 0, 0, 0, 0]

def encryptedFile : File where
  format := .DarkSouls3
  buckets := .DarkSouls3 [⟨36, [⟨1, 32, 0, 0, 76, 20⟩]⟩]
  encryption := [some ⟨76, ⟨⟨[1, 2, 3, 4, 5, 6, 7, 8, 9, 10, 11, 12, 13, 14, 15, 16]⟩, rfl⟩, 1, [⟨0, 16⟩]⟩]
  salt := some []

theorem wellFormed_encryptedImage : ∃ header, tryRefHeader .LE encryptedImage = .ok header ∧
    WellFormed .LE encryptedImage header encryptedFile :=
  wellFormed_of_tryRef rfl

end Fsvfs.Bhd5
