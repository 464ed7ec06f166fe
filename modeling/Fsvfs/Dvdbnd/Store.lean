/-
  The records of an encryption store.

  * `storeEncryption_eq_ok`: what `store_encryption` accepts and appends;
  * `record_of_store`: the record is read back, whatever is appended later;
  * `acceptsExactly_iff`: it accepts the ranges that fit the file, unless there
    is one from the start of the file to past its end;
  * `decrypt_untouched`: with a stored record, decryption succeeds and leaves
    alone the bytes that are in none of the ranges.
-/
import Fsvfs.Dvdbnd.Patch

namespace Fsvfs.Bhd5.EncryptionRange

open Lib Dvdbnd

variable (range : EncryptionRange)

/-- The length of a range, which wraps. -/
def len : UInt64 := range.endOffset - range.startOffset

/-- The positions of a range in its file. -/
def extent : Extent := ⟨range.startOffset.toNat, range.endOffset.toNat⟩

/-- What is stored of a range. -/
def stored : Range := ⟨range.startOffset.toUInt32, range.len.toUInt32 / 16⟩

/-- A range of whole blocks in a file of a size. -/
structure FitsFile (size : ℕ) : Prop where
  lt : range.startOffset < range.endOffset
  dvd : 16 ∣ range.endOffset.toNat - range.startOffset.toNat
  le : range.endOffset.toNat ≤ size

/-- A range of whole blocks from the start of a file to past its end. -/
structure Slips (size : ℕ) : Prop where
  start : range.startOffset = 0
  dvd : 16 ∣ range.endOffset.toNat
  gt : size < range.endOffset.toNat

/-- A range passes the checks of `store_encryption`. -/
def Accepted (size : ℕ) : Prop :=
  range.startOffset = range.endOffset ∨ range.FitsFile size ∨ range.Slips size

variable {range} {size : ℕ}

theorem len_eq_zero : range.len = 0 ↔ range.startOffset = range.endOffset := by
  have hstart := range.startOffset.toNat_lt
  have hstop := range.endOffset.toNat_lt
  rw [len, ← UInt64.toNat_inj, ← UInt64.toNat_inj, UInt64.toNat_sub, UInt64.toNat_zero]
  omega

theorem toNat_len (h : range.startOffset ≤ range.endOffset) :
    range.len.toNat = range.endOffset.toNat - range.startOffset.toNat :=
  UInt64.toNat_sub_of_le _ _ h

/-- The checks of `store_encryption`. -/
theorem accepted_iff : range.Accepted size ↔ range.len = 0 ∨
    ¬ (range.startOffset > range.endOffset ∨ range.len % 16 ≠ 0) ∧
      ¬ range.startOffset.toNat > size - range.len.toNat := by
  rw [Accepted, len_eq_zero]
  refine or_congr_right' fun hne => ?_
  have hmod : range.len % 16 = 0 ↔ range.len.toNat % 16 = 0 := by
    rw [← UInt64.toNat_inj, UInt64.toNat_mod]
    rfl
  have hnat : range.startOffset.toNat ≠ range.endOffset.toNat := fun h => hne (UInt64.toNat_inj.1 h)
  constructor
  · rintro (h | h)
    · have hlt := UInt64.lt_iff_toNat_lt.1 h.lt
      have hle : range.startOffset ≤ range.endOffset := UInt64.le_iff_toNat_le.2 (by omega)
      have hlen := toNat_len hle
      have hdvd := h.dvd
      have hend := h.le
      refine ⟨?_, by omega⟩
      rintro (hgt | hlen')
      · have := UInt64.lt_iff_toNat_lt.1 hgt
        omega
      · rw [ne_eq, hmod] at hlen'
        omega
    · have hstart : range.startOffset.toNat = 0 := by
        rw [h.start]
        rfl
      have hle : range.startOffset ≤ range.endOffset := UInt64.le_iff_toNat_le.2 (by omega)
      have hlen := toNat_len hle
      have hdvd := h.dvd
      refine ⟨?_, by omega⟩
      rintro (hgt | hlen')
      · have := UInt64.lt_iff_toNat_lt.1 hgt
        omega
      · rw [ne_eq, hmod] at hlen'
        omega
  · rintro ⟨h, hsize⟩
    rw [not_or, not_not, hmod] at h
    obtain ⟨hle, hdvd⟩ := h
    have hle' : range.startOffset ≤ range.endOffset := by
      rw [UInt64.le_iff_toNat_le]
      rw [gt_iff_lt, UInt64.lt_iff_toNat_lt] at hle
      omega
    have hlen := toNat_len hle'
    rw [UInt64.le_iff_toNat_le] at hle'
    by_cases hend : range.endOffset.toNat ≤ size
    · exact .inl ⟨UInt64.lt_iff_toNat_lt.2 (by omega), by omega, hend⟩
    · -- only a range from the start gets past the saturating subtraction
      have hstart : range.startOffset.toNat = 0 := by omega
      exact .inr ⟨UInt64.toNat_inj.1 hstart, by omega, by omega⟩

/-- A range in a file of less than 4 GiB is stored as it is. -/
theorem FitsFile.extent_stored (h : range.FitsFile size) (hsize : size < 2 ^ 32) :
    range.stored.extent = range.extent := by
  have hlt := UInt64.lt_iff_toNat_lt.1 h.lt
  have hle : range.startOffset ≤ range.endOffset := UInt64.le_iff_toNat_le.2 (by omega)
  have hlen := toNat_len hle
  have hdvd := h.dvd
  have hend := h.le
  rw [Range.extent, extent, stored, Extent.mk.injEq]
  simp only [UInt64.toNat_toUInt32, UInt32.toNat_div, hlen]
  show range.startOffset.toNat % 2 ^ 32 = range.startOffset.toNat ∧
    range.startOffset.toNat % 2 ^ 32 +
      (range.endOffset.toNat - range.startOffset.toNat) % 2 ^ 32 / 16 * 16 = range.endOffset.toNat
  omega

/-- The end of a stored range has 32 bits. -/
theorem Accepted.fits (h : range.Accepted size) (hne : range.startOffset ≠ range.endOffset)
    (hsize : size < 2 ^ 32) : range.stored.Fits := by
  rcases h with h | h | h
  · exact absurd h hne
  · have hend := h.le
    rw [Range.Fits, h.extent_stored hsize]
    exact Nat.lt_of_le_of_lt hend hsize
  · have hstart : range.startOffset.toUInt32 = 0 := by
      rw [h.start]
      rfl
    have hlen := range.len.toUInt32.toNat_lt
    show range.stored.startOffset.toNat + range.stored.blockCount.toNat * 16 < 2 ^ 32
    rw [stored, hstart, UInt32.toNat_div]
    show 0 + range.len.toUInt32.toNat / 16 * 16 < 2 ^ 32
    omega

end Fsvfs.Bhd5.EncryptionRange

namespace Fsvfs.Dvdbnd

open Lib Bhd5

/-! ## Storing -/

section
variable {E : Type} [FileEntry E] {entry : E} {encryption : Encryption} {out out' : List UInt8}
  {id : EncryptionId}

/-- The ranges of an entry that are stored. -/
def storedRanges (ranges : List EncryptionRange) : List Range :=
  (ranges.filter fun range => range.startOffset ≠ range.endOffset).map EncryptionRange.stored

/-- **The ranges that are stored are those that are not empty.** -/
theorem storeRanges_eq_ok {fileOffset fileSize : UInt64} : ∀ {ranges : List EncryptionRange}
    {stored : List Range}, storeRanges fileOffset fileSize ranges = .ok stored ↔
      (∀ r ∈ ranges, r.Accepted fileSize.toNat) ∧ stored = storedRanges ranges
  | [], stored => by
    simp [storeRanges, storedRanges, eq_comm]
  | range :: ranges, stored => by
    have ih := @storeRanges_eq_ok fileOffset fileSize ranges
    have hempty : range.endOffset - range.startOffset = 0 ↔ range.startOffset = range.endOffset :=
      EncryptionRange.len_eq_zero
    have hacc : range.Accepted fileSize.toNat ↔ _ := EncryptionRange.accepted_iff
    rw [EncryptionRange.len] at hacc
    rw [storeRanges, List.forall_mem_cons, hacc]
    by_cases hlen : range.endOffset - range.startOffset = 0
    · have hstored : storedRanges (range :: ranges) = storedRanges ranges := by
        rw [storedRanges, List.filter_cons_of_neg (by simpa using hempty.1 hlen)]
        rfl
      rw [if_pos hlen, ih, hstored]
      simp [hlen]
    · have hstored : storedRanges (range :: ranges) = range.stored :: storedRanges ranges := by
        rw [storedRanges, List.filter_cons_of_pos (by simpa using fun h => hlen (hempty.2 h))]
        rfl
      rw [if_neg hlen, hstored]
      by_cases hbad : range.startOffset > range.endOffset ∨ (range.endOffset - range.startOffset) % 16 ≠ 0
      · rw [if_pos hbad]
        simp [hlen, hbad]
      · rw [if_neg hbad]
        by_cases hoob : range.startOffset.toNat >
            fileSize.toNat - (range.endOffset - range.startOffset).toNat
        · rw [if_pos hoob]
          simp [hlen, hoob]
        · have hok : ¬ (range.startOffset > range.endOffset ∨
              (range.endOffset - range.startOffset) % 16 ≠ 0) ∧ ¬ range.startOffset.toNat >
                fileSize.toNat - (range.endOffset - range.startOffset).toNat := ⟨hbad, hoob⟩
          rw [if_neg hoob]
          rcases hrest : storeRanges fileOffset fileSize ranges with err | rest
          · have hno : ¬ ∀ r ∈ ranges, r.Accepted fileSize.toNat := fun h => by
              have hok : storeRanges fileOffset fileSize ranges = .ok (storedRanges ranges) := ih.2 ⟨h, rfl⟩
              rw [hrest] at hok
              cases hok
            constructor
            · intro h
              cases h
            · intro h
              exact absurd h.1.2 hno
          · obtain ⟨hall, rfl⟩ := ih.1 hrest
            constructor
            · intro h
              cases h
              exact ⟨⟨.inr hok, hall⟩, rfl⟩
            · rintro ⟨-, rfl⟩
              rfl

/-- The ranges in the record of an entry. -/
def recordRanges (encryption : Encryption) : List Range := sortRanges (storedRanges encryption.ranges)

theorem mem_recordRanges {range : Range} : range ∈ recordRanges encryption ↔
    ∃ r ∈ encryption.ranges, r.startOffset ≠ r.endOffset ∧ r.stored = range := by
  simp [recordRanges, sortRanges, storedRanges, and_assoc]

/-- The record that is appended for an entry. -/
def writeRecord (encryption : Encryption) (rangeCount : U24) : List UInt8 :=
  Aes128.codec.write ⟨encryption.key, rangeCount⟩ ++
    (recordRanges encryption).flatMap Range.codec.write

/-- **What `store_encryption` accepts and appends.** -/
theorem storeEncryption_eq_ok : storeEncryption entry encryption out = .ok (id, out') ↔
    (∀ r ∈ encryption.ranges, r.Accepted (FileEntry.fileSize entry).toNat) ∧
      ∃ rangeCount, U24.tryFrom (recordRanges encryption).length = some rangeCount ∧
        EncryptionId.tryFromIndex out.length = some id ∧ out' = out ++ writeRecord encryption rangeCount := by
  have hranges : ∀ stored, storeRanges (FileEntry.fileOffset entry) (FileEntry.fileSize entry).toUInt64
      encryption.ranges = .ok stored ↔ (∀ r ∈ encryption.ranges,
        r.Accepted (FileEntry.fileSize entry).toNat) ∧ stored = storedRanges encryption.ranges :=
    fun _ => storeRanges_eq_ok
  rw [storeEncryption]
  rcases hstore : storeRanges (FileEntry.fileOffset entry) (FileEntry.fileSize entry).toUInt64
    encryption.ranges with err | stored
  · constructor
    · intro h
      cases h
    · rintro ⟨h, -⟩
      have := (hranges (storedRanges encryption.ranges)).2 ⟨h, rfl⟩
      rw [hstore] at this
      cases this
  · obtain ⟨hacc, rfl⟩ := (hranges stored).1 hstore
    have hrecord : sortRanges (storedRanges encryption.ranges) = recordRanges encryption := rfl
    dsimp only [bind, Except.bind]
    rw [hrecord]
    rcases U24.tryFrom (recordRanges encryption).length with _ | rangeCount
    · simp
    · rcases EncryptionId.tryFromIndex out.length with _ | index
      · simp
      · constructor
        · intro h
          cases h
          exact ⟨hacc, rangeCount, rfl, rfl, List.append_assoc _ _ _⟩
        · rintro ⟨-, rangeCount', hcount, hid, rfl⟩
          cases hcount
          cases hid
          rw [writeRecord, ← List.append_assoc]

theorem EncryptionId.tryFromIndex_eq_some {index : ℕ} {id : EncryptionId} :
    tryFromIndex index = some id ↔ index < 2 ^ 32 - 1 ∧ id.intoIndex = index := by
  have hxor : ∀ n : UInt32, n ^^^ 0xffffffff ^^^ 0xffffffff = n := fun n => by
    rw [UInt32.xor_assoc, UInt32.xor_self, UInt32.xor_zero]
  rw [tryFromIndex]
  constructor
  · intro h
    split_ifs at h with hlt hne
    cases h
    refine ⟨?_, ?_⟩
    · by_contra hge
      obtain rfl : index = 2 ^ 32 - 1 := by omega
      exact hne (by decide)
    · rw [intoIndex, hxor]
      exact UInt32.toNat_ofNat_of_lt' hlt
  · rintro ⟨hlt, rfl⟩
    have hne : id.intoIndex.toUInt32 ^^^ 0xffffffff = id.val := by
      rw [intoIndex]
      show UInt32.ofNat (id.val ^^^ 0xffffffff).toNat ^^^ 0xffffffff = id.val
      rw [UInt32.ofNat_toNat, hxor]
    rw [if_pos (by omega), dif_pos (by rw [hne]; exact id.ne_zero)]
    congr 1
    cases id
    congr 1

theorem U24.tryFrom_eq_some {n : ℕ} {u : U24} : tryFrom n = some u ↔ n < 2 ^ 24 ∧ u.get = n := by
  rw [tryFrom]
  constructor
  · intro h
    split_ifs at h with hlt
    cases h
    exact ⟨hlt, decode_encode .LE (by exact hlt)⟩
  · rintro ⟨hlt, rfl⟩
    rw [if_pos hlt]
    congr 1
    obtain ⟨⟨⟨l⟩, hl⟩⟩ := u
    have hlen : l.length = 3 := hl
    simp only [U24.mk.injEq, Vector.mk.injEq]
    congr 1
    show encode .LE 3 (decode .LE l) = l
    rw [← hlen, encode_decode]

/-! ## Reading back -/

/-- The record at an id. -/
def record (store : List UInt8) (id : EncryptionId) : Option (Aes128 × List Range) :=
  if id.intoIndex > store.length then none
  else
    let store := store.drop id.intoIndex
    (Aes128.codec.read (store.take Aes128.codec.size)).bind fun header =>
      (Range.codec.readMany header.rangeCount.get (store.drop Aes128.codec.size)).map (header, ·)

/-- The bytes are decrypted as the record says. -/
theorem decrypt_eq {store : List UInt8} {header : Aes128} {ranges : List Range}
    (hrecord : record store id = some (header, ranges)) (hfits : ∀ r ∈ ranges, r.Fits)
    (hsorted : ranges.Pairwise fun a b => a.extent.stop ≤ b.extent.stop)
    (aes : Vector UInt8 16 → BlockCipher) (ciphertext : Ciphertext)
    (hlen : ciphertext.fileOffset.toNat + ciphertext.body.length < 2 ^ 32) :
    decrypt aes store id ciphertext = .ok ((reached ciphertext.fileOffset.toNat
      (ciphertext.fileOffset.toNat + ciphertext.body.length) ranges).foldl (decryptRange (aes header.key)
        ciphertext.head.toList ciphertext.tail.toList ciphertext.fileOffset.toNat) ciphertext.body) := by
  rw [record] at hrecord
  rw [decrypt]
  dsimp only at hrecord ⊢
  split_ifs at hrecord ⊢ with hindex
  rcases hheader : Aes128.codec.read ((store.drop id.intoIndex).take Aes128.codec.size) with _ | header'
  · rw [hheader] at hrecord
    cases hrecord
  · rw [hheader, Option.bind_some, Option.map_eq_some_iff] at hrecord
    obtain ⟨ranges', hread, heq⟩ := hrecord
    cases heq
    exact Aes128.decrypt_eq hread hfits hsorted ciphertext hlen

/-- **A record is read back**, whatever is appended later. -/
theorem record_of_store (h : storeEncryption entry encryption out = .ok (id, out'))
    (rest : List UInt8) : ∃ rangeCount, record (out' ++ rest) id =
      some (⟨encryption.key, rangeCount⟩, recordRanges encryption) := by
  obtain ⟨-, rangeCount, hcount, hid, rfl⟩ := storeEncryption_eq_ok.1 h
  obtain ⟨-, hindex⟩ := EncryptionId.tryFromIndex_eq_some.1 hid
  obtain ⟨-, hget⟩ := U24.tryFrom_eq_some.1 hcount
  refine ⟨rangeCount, ?_⟩
  have hdrop : (out ++ writeRecord encryption rangeCount ++ rest).drop out.length =
      Aes128.codec.write ⟨encryption.key, rangeCount⟩ ++
        ((recordRanges encryption).flatMap Range.codec.write ++ rest) := by
    rw [List.append_assoc, List.drop_left, writeRecord, List.append_assoc]
  rw [record, hindex, if_neg (by simp)]
  dsimp only
  rw [hdrop, List.take_left' (Aes128.codec.length_write _), List.drop_left' (Aes128.codec.length_write _),
    Aes128.codec.read_write, Option.bind_some, hget, Range.codec.readMany_write]
  rfl

/-! ## Stored ranges -/

theorem fits_recordRanges {size : ℕ} (h : ∀ r ∈ encryption.ranges, r.Accepted size)
    (hsize : size < 2 ^ 32) : ∀ range ∈ recordRanges encryption, range.Fits := by
  intro range hrange
  obtain ⟨r, hr, hne, rfl⟩ := mem_recordRanges.1 hrange
  exact (h r hr).fits hne hsize

/-- The stored ranges are sorted by their ends. -/
theorem pairwise_recordRanges (h : ∀ range ∈ recordRanges encryption, range.Fits) :
    (recordRanges encryption).Pairwise fun a b => a.extent.stop ≤ b.extent.stop := by
  have hsorted : (recordRanges encryption).Pairwise fun a b => decide (a.endOffset ≤ b.endOffset) := by
    refine List.pairwise_mergeSort (fun a b c hab hbc => ?_) (fun a b => ?_) _
    · simp only [decide_eq_true_eq, UInt32.le_iff_toNat_le] at hab hbc ⊢
      omega
    · simp only [Bool.or_eq_true, decide_eq_true_eq, UInt32.le_iff_toNat_le]
      omega
  refine List.Pairwise.imp_of_mem (fun {a b} ha hb hab => ?_) hsorted
  rwa [decide_eq_true_eq, UInt32.le_iff_toNat_le, Range.endOffset_toNat (h a ha),
    Range.endOffset_toNat (h b hb)] at hab

variable (entry encryption out) in
/-- `store_encryption` accepts exactly the ranges that fit the file, and stores
    them as they are. -/
structure AcceptsExactly : Prop where
  ok_iff : (∃ id out', storeEncryption entry encryption out = .ok (id, out')) ↔
    ∀ r ∈ encryption.ranges, r.startOffset ≠ r.endOffset →
      r.FitsFile (FileEntry.fileSize entry).toNat
  stored : ∀ id out', storeEncryption entry encryption out = .ok (id, out') →
    ∃ header ranges, record out' id = some (header, ranges) ∧
      (∀ range ∈ ranges, range.extent.stop ≤ (FileEntry.fileSize entry).toNat) ∧
      (ranges.map Range.extent).Perm ((encryption.ranges.filter fun r =>
        r.startOffset ≠ r.endOffset).map EncryptionRange.extent)

/-- The extents of the ranges of an entry that are not empty. -/
def extents (encryption : Encryption) : List Extent :=
  (encryption.ranges.filter fun r => r.startOffset ≠ r.endOffset).map EncryptionRange.extent

/-- The stored extents are those of the entry, if its ranges fit the file. -/
theorem map_extent_recordRanges {size : ℕ} (hsize : size < 2 ^ 32)
    (h : ∀ r ∈ encryption.ranges, r.startOffset ≠ r.endOffset → r.FitsFile size) :
    ((recordRanges encryption).map Range.extent).Perm (extents encryption) := by
  refine ((List.mergeSort_perm _ _).map _).trans (.of_eq ?_)
  rw [storedRanges, List.map_map]
  refine List.map_congr_left fun r hr => ?_
  rw [List.mem_filter, decide_eq_true_eq] at hr
  exact (h r hr.1 hr.2).extent_stored hsize

theorem exists_store (hcount : (encryption.ranges.filter fun r => r.startOffset ≠ r.endOffset).length <
    2 ^ 24) (hout : out.length < 2 ^ 32 - 1)
    (h : ∀ r ∈ encryption.ranges, r.Accepted (FileEntry.fileSize entry).toNat) :
    ∃ id out', storeEncryption entry encryption out = .ok (id, out') := by
  have hlen : (recordRanges encryption).length < 2 ^ 24 := by
    rw [recordRanges, sortRanges, List.length_mergeSort, storedRanges, List.length_map]
    exact hcount
  have hne : out.length.toUInt32 ^^^ 0xffffffff ≠ 0 := by
    intro h0
    have hself : out.length.toUInt32 ^^^ 0xffffffff ^^^ 0xffffffff = out.length.toUInt32 := by
      rw [UInt32.xor_assoc, UInt32.xor_self, UInt32.xor_zero]
    have hnat : out.length.toUInt32.toNat = 2 ^ 32 - 1 := by
      rw [← hself, h0]
      rfl
    have hlt : out.length < UInt32.size := Nat.lt_of_lt_of_le hout (by decide)
    have : out.length.toUInt32.toNat = out.length := UInt32.toNat_ofNat_of_lt' hlt
    omega
  refine ⟨⟨_, hne⟩, _, storeEncryption_eq_ok.2 ⟨h, ⟨⟨(encode .LE 3 (recordRanges encryption).length).toArray,
    by simp⟩⟩, if_pos hlen, ?_, rfl⟩⟩
  rw [EncryptionId.tryFromIndex, if_pos (by omega), dif_pos hne]

/-- **`store_encryption` accepts exactly the ranges that fit the file** if and
    only if, unless another range is rejected, no range goes from the start of
    the file to past its end. -/
theorem acceptsExactly_iff (hcount : (encryption.ranges.filter fun r =>
    r.startOffset ≠ r.endOffset).length < 2 ^ 24) (hout : out.length < 2 ^ 32 - 1) :
    AcceptsExactly entry encryption out ↔
      ((∀ r ∈ encryption.ranges, r.Accepted (FileEntry.fileSize entry).toNat) →
        ∀ r ∈ encryption.ranges, ¬ r.Slips (FileEntry.fileSize entry).toNat) := by
  have hsize := (FileEntry.fileSize entry).toNat_lt
  constructor
  · intro h hacc r hr hslip
    have hfit := h.ok_iff.1 (exists_store hcount hout hacc) r hr (fun heq => by
      have := hslip.gt
      rw [← heq, hslip.start] at this
      exact absurd this (Nat.not_lt_zero _))
    have := hslip.gt
    exact absurd hfit.le (by omega)
  · intro h
    have hfits : (∀ r ∈ encryption.ranges, r.Accepted (FileEntry.fileSize entry).toNat) →
        ∀ r ∈ encryption.ranges, r.startOffset ≠ r.endOffset →
          r.FitsFile (FileEntry.fileSize entry).toNat := by
      intro hacc r hr hne
      rcases hacc r hr with heq | hfit | hslip
      · exact absurd heq hne
      · exact hfit
      · exact absurd hslip (h hacc r hr)
    refine ⟨⟨?_, fun hfit => exists_store hcount hout fun r hr => ?_⟩, fun id out' hstore => ?_⟩
    · rintro ⟨id, out', hstore⟩
      exact hfits (storeEncryption_eq_ok.1 hstore).1
    · by_cases heq : r.startOffset = r.endOffset
      · exact .inl heq
      · exact .inr (.inl (hfit r hr heq))
    · have hfit := hfits (storeEncryption_eq_ok.1 hstore).1
      obtain ⟨rangeCount, hrecord⟩ := record_of_store hstore []
      rw [List.append_nil] at hrecord
      refine ⟨_, _, hrecord, fun range hrange => ?_, map_extent_recordRanges hsize hfit⟩
      obtain ⟨r, hr, hne, rfl⟩ := mem_recordRanges.1 hrange
      rw [(hfit r hr hne).extent_stored hsize]
      exact (hfit r hr hne).le

/-- A file with one range from its start to past its end. -/
def slippedEncryption : Encryption := ⟨.replicate 16 0, 1, [⟨0, 32⟩]⟩

theorem not_acceptsExactly : ¬ ∀ (entry : FileEntryDs2) (encryption : Encryption) (out : List UInt8),
    (encryption.ranges.filter fun r => r.startOffset ≠ r.endOffset).length < 2 ^ 24 →
      out.length < 2 ^ 32 - 1 → AcceptsExactly entry encryption out := by
  intro h
  let entry : FileEntryDs2 := ⟨7, 16, 0, 0, 1⟩
  have hexact := h entry slippedEncryption [] (by decide) (by decide)
  have hok : ∃ id out', storeEncryption entry slippedEncryption [] = .ok (id, out') := by
    refine exists_store (by decide) (by decide) fun r hr => ?_
    rw [List.mem_singleton.1 hr]
    exact .inr (.inr ⟨rfl, by decide, by decide⟩)
  have hfit := hexact.ok_iff.1 hok ⟨0, 32⟩ List.mem_cons_self (by decide)
  exact absurd hfit.le (by decide)

theorem acceptsExactly_of_fit : AcceptsExactly (⟨7, 48, 0, 0, 1⟩ : FileEntryDs2)
    ⟨.replicate 16 0, 1, [⟨16, 48⟩]⟩ [] := by
  refine (acceptsExactly_iff (by decide) (by decide)).2 fun _ r hr hslip => ?_
  rw [List.mem_singleton.1 hr] at hslip
  exact absurd hslip.start (by decide)

/-! ## Decrypting -/

/-- **Decryption with a stored record succeeds, and leaves alone the bytes that
    are in none of its ranges.** -/
theorem decrypt_untouched (hstore : storeEncryption entry encryption out = .ok (id, out'))
    (aes : Vector UInt8 16 → BlockCipher) (rest : List UInt8) (ciphertext : Ciphertext)
    (hlen : ciphertext.fileOffset.toNat + ciphertext.body.length < 2 ^ 32) :
    ∃ header ranges body, record (out' ++ rest) id = some (header, ranges) ∧
      (∀ range ∈ ranges, range.Fits) ∧ decrypt aes (out' ++ rest) id ciphertext = .ok body ∧
      body.length = ciphertext.body.length ∧
      ∀ i < ciphertext.body.length,
        (∀ range ∈ ranges, ¬ range.extent.Mem (ciphertext.fileOffset.toNat + i)) →
          body[i]? = ciphertext.body[i]? := by
  obtain ⟨rangeCount, hrecord⟩ := record_of_store hstore rest
  have hfits := fits_recordRanges (storeEncryption_eq_ok.1 hstore).1 (FileEntry.fileSize entry).toNat_lt
  have hsorted := pairwise_recordRanges hfits
  refine ⟨_, _, _, hrecord, hfits, decrypt_eq hrecord hfits hsorted aes ciphertext hlen,
    length_foldl_decryptRange (by simp [BLOCK_SIZE]) (by simp [BLOCK_SIZE]) _ _, fun i _ hi => ?_⟩
  refine getElem?_foldl_decryptRange (by simp [BLOCK_SIZE]) (by simp [BLOCK_SIZE]) fun range hrange => ?_
  have hmem := (reached_sublist _ _ _).subset hrange
  exact ⟨lt_of_mem_reached hsorted hrange, fun h => hi range hmem h.1⟩

/-- A file of zeros with one range. -/
def zeroEncryption : Encryption := ⟨.replicate 16 0, 1, [⟨16, 32⟩]⟩

theorem decrypt_untouched_zeros : ∃ id out',
    storeEncryption (⟨7, 48, 0, 0, 1⟩ : FileEntryDs2) zeroEncryption [] = .ok (id, out') ∧
      ∃ header ranges body, record (out' ++ [1]) id = some (header, ranges) ∧
        (∀ range ∈ ranges, range.Fits) ∧
        decrypt (fun _ => zeroCipher) (out' ++ [1]) id
          ⟨.replicate 40 0, .replicate 16 0, .replicate 16 0, 4⟩ = .ok body ∧
        body.length = 40 ∧ ∀ i < 40, (∀ range ∈ ranges, ¬ range.extent.Mem (4 + i)) → body[i]? = some 0 := by
  have hacc : ∀ r ∈ zeroEncryption.ranges, r.Accepted 48 := fun r hr => by
    rw [List.mem_singleton.1 hr]
    exact .inr (.inl ⟨by decide, by decide, by decide⟩)
  obtain ⟨id, out', hstore⟩ := @exists_store FileEntryDs2 _ ⟨7, 48, 0, 0, 1⟩ zeroEncryption []
    (by decide) (by decide) hacc
  obtain ⟨header, ranges, body, hrecord, hfits, hbody, hlen, hi⟩ := decrypt_untouched hstore
    (fun _ => zeroCipher) [1] ⟨.replicate 40 0, .replicate 16 0, .replicate 16 0, 4⟩ (by decide)
  refine ⟨id, out', hstore, header, ranges, body, hrecord, hfits, hbody, hlen, fun i hi40 hmem => ?_⟩
  rw [hi i hi40 hmem]
  exact List.getElem?_replicate_of_lt hi40

end

end Fsvfs.Dvdbnd
