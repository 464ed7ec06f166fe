/-
  The salt of an image (`src/dvdbnd/bhd5/format.rs`).

  In a file, the length of the salt is at offset 24 and the salt behind it.
  `SALT_OFFSET` is the offset of the length, but the salt is sliced from there on,
  and bounded as if it started there.

  * `Framed.salt_eq`: what is taken for the salt is the length and all but the last
    four bytes of the salt;
  * `readsSalt_iff`: when the salt that is read is the one in the file.
-/
import Fsvfs.Bhd5.Routing

namespace Fsvfs.Bhd5

open Lib

/-! ## Lists that repeat -/

section
variable {α : Type} {l s : List α}

/-- **A list that is in front of itself after another one repeats that one.** -/
theorem take_append_eq_iff (hl : l ≠ []) : (l ++ s).take s.length = s ↔
    ∀ i < s.length, s[i]? = l[i % l.length]? := by
  have hpos := List.length_pos_iff.2 hl
  have hfront : ∀ i < l.length, (l ++ s)[i]? = l[i % l.length]? := by
    intro i hi
    rw [List.getElem?_append_left hi, Nat.mod_eq_of_lt hi]
  have hback : ∀ i, l.length ≤ i → (l ++ s)[i]? = s[i - l.length]? := fun i hi =>
    List.getElem?_append_right hi
  have hmod : ∀ i, l.length ≤ i → (i - l.length) % l.length = i % l.length := fun i hi =>
    (Nat.mod_eq_sub_mod hi).symm
  constructor
  · intro h i
    induction i using Nat.strong_induction_on with
    | _ i ih =>
      intro hi
      have htake : s[i]? = (l ++ s)[i]? := by
        conv_lhs => rw [← h]
        exact List.getElem?_take_of_lt hi
      rw [htake]
      rcases Nat.lt_or_ge i l.length with hlt | hge
      · exact hfront i hlt
      · rw [hback i hge, ih (i - l.length) (by omega) (by omega), hmod i hge]
  · intro h
    apply List.ext_getElem?
    intro i
    rcases Nat.lt_or_ge i s.length with hi | hi
    · rw [List.getElem?_take_of_lt hi, h i hi]
      rcases Nat.lt_or_ge i l.length with hlt | hge
      · exact hfront i hlt
      · rw [hback i hge, h (i - l.length) (by omega), hmod i hge]
    · have hlen : ((l ++ s).take s.length).length ≤ i := by
        rw [List.length_take, List.length_append]
        omega
      rw [List.getElem?_eq_none hi, List.getElem?_eq_none hlen]

end

/-! ## Framing -/

variable {o : ByteOrder} {bytes salt : List UInt8} {header : Header} {f : File}

/-- The header of a file with a salt: the length of the salt is at offset 24, the
    salt is behind it, and the bucket table at its end or further back. -/
structure Framed (o : ByteOrder) (bytes : List UInt8) (header : Header) (salt : List UInt8) : Prop where
  parsed : tryRefHeader o bytes = .ok header
  framing : At bytes 24 (encode o 4 salt.length ++ salt)
  fits : 28 + salt.length ≤ header.bucketOffset.toNat

/-- The last field of a header that is read. -/
theorem lastField_of_tryRefHeader (h : tryRefHeader o bytes = .ok header) :
    header.bucketOffset2OrSaltLen.toList = (bytes.drop 24).take 8 := by
  have hlen := length_of_tryRefHeader h
  simp only [tryRefHeader, size_header] at h
  rw [if_pos hlen] at h
  rcases hread : (Header.codec o).read (bytes.take 32) with _ | header'
  · rw [hread] at h
    cases h
  · rw [hread] at h
    cases h
    have hwrite := (Header.codec o).write_read _ _ hread
    rw [Header.write_eq] at hwrite
    have hdrop := congrArg (List.drop 24) hwrite
    rwa [List.drop_left' (Header.length_head header), List.drop_take] at hdrop

/-- What stands in the field of the length of the salt. -/
def Header.saltLenField (o : ByteOrder) (header : Header) : ℕ :=
  decode o (header.bucketOffset2OrSaltLen.toList.take 4)

namespace Framed

/-- **The length of the salt is read.** -/
theorem saltLen (h : Framed o bytes header salt) : header.saltLen o = some salt.length :=
  saltLen_of_at (lastField_of_tryRefHeader h.parsed) (at_append.1 h.framing).1 h.fits

end Framed

/-- The salt is what is sliced. -/
theorem salt_of_ds3Ds2Er {saltLen : ℕ} (hle : 24 + saltLen ≤ bytes.length)
    (h : tryRefDs3Ds2Er o bytes header saltLen = .ok f) :
    f.salt = some ((bytes.drop 24).take saltLen) := by
  unfold tryRefDs3Ds2Er at h
  dsimp only at h
  have hsalt : (if Header.SALT_OFFSET + saltLen ≤ bytes.length then
      some ((bytes.drop Header.SALT_OFFSET).take saltLen) else none) = some ((bytes.drop 24).take saltLen) :=
    if_pos hle
  rw [hsalt] at h
  rcases h3 : tryRefBuckets BucketHeaderAll o bytes header .DarkSouls3 with e3 | b3
  · rcases h2 : tryRefBuckets BucketHeaderAll o bytes header .DarkSouls2 with e2 | b2
    · simp only [h3, h2] at h
      obtain ⟨b, -, rfl⟩ := of_map_eq_ok h
      rfl
    · simp only [h3, h2] at h
      cases h
      rfl
  · simp only [h3] at h
    cases h
    rfl

/-- A file is read if it is an image of one of the layouts with a salt. -/
theorem tryRefDs3Ds2Er_iff {saltLen : ℕ} : (∃ f, tryRefDs3Ds2Er o bytes header saltLen = .ok f) ↔
    ∃ b : Buckets, b.IsImage o bytes header := by
  constructor
  · rintro ⟨f, hf⟩
    unfold tryRefDs3Ds2Er at hf
    rcases h3 : tryRefBuckets BucketHeaderAll o bytes header .DarkSouls3 with e3 | ⟨b3, encs⟩
    · rcases h2 : tryRefBuckets BucketHeaderAll o bytes header .DarkSouls2 with e2 | ⟨b2, encs⟩
      · simp only [h3, h2] at hf
        obtain ⟨⟨b, encs⟩, hb, -⟩ := of_map_eq_ok hf
        obtain ⟨l, -, hl⟩ := (tryRefBuckets_iff encrypts_er).1 ⟨encs, hb⟩
        exact ⟨.EldenRing l, hl⟩
      · obtain ⟨l, -, hl⟩ := (tryRefBuckets_iff encrypts_ds2).1 ⟨encs, h2⟩
        exact ⟨.DarkSouls2 l, hl⟩
    · obtain ⟨l, -, hl⟩ := (tryRefBuckets_iff encrypts_ds3).1 ⟨encs, h3⟩
      exact ⟨.DarkSouls3 l, hl⟩
  · rintro ⟨b, hb⟩
    obtain ⟨f, hf, -⟩ := tryRefDs3Ds2Er_of_isImage hb saltLen
    exact ⟨f, hf⟩

namespace Framed

theorem tryRef_eq (h : Framed o bytes header salt) :
    tryRefFromBytes o bytes = tryRefDs3Ds2Er o bytes header salt.length := by
  rw [tryRefFromBytes_of_header h.parsed, h.saltLen]

/-- **What is taken for the salt starts with its length.** -/
theorem salt_eq (h : Framed o bytes header salt) (hf : tryRefFromBytes o bytes = .ok f) :
    f.salt = some ((encode o 4 salt.length ++ salt).take salt.length) := by
  obtain ⟨hle, htake⟩ := h.framing
  rw [List.length_append, length_encode] at hle htake
  rw [h.tryRef_eq] at hf
  rw [salt_of_ds3Ds2Er (by omega) hf, ← htake, List.take_take, Nat.min_eq_left (Nat.le_add_left _ _)]

end Framed

/-- The salt is the four bytes of its length, over and over. -/
def RepeatsLength (o : ByteOrder) (salt : List UInt8) : Prop :=
  ∀ i < salt.length, salt[i]? = (encode o 4 salt.length)[i % 4]?

theorem repeatsLength_iff :
    RepeatsLength o salt ↔ (encode o 4 salt.length ++ salt).take salt.length = salt := by
  have hlen : (encode o 4 salt.length).length = 4 := length_encode _ _ _
  have hne : encode o 4 salt.length ≠ [] := List.ne_nil_of_length_pos (hlen.symm ▸ Nat.succ_pos 3)
  rw [take_append_eq_iff hne, hlen, RepeatsLength]

/-- **The salt of a file is right iff it repeats its length**, unless the file is
    not read. -/
theorem Framed.salt_iff (h : Framed o bytes header salt) :
    (∀ f, tryRefFromBytes o bytes = .ok f → f.salt = some salt) ↔
      RepeatsLength o salt ∨ ¬ ∃ b : Buckets, b.IsImage o bytes header := by
  rw [repeatsLength_iff]
  constructor
  · intro hall
    by_cases himage : ∃ b : Buckets, b.IsImage o bytes header
    · obtain ⟨f, hf⟩ := tryRefDs3Ds2Er_iff.2 himage
      rw [← h.tryRef_eq] at hf
      have hsalt := hall f hf
      rw [h.salt_eq hf] at hsalt
      exact .inl (Option.some.inj hsalt)
    · exact .inr himage
  · rintro (heq | hnone) f hf
    · rw [h.salt_eq hf, heq]
    · rw [h.tryRef_eq] at hf
      exact absurd (tryRefDs3Ds2Er_iff.1 ⟨f, hf⟩) hnone

/-- **When the length and the salt are in front of the bucket table.** -/
theorem saltLen_fits_iff : (∀ n, header.saltLen o = some n → 28 + n ≤ header.bucketOffset.toNat) ↔
    header.bucketOffset = 0 ∨ header.bucketOffset.toNat < 24 + header.saltLenField o ∨
      28 + header.saltLenField o ≤ header.bucketOffset.toNat := by
  have hsome : ∀ n, header.saltLen o = some n ↔ header.bucketOffset ≠ 0 ∧ header.saltLenField o = n ∧
      24 + n ≤ header.bucketOffset.toNat := fun n => saltLen_eq_some
  constructor
  · intro h
    by_cases hzero : header.bucketOffset = 0
    · exact .inl hzero
    · rcases Nat.lt_or_ge header.bucketOffset.toNat (24 + header.saltLenField o) with hlt | hge
      · exact .inr (.inl hlt)
      · exact .inr (.inr (h _ ((hsome _).2 ⟨hzero, rfl, hge⟩)))
  · intro h n hn
    obtain ⟨hne, rfl, hle⟩ := (hsome n).1 hn
    rcases h with hzero | hlt | hge
    · exact absurd hzero hne
    · exact absurd hle (Nat.not_le_of_lt hlt)
    · exact hge

/-- The images with a salt are framed. -/
theorem IsSalted.framed {b : Buckets} (h : IsSalted o bytes header salt b) :
    ∃ v : Vector UInt8 8, Framed o bytes { header with bucketOffset2OrSaltLen := v } salt := by
  have hframing := h.head
  rw [List.append_assoc] at hframing
  obtain ⟨hhead, hsalt⟩ := at_append.1 hframing
  obtain ⟨v, -, hheader⟩ := tryRefHeader_of_head hhead h.length
  rw [Header.length_head] at hsalt
  exact ⟨v, hheader, hsalt, h.fits⟩

/-- What is asked of a header that is read: if the salt is framed, its length and
    its bytes are read; and where a length is read, the salt is in front of the
    bucket table. -/
def ReadsSalt (o : ByteOrder) (bytes : List UInt8) (header : Header) : Prop :=
  (∀ salt, Framed o bytes header salt → header.saltLen o = some salt.length ∧
    ∀ f, tryRefFromBytes o bytes = .ok f → f.salt = some salt) ∧
  ∀ n, header.saltLen o = some n → 28 + n ≤ header.bucketOffset.toNat

/-- **When the salt is read.** -/
theorem readsSalt_iff (o : ByteOrder) (bytes : List UInt8) (header : Header) : ReadsSalt o bytes header ↔
    (∀ salt, Framed o bytes header salt →
      RepeatsLength o salt ∨ ¬ ∃ b : Buckets, b.IsImage o bytes header) ∧
    (header.bucketOffset = 0 ∨ header.bucketOffset.toNat < 24 + header.saltLenField o ∨
      28 + header.saltLenField o ≤ header.bucketOffset.toNat) := by
  refine and_congr (forall_congr' fun salt => ?_) saltLen_fits_iff
  constructor
  · intro h hframed
    exact hframed.salt_iff.1 (h hframed).2
  · intro h hframed
    exact ⟨hframed.saltLen, hframed.salt_iff.2 (h hframed)⟩

/-- An image with a salt of one byte, and its header. -/
def saltedImage : List UInt8 :=
  [0x42, 0x48, 0x44, 0x35, 0xff, 0, 0, 0, 1, 0, 0, 0, 77, 0, 0, 0, 1, 0, 0, 0, 29, 0, 0, 0,
    1, 0, 0, 0, 0x41, 1, 0, 0, 0, 37, 0, 0, 0,
    2, 0, 0, 0, 1, 0, 0, 0, 16, 0, 0, 0, 10, 0, 0, 0, 0, 0, 0, 0, 0, 0, 0, 0,
    0, 0, 0, 0, 0, 0, 0, 0, 0, 0, 0, 0, 0, 0, 0, 0]

def saltedHeader : Header := ⟨false, 77, 1, 29, #v[1, 0, 0, 0, 0x41, 1, 0, 0]⟩

theorem framed_saltedImage : Framed .LE saltedImage saltedHeader [0x41] :=
  ⟨rfl, by decide, by decide⟩

/-- The first byte of the length is taken for the salt; and the bucket table of a
    header may start before the end of its salt. -/
theorem not_readsSalt : ¬ ReadsSalt .LE saltedImage saltedHeader ∧
    ¬ ReadsSalt .LE saltedImage ⟨false, 77, 1, 26, #v[2, 0, 0, 0, 0x41, 1, 0, 0]⟩ := by
  constructor
  · intro h
    have hparse : tryRefFromBytes .LE saltedImage =
        .ok ⟨.DarkSouls3, .DarkSouls3 [⟨37, [⟨2, 1, 0xa00000010, 0, 0, 0⟩]⟩], [none], some [1]⟩ := rfl
    have hsalt := (h.1 _ framed_saltedImage).2 _ hparse
    cases hsalt
  · intro h
    exact absurd (h.2 2 rfl) (by decide)

end Fsvfs.Bhd5
