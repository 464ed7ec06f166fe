/-
  Which layout an image is read as.

  The version of a file is not written in it.  `tryRefFromBytes` goes by the
  header to a layout without a salt (`parses_iff`), or tries the layouts with
  one in a fixed order and takes the first of which the file is an image
  (`tryRef_salted`).
-/
import Fsvfs.Bhd5.Image

namespace Fsvfs.Bhd5

open Lib

variable {o : ByteOrder} {bytes : List UInt8} {header : Header}

theorem saltLen_eq_some {n : ℕ} : header.saltLen o = some n ↔
    header.bucketOffset ≠ 0 ∧ decode o (header.bucketOffset2OrSaltLen.toList.take 4) = n ∧
      Header.SALT_OFFSET + n ≤ header.bucketOffset.toNat := by
  have hlt := header.bucketOffset.toNat_lt
  simp only [Header.saltLen, Header.isDsrFormat, decide_eq_true_eq]
  split_ifs with h1 h2 h3
  · simp [h1]
  · constructor
    · intro h
      cases h
    · rintro ⟨-, rfl, hle⟩
      omega
  · constructor
    · intro h
      cases h
      exact ⟨h1, rfl, h3⟩
    · rintro ⟨-, rfl, -⟩
      rfl
  · constructor
    · intro h
      cases h
    · rintro ⟨-, rfl, hle⟩
      exact absurd hle h3

/-- Only the first fields of the header matter for an image. -/
theorem IsImage.congr {B E : Type} [BucketHeader B] [FileEntry E] {header' : Header}
    {l : List (Ref (List E))} (h : IsImage B o bytes header l)
    (hcount : header'.usizeBucketCount = header.usizeBucketCount)
    (hoff : header'.bucketTableOffset o = header.bucketTableOffset o)
    (hvalid : ∀ e : E, FileEntry.isValid e header' = FileEntry.isValid e header) :
    IsImage B o bytes header' l where
  table := by
    rw [hcount, hoff]
    exact h.table
  entries := h.entries
  valid e he := by
    rw [hvalid]
    exact h.valid e he
  offset0 := h.offset0
  encryption := h.encryption

theorem bucketTableOffset_eq (h : header.bucketOffset ≠ 0) (v : Vector UInt8 8) :
    { header with bucketOffset2OrSaltLen := v }.bucketTableOffset o = header.bucketTableOffset o := by
  simp [Header.bucketTableOffset, Header.isDsrFormat, h]

/-! ## Images without a salt -/

/-- An image without a salt, of either layout. -/
inductive IsUnsalted (o : ByteOrder) (bytes : List UInt8) :
    Format → List (Ref (List FileEntryDs)) → Prop
  | DarkSouls {header : Header} {l : List (Ref (List FileEntryDs))}
      (head : At bytes 0 (header.head o)) (offset : header.bucketOffset = 24)
      (image : IsImage BucketHeaderAll o bytes header l) : IsUnsalted o bytes .DarkSouls l
  | DarkSoulsRemastered {header : Header} {l : List (Ref (List FileEntryDs))}
      (head : At bytes 0 ((Header.codec o).write header)) (offset : header.bucketOffset = 0)
      (image : IsImage BucketHeaderDsr o bytes header l) : IsUnsalted o bytes .DarkSoulsRemastered l

/-- The file is read as `format`, with exactly the entries `l`. -/
def Parses (o : ByteOrder) (bytes : List UInt8) (format : Format)
    (l : List (Ref (List FileEntryDs))) : Prop :=
  ∃ f, tryRefFromBytes o bytes = .ok f ∧ f.format = format ∧ f.buckets = .DarkSouls l

theorem format_of_ds3Ds2Er {saltLen : ℕ} {f : File}
    (h : tryRefDs3Ds2Er o bytes header saltLen = .ok f) : f.format ≠ .DarkSouls := by
  unfold tryRefDs3Ds2Er at h
  rcases h3 : tryRefBuckets BucketHeaderAll o bytes header .DarkSouls3 with e3 | ⟨buckets, encryption⟩
  · simp only [h3] at h
    rcases h2 : tryRefBuckets BucketHeaderAll o bytes header .DarkSouls2 with
      e2 | ⟨buckets, encryption⟩
    · simp only [h2] at h
      obtain ⟨⟨buckets, encryption⟩, -, rfl⟩ := of_map_eq_ok h
      simp
    · simp only [h2] at h
      cases h
      simp
  · simp only [h3] at h
    cases h
    simp

/-- The layout of DS1 is parsed on its images. -/
theorem tryRefDs1_of_image {l : List (Ref (List FileEntryDs))}
    (h : IsImage BucketHeaderAll o bytes header l) : ∃ f, tryRefDs1 o bytes header = .ok f ∧
      f.format = .DarkSouls ∧ f.buckets = .DarkSouls l := by
  obtain ⟨encs, hb⟩ := (tryRefBuckets_iff encrypts_ds).2 ⟨l, rfl, h⟩
  exact ⟨⟨.DarkSouls, .DarkSouls l, encs, none⟩, by rw [tryRefDs1, hb]; rfl, rfl, rfl⟩

/-- The layout of DSR is parsed on its images. -/
theorem tryRefDsr_of_image {l : List (Ref (List FileEntryDs))}
    (h : IsImage BucketHeaderDsr o bytes header l) : ∃ f, tryRefDsr o bytes header = .ok f ∧
      f.format = .DarkSoulsRemastered ∧ f.buckets = .DarkSouls l := by
  obtain ⟨encs, hb⟩ := (tryRefBuckets_iff encrypts_ds).2 ⟨l, rfl, h⟩
  exact ⟨⟨.DarkSoulsRemastered, .DarkSouls l, encs, none⟩, by rw [tryRefDsr, hb]; rfl, rfl, rfl⟩

/-- What the parser takes for the length of the salt of a DS1 file is the first
    number of its bucket table, and it takes the table for a salt if that is 0. -/
theorem saltLen_ds1 (hoff : header.bucketOffset = 24) {v : Vector UInt8 8}
    (hv : v.toList = (bytes.drop 24).take 8) :
    { header with bucketOffset2OrSaltLen := v }.saltLen o = none ↔
      decode o ((bytes.drop 24).take 4) ≠ 0 := by
  rw [← not_iff_not, not_ne_iff, ← ne_eq, Option.ne_none_iff_exists']
  simp only [saltLen_eq_some, hoff, hv, List.take_take, Header.SALT_OFFSET]
  constructor
  · rintro ⟨n, -, hn, hle⟩
    have : (24 : UInt32).toNat = 24 := rfl
    rw [show min 4 8 = 4 from rfl] at hn
    omega
  · intro h
    exact ⟨0, by simp, h, Nat.le_refl _⟩

/-- **Where an image without a salt is read as what it is.** -/
theorem parses_iff {format : Format} {l : List (Ref (List FileEntryDs))}
    (h : IsUnsalted o bytes format l) : Parses o bytes format l ↔
      (format = .DarkSouls → 32 ≤ bytes.length ∧ decode o ((bytes.drop 24).take 4) ≠ 0) := by
  cases h with
  | @DarkSouls header _ head offset image =>
    have hne : header.bucketOffset ≠ 0 := by
      rw [offset]
      simp
    constructor
    · rintro ⟨f, hf, hformat, -⟩ -
      obtain ⟨_, hh⟩ := header_of_tryRef hf
      have hlen := length_of_tryRefHeader hh
      obtain ⟨v, hv, hheader⟩ := tryRefHeader_of_head head hlen
      refine ⟨hlen, (saltLen_ds1 offset hv).1 ?_⟩
      rw [tryRefFromBytes_of_header hheader] at hf
      rcases hs : { header with bucketOffset2OrSaltLen := v }.saltLen o with _ | n
      · exact hs
      · simp only [hs] at hf
        exact absurd hformat (format_of_ds3Ds2Er hf)
    · intro hcond
      obtain ⟨hlen, hcount⟩ := hcond rfl
      obtain ⟨v, hv, hheader⟩ := tryRefHeader_of_head head hlen
      have hs := (saltLen_ds1 offset hv).2 hcount
      have hdsr : { header with bucketOffset2OrSaltLen := v }.isDsrFormat = false := by
        simp [Header.isDsrFormat, hne]
      have image' : IsImage BucketHeaderAll o bytes { header with bucketOffset2OrSaltLen := v } _ :=
        image.congr rfl (bucketTableOffset_eq hne v) fun _ => rfl
      obtain ⟨f, hf, hformat, hl⟩ := tryRefDs1_of_image image'
      refine ⟨f, ?_, hformat, hl⟩
      rw [tryRefFromBytes_of_header hheader]
      simp only [hs, hdsr, Bool.false_eq_true, if_false]
      exact hf
  | @DarkSoulsRemastered header _ head offset image =>
    refine iff_of_true ?_ fun h => by cases h
    have hdsr : header.isDsrFormat = true := by simp [Header.isDsrFormat, offset]
    have hheader : tryRefHeader o bytes = .ok header := by
      have hle := head.1
      have htake := head.2
      rw [Codec.length_write] at hle htake
      rw [List.drop_zero] at htake
      simp only [tryRefHeader]
      rw [if_pos (by omega), htake, Codec.read_write]
    have hs : header.saltLen o = none := by simp [Header.saltLen, hdsr]
    obtain ⟨f, hf, hformat, hl⟩ := tryRefDsr_of_image image
    refine ⟨f, ?_, hformat, hl⟩
    rw [tryRefFromBytes_of_header hheader]
    simp only [hs, hdsr, if_true]
    exact hf

/-- An entry of 16 bytes, and the one bucket it is in. -/
def entry7 : Ref (List FileEntryDs) := ⟨32, [⟨7, 16, 0⟩]⟩

/-- A DS1 image with one bucket. -/
def ds1Image : List UInt8 :=
  [0x42, 0x48, 0x44, 0x35, 0xff, 0, 0, 0, 1, 0, 0, 0, 48, 0, 0, 0, 1, 0, 0, 0, 24, 0, 0, 0,
    1, 0, 0, 0, 32, 0, 0, 0, 7, 0, 0, 0, 16, 0, 0, 0, 0, 0, 0, 0, 0, 0, 0, 0]

theorem isUnsalted_ds1Image : IsUnsalted .LE ds1Image .DarkSouls [entry7] := by
  refine @IsUnsalted.DarkSouls _ _ ⟨false, 48, 1, 24, ⟨⟨[1, 0, 0, 0, 32, 0, 0, 0]⟩, rfl⟩⟩ _ (by decide) rfl
    ⟨⟨[⟨1, 32⟩], rfl, by decide, .cons ⟨rfl, rfl⟩ .nil⟩, ?_, ?_, by decide, ?_⟩
  · simp only [List.forall_mem_singleton]
    decide
  · intro e he
    rw [List.mem_singleton.1 he]
    rfl
  · rintro e - offset ⟨⟩

theorem parses_ds1Image : Parses .LE ds1Image .DarkSouls [entry7] :=
  (parses_iff isUnsalted_ds1Image).2 fun _ => by decide

/-- A DS1 image whose first bucket is empty. -/
def emptyBucketImage : List UInt8 :=
  [0x42, 0x48, 0x44, 0x35, 0xff, 0, 0, 0, 1, 0, 0, 0, 56, 0, 0, 0, 2, 0, 0, 0, 24, 0, 0, 0,
    0, 0, 0, 0, 40, 0, 0, 0, 1, 0, 0, 0, 40, 0, 0, 0,
    7, 0, 0, 0, 16, 0, 0, 0, 0, 0, 0, 0, 0, 0, 0, 0]

theorem not_parses : ¬ ∀ (o : ByteOrder) (bytes : List UInt8) (format : Format)
    (l : List (Ref (List FileEntryDs))), IsUnsalted o bytes format l → Parses o bytes format l := by
  intro h
  have himage : IsUnsalted .LE emptyBucketImage .DarkSouls [⟨40, []⟩, ⟨40, [⟨7, 16, 0⟩]⟩] := by
    refine @IsUnsalted.DarkSouls _ _ ⟨false, 56, 2, 24, ⟨⟨[0, 0, 0, 0, 40, 0, 0, 0]⟩, rfl⟩⟩ _ (by decide)
      rfl ⟨⟨[⟨0, 40⟩, ⟨1, 40⟩], rfl, by decide, .cons ⟨rfl, rfl⟩ (.cons ⟨rfl, rfl⟩ .nil)⟩, ?_, ?_,
        by decide, ?_⟩
    · simp only [List.forall_mem_cons]
      decide
    · intro e he
      rw [List.mem_singleton.1 he]
      rfl
    · rintro e - offset ⟨⟩
  obtain ⟨f, hf, -⟩ := h _ _ _ _ himage
  have herr : tryRefFromBytes .LE emptyBucketImage = .error .Bucket := rfl
  rw [herr] at hf
  cases hf

/-! ## Images with a salt -/

namespace Buckets

def format : Buckets → Format
  | .DarkSouls _ => .DarkSouls
  | .DarkSouls2 _ => .DarkSouls2
  | .DarkSouls3 _ => .DarkSouls3
  | .EldenRing _ => .EldenRing

/-- How many layouts are tried before this one. -/
def triedBefore : Buckets → ℕ
  | .DarkSouls3 _ => 0
  | .DarkSouls2 _ => 1
  | .EldenRing _ => 2
  | .DarkSouls _ => 3

/-- Only the last layout has hashes of 64 bits. -/
theorem u64Hash_iff {b : Buckets} {d : Decoded} (hd : d ∈ b.decoded) :
    d.u64Hash = true ↔ b.triedBefore = 2 := by
  rcases b with l | l | l | l <;> obtain ⟨e, -, rfl⟩ := List.mem_map.1 hd <;>
    simp [triedBefore, Decoded.of, FileEntry.u64Hash]

/-- The file is an image of the layout of the buckets, one of those with a
    salt. -/
def IsImage (o : ByteOrder) (bytes : List UInt8) (header : Header) : Buckets → Prop
  | .DarkSouls _ => False
  | .DarkSouls2 l => Bhd5.IsImage BucketHeaderAll o bytes header l
  | .DarkSouls3 l => Bhd5.IsImage BucketHeaderAll o bytes header l
  | .EldenRing l => Bhd5.IsImage BucketHeaderAll o bytes header l

theorem IsImage.unique {b b' : Buckets} (h : b.IsImage o bytes header)
    (h' : b'.IsImage o bytes header) (heq : b.triedBefore = b'.triedBefore) : b = b' := by
  rcases b with l | l | l | l <;> rcases b' with l' | l' | l' | l' <;> simp [triedBefore] at heq
  · exact h.elim
  · exact congrArg _ (Bhd5.IsImage.unique h h')
  · exact congrArg _ (Bhd5.IsImage.unique h h')
  · exact congrArg _ (Bhd5.IsImage.unique h h')

theorem IsImage.triedBefore_le {b : Buckets} (h : b.IsImage o bytes header) : b.triedBefore ≤ 2 := by
  rcases b with l | l | l | l
  · exact h.elim
  all_goals simp [triedBefore]

theorem IsImage.congr {b : Buckets} (h : b.IsImage o bytes header) (hne : header.bucketOffset ≠ 0)
    (v : Vector UInt8 8) : b.IsImage o bytes { header with bucketOffset2OrSaltLen := v } := by
  rcases b with l | l | l | l
  · exact h.elim
  · exact Bhd5.IsImage.congr h rfl (bucketTableOffset_eq hne v) fun _ => rfl
  · exact Bhd5.IsImage.congr h rfl (bucketTableOffset_eq hne v) fun _ => rfl
  · exact Bhd5.IsImage.congr h rfl (bucketTableOffset_eq hne v) fun _ => rfl

theorem isImage_congr {b : Buckets} (hne : header.bucketOffset ≠ 0) (v : Vector UInt8 8) :
    b.IsImage o bytes { header with bucketOffset2OrSaltLen := v } ↔ b.IsImage o bytes header :=
  ⟨fun h => @IsImage.congr _ _ { header with bucketOffset2OrSaltLen := v } _ h hne
    header.bucketOffset2OrSaltLen, fun h => h.congr hne v⟩

end Buckets

theorem not_isImage_of_error {E : Type} [FileEntry E] {f : List (Ref (List E)) → Buckets}
    (hf : Encrypts o bytes f) {err : TryRefFileError}
    (h : tryRefBuckets BucketHeaderAll o bytes header f = .error err) (l : List (Ref (List E))) :
    ¬ IsImage BucketHeaderAll o bytes header l := by
  intro hl
  obtain ⟨encs, hok⟩ := (tryRefBuckets_iff hf).2 ⟨l, rfl, hl⟩
  rw [h] at hok
  cases hok

/-- **The layouts with a salt are tried in order.** -/
theorem tryRefDs3Ds2Er_of_isImage {b : Buckets} (hb : b.IsImage o bytes header) (saltLen : ℕ) :
    ∃ f, tryRefDs3Ds2Er o bytes header saltLen = .ok f ∧ f.format = f.buckets.format ∧
      f.buckets.IsImage o bytes header ∧
      ∀ b' : Buckets, b'.IsImage o bytes header → f.buckets.triedBefore ≤ b'.triedBefore := by
  unfold tryRefDs3Ds2Er
  rcases h3 : tryRefBuckets BucketHeaderAll o bytes header .DarkSouls3 with e3 | ⟨b3, encs⟩
  · have hn3 := not_isImage_of_error encrypts_ds3 h3
    rcases h2 : tryRefBuckets BucketHeaderAll o bytes header .DarkSouls2 with e2 | ⟨b2, encs⟩
    · have hn2 := not_isImage_of_error encrypts_ds2 h2
      have her : ∀ b' : Buckets, b'.IsImage o bytes header → ∃ l, b' = .EldenRing l := by
        rintro (l | l | l | l) hl
        · exact hl.elim
        · exact absurd hl (hn2 l)
        · exact absurd hl (hn3 l)
        · exact ⟨l, rfl⟩
      obtain ⟨l, rfl⟩ := her b hb
      obtain ⟨encs, hok⟩ := (tryRefBuckets_iff encrypts_er).2 ⟨l, rfl, hb⟩
      refine ⟨_, by simp only [hok]; rfl, rfl, hb, fun b' hb' => ?_⟩
      obtain ⟨l', rfl⟩ := her b' hb'
      exact Nat.le_refl _
    · obtain ⟨l, rfl, hl⟩ := (tryRefBuckets_iff encrypts_ds2).1 ⟨encs, h2⟩
      refine ⟨_, rfl, rfl, hl, ?_⟩
      rintro (l' | l' | l' | l') hl'
      · exact hl'.elim
      · exact Nat.le_refl _
      · exact absurd hl' (hn3 l')
      · exact Nat.le_succ 1
  · obtain ⟨l, rfl, hl⟩ := (tryRefBuckets_iff encrypts_ds3).1 ⟨encs, h3⟩
    exact ⟨_, rfl, rfl, hl, fun _ _ => Nat.zero_le _⟩

/-- An image with a salt: the header, the salt with its length in front, and the
    buckets, with at least one entry. -/
structure IsSalted (o : ByteOrder) (bytes : List UInt8) (header : Header) (salt : List UInt8)
    (b : Buckets) : Prop where
  head : At bytes 0 (header.head o ++ encode o 4 salt.length ++ salt)
  fits : 28 + salt.length ≤ header.bucketOffset.toNat
  image : b.IsImage o bytes header
  entries : b.decoded ≠ []

/-- A bucket table with a bucket has 8 bytes. -/
theorem length_of_isImage {E : Type} [FileEntry E] {l : List (Ref (List E))}
    (h : IsImage BucketHeaderAll o bytes header l) (hne : decoded l ≠ []) :
    header.bucketTableOffset o + 8 ≤ bytes.length := by
  obtain ⟨t, -, ⟨hle, -⟩, ht⟩ := h.table
  rw [Codec.length_flatMap_write] at hle
  have hsize : (BucketHeader.codec o : Codec BucketHeaderAll).size = 8 := rfl
  have hpos : 0 < t.length := by
    rw [ht.length_eq, List.length_pos_iff]
    rintro rfl
    exact hne rfl
  rw [hsize] at hle
  omega

/-- The length of the salt is read where it stands. -/
theorem saltLen_of_at {n : ℕ} (hv : header.bucketOffset2OrSaltLen.toList = (bytes.drop 24).take 8)
    (hat : At bytes 24 (encode o 4 n)) (hfits : 28 + n ≤ header.bucketOffset.toNat) :
    header.saltLen o = some n := by
  have hlt := header.bucketOffset.toNat_lt
  have hne : header.bucketOffset ≠ 0 := by
    intro hzero
    rw [hzero] at hfits
    exact absurd hfits (by simp)
  have htake : (bytes.drop 24).take 4 = encode o 4 n := by
    have h := hat.2
    rwa [length_encode] at h
  refine saltLen_eq_some.2 ⟨hne, ?_, ?_⟩
  · rw [hv, List.take_take, Nat.min_eq_left (by omega), htake, decode_encode o (by omega)]
  · rw [Header.SALT_OFFSET]
    omega

theorem IsSalted.length {salt : List UInt8} {b : Buckets} (h : IsSalted o bytes header salt b) :
    32 ≤ bytes.length := by
  have hfits := h.fits
  have hdsr : header.isDsrFormat = false := by
    simp only [Header.isDsrFormat, decide_eq_false_iff_not]
    intro h0
    rw [h0] at hfits
    simp at hfits
  have htable : header.bucketTableOffset o + 8 ≤ bytes.length := by
    rcases b with l | l | l | l
    · exact h.image.elim
    · exact length_of_isImage h.image h.entries
    · exact length_of_isImage h.image h.entries
    · exact length_of_isImage h.image h.entries
  rw [Header.bucketTableOffset, hdsr] at htable
  simp only [Bool.false_eq_true, if_false] at htable
  omega

/-- **What an image with a salt is read as**: the first layout that it is an
    image of, which is the one it was written in unless an earlier one fits. -/
theorem tryRef_salted {salt : List UInt8} {b : Buckets} (h : IsSalted o bytes header salt b) :
    ∃ f, tryRefFromBytes o bytes = .ok f ∧ f.format = f.buckets.format ∧
      f.buckets.IsImage o bytes header ∧
      (∀ b' : Buckets, b'.IsImage o bytes header → f.buckets.triedBefore ≤ b'.triedBefore) ∧
      ((∀ b' : Buckets, b'.IsImage o bytes header → b.triedBefore ≤ b'.triedBefore) → f.buckets = b) ∧
      (f.buckets.decoded = b.decoded ↔ ∀ b' : Buckets, b'.IsImage o bytes header →
        b'.triedBefore < b.triedBefore → b'.decoded = b.decoded) := by
  have hfits := h.fits
  have hne : header.bucketOffset ≠ 0 := by
    intro h0
    rw [h0] at hfits
    simp at hfits
  obtain ⟨hhead, -⟩ := at_append.1 h.head
  obtain ⟨hhead, hsalt⟩ := at_append.1 hhead
  rw [Header.length_head] at hsalt
  obtain ⟨v, hv, hheader⟩ := tryRefHeader_of_head hhead h.length
  have hs : { header with bucketOffset2OrSaltLen := v }.saltLen o = some salt.length :=
    saltLen_of_at hv hsalt hfits
  obtain ⟨f, hf, hformat, himage, hfirst⟩ :=
    tryRefDs3Ds2Er_of_isImage ((Buckets.isImage_congr hne v).2 h.image) salt.length
  rw [Buckets.isImage_congr hne v] at himage
  replace hfirst : ∀ b' : Buckets, b'.IsImage o bytes header →
      f.buckets.triedBefore ≤ b'.triedBefore := fun b' hb' =>
    hfirst b' ((Buckets.isImage_congr hne v).2 hb')
  have hunique : f.buckets.triedBefore = b.triedBefore → f.buckets = b := himage.unique h.image
  refine ⟨f, ?_, hformat, himage, hfirst, fun hb => ?_, fun heq b' hb' hlt' => ?_, fun hall => ?_⟩
  · rw [tryRefFromBytes_of_header hheader]
    simp only [hs]
    exact hf
  · exact hunique (Nat.le_antisymm (hfirst b h.image) (hb _ himage))
  · -- an earlier layout that fits is the one that is read, or the widths of the hashes differ
    rcases Nat.lt_or_eq_of_le (hfirst b' hb') with hlt | heq'
    · obtain ⟨d, hd⟩ := List.exists_mem_of_ne_nil _ h.entries
      have hb2 : b.triedBefore = 2 := by
        have := h.image.triedBefore_le
        omega
      have hf2 := (Buckets.u64Hash_iff (heq ▸ hd)).1 ((Buckets.u64Hash_iff hd).2 hb2)
      omega
    · rw [← himage.unique hb' heq', heq]
  · rcases Nat.lt_or_eq_of_le (hfirst b h.image) with hlt' | heq
    · exact hall _ himage hlt'
    · rw [hunique heq]

/-- An ELDEN RING image: one entry at offset 0 whose hash has more than 32 bits. -/
def erImage : List UInt8 :=
  [0x42, 0x48, 0x44, 0x35, 0xff, 0, 0, 0, 1, 0, 0, 0, 76, 0, 0, 0, 1, 0, 0, 0, 28, 0, 0, 0,
    0, 0, 0, 0, 1, 0, 0, 0, 36, 0, 0, 0,
    2, 0, 0, 0, 1, 0, 0, 0, 16, 0, 0, 0, 10, 0, 0, 0, 0, 0, 0, 0, 0, 0, 0, 0,
    0, 0, 0, 0, 0, 0, 0, 0, 0, 0, 0, 0, 0, 0, 0, 0]

/-- The entry that is written. -/
def erBuckets : Buckets := .EldenRing [⟨36, [⟨0x100000002, 16, 10, 0, 0, 0⟩]⟩]

def erHeader : Header := ⟨false, 76, 1, 28, ⟨⟨[0, 0, 0, 0, 1, 0, 0, 0]⟩, rfl⟩⟩

/-- The entry that is read. -/
def ds3Buckets : Buckets := .DarkSouls3 [⟨36, [⟨2, 1, 0xa00000010, 0, 0, 0⟩]⟩]

/-- The bytes are an image of every layout whose entry stands in the bucket. -/
theorem isImage_erImage {E : Type} [FileEntry E] {e : E}
    (hentry : At erImage 36 ([e].flatMap (FileEntry.codec .LE).write)) (hvalid : FileEntry.isValid e erHeader = true)
    (hplain : FileEntry.encryptionOffset e = none) : IsImage BucketHeaderAll .LE erImage erHeader [⟨36, [e]⟩] where
  table := ⟨[⟨1, 36⟩], rfl, by decide, .cons ⟨rfl, rfl⟩ .nil⟩
  entries := List.forall_mem_singleton.2 hentry
  valid := List.forall_mem_singleton.2 hvalid
  offset0 := List.length_filter_le _ [e]
  encryption := by
    refine List.forall_mem_singleton.2 fun offset hoffset => ?_
    rw [hplain] at hoffset
    cases hoffset

theorem isSalted_erImage : IsSalted .LE erImage erHeader [] erBuckets :=
  ⟨by decide, by decide, isImage_erImage (by decide) rfl rfl, by decide⟩

theorem isSalted_ds3Buckets : IsSalted .LE erImage erHeader [] ds3Buckets :=
  ⟨by decide, by decide, isImage_erImage (by decide) rfl rfl, by decide⟩

/-- The bytes are images of two layouts, of which the first one is read. -/
theorem tryRef_erImage : ∃ f, tryRefFromBytes .LE erImage = .ok f ∧ f.format = .DarkSouls3 ∧ f.buckets = ds3Buckets ∧
    f.buckets.IsImage .LE erImage erHeader ∧
    (∀ b' : Buckets, b'.IsImage .LE erImage erHeader → f.buckets.triedBefore ≤ b'.triedBefore) ∧
    ¬ ∀ b' : Buckets, b'.IsImage .LE erImage erHeader → b'.triedBefore < erBuckets.triedBefore →
      b'.decoded = erBuckets.decoded := by
  obtain ⟨f, hf, hformat, himage, hfirst, -, hiff⟩ := tryRef_salted isSalted_erImage
  obtain ⟨f', hf', -, -, -, hsame, -⟩ := tryRef_salted isSalted_ds3Buckets
  obtain rfl : f' = f := Except.ok.inj (hf'.symm.trans hf)
  have hbuckets := hsame fun _ _ => Nat.zero_le _
  refine ⟨f', hf, by rw [hformat, hbuckets]; rfl, hbuckets, himage, hfirst, fun hall => ?_⟩
  have hdecoded := hiff.2 hall
  rw [hbuckets] at hdecoded
  revert hdecoded
  decide

/-- The same bytes are an image of an earlier layout with another entry. -/
theorem not_tryRef_salted : ¬ ∀ (o : ByteOrder) (bytes : List UInt8) (header : Header)
    (salt : List UInt8) (b : Buckets), IsSalted o bytes header salt b →
      ∃ f, tryRefFromBytes o bytes = .ok f ∧ f.buckets.decoded = b.decoded := by
  intro h
  obtain ⟨f, hf, hdecoded⟩ := h _ _ _ _ _ isSalted_erImage
  have hds3 : tryRefFromBytes .LE erImage =
      .ok ⟨.DarkSouls3, .DarkSouls3 [⟨36, [⟨2, 1, 0xa00000010, 0, 0, 0⟩]⟩], [none], some []⟩ := rfl
  rw [hds3] at hf
  cases hf
  revert hdecoded
  decide

end Fsvfs.Bhd5
