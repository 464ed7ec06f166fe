/-
  The BHD5 archive header (`src/dvdbnd/bhd5/format.rs`).

  A reference into the input is its offset together with what is read there
  (`Ref`).  `usize` has 64 bits, so that every `u32` and `u64` fits in it and
  only negative numbers do not.  Slices are bounds-checked before they are
  read, so `count * size` may be computed in the naturals.

  Fields without information (the magic, the byte order mark, paddings) are
  checked by the codecs and not kept.
-/
import Fsvfs.Lib.Bytes

namespace Fsvfs.Bhd5

open Lib

/-- `Format`. -/
inductive Format where
  | DarkSouls
  | DarkSoulsRemastered
  | DarkSouls2
  | DarkSouls3
  | EldenRing
deriving DecidableEq, Repr

/-- `TryRefFileError`. -/
inductive TryRefFileError where
  | Header
  | Bucket
  | Encryption
deriving DecidableEq, Repr

/-- What stands at an offset of the input. -/
structure Ref (α : Type) where
  offset : ℕ
  val : α
deriving DecidableEq

/-! ## Records -/

/-- `Header`. -/
structure Header where
  hasCrypto : Bool
  fileSize : UInt32
  bucketCount : Int32
  bucketOffset : UInt32
  bucketOffset2OrSaltLen : Vector UInt8 8
deriving DecidableEq

/-- `BucketHeaderAll`. -/
structure BucketHeaderAll where
  entryCount : Int32
  entryOffset : UInt32
deriving DecidableEq

/-- `BucketHeaderDsr`. -/
structure BucketHeaderDsr where
  entryCount : Int32
  entryOffset : UInt64
deriving DecidableEq

/-- `FileEntryDs`. -/
structure FileEntryDs where
  pathHash : UInt32
  fileSize : Int32
  fileOffset : UInt64
deriving DecidableEq

/-- `FileEntryDs2`. -/
structure FileEntryDs2 where
  pathHash : UInt32
  fileSize : Int32
  fileOffset : UInt64
  fileHashOffset : UInt64
  encryptionOffset : UInt64
deriving DecidableEq

/-- `FileEntryDs3`. -/
structure FileEntryDs3 where
  pathHash : UInt32
  fileSize : Int32
  fileOffset : UInt64
  fileHashOffset : UInt64
  encryptionOffset : UInt64
  unpaddedFileSize : Int32
deriving DecidableEq

/-- `FileEntryEr`. -/
structure FileEntryEr where
  pathHash : UInt64
  fileSize : Int32
  unpaddedFileSize : Int32
  fileOffset : UInt64
  fileHashOffset : UInt64
  encryptionOffset : UInt64
deriving DecidableEq

/-- `EncryptionRange`. -/
structure EncryptionRange where
  startOffset : UInt64
  endOffset : UInt64
deriving DecidableEq

/-- `Encryption`. -/
structure Encryption where
  key : Vector UInt8 16
  rangeCount : Int32
  ranges : List EncryptionRange
deriving DecidableEq

open Codec

/-- `Magic`. -/
def magic : Codec Unit := const [0x42, 0x48, 0x44, 0x35]

/-- `Bom`. -/
def bom (o : ByteOrder) : Codec Unit := const (match o with | .LE => [0xff] | .BE => [0])

/-- `OneU32`. -/
def oneU32 (o : ByteOrder) : Codec Unit :=
  const (match o with | .LE => [1, 0, 0, 0] | .BE => [0, 0, 0, 1])

/-- `ZeroU32`. -/
def zeroU32 : Codec Unit := const [0, 0, 0, 0]

def Header.codec (o : ByteOrder) : Codec Header :=
  (magic.seq <| (bom o).seq <| bool.seq <| (const [0]).seq <| (const [0]).seq <| (oneU32 o).seq <|
    (u32 o).seq <| (i32 o).seq <| (u32 o).seq <| bytes 8).map
  (fun (_, _, hasCrypto, _, _, _, fileSize, bucketCount, bucketOffset, rest) =>
    ⟨hasCrypto, fileSize, bucketCount, bucketOffset, rest⟩)
  (fun h => ((), (), h.hasCrypto, (), (), (), h.fileSize, h.bucketCount, h.bucketOffset,
    h.bucketOffset2OrSaltLen))
  (fun _ => rfl) fun _ => rfl

def BucketHeaderAll.codec (o : ByteOrder) : Codec BucketHeaderAll :=
  ((i32 o).seq (u32 o)).map (fun (entryCount, entryOffset) => ⟨entryCount, entryOffset⟩)
    (fun b => (b.entryCount, b.entryOffset)) (fun _ => rfl) fun _ => rfl

def BucketHeaderDsr.codec (o : ByteOrder) : Codec BucketHeaderDsr :=
  ((i32 o).seq <| (oneU32 o).seq <| u64 o).map
    (fun (entryCount, _, entryOffset) => ⟨entryCount, entryOffset⟩)
    (fun b => (b.entryCount, (), b.entryOffset)) (fun _ => rfl) fun _ => rfl

def FileEntryDs.codec (o : ByteOrder) : Codec FileEntryDs :=
  ((u32 o).seq <| (i32 o).seq <| u64 o).map
    (fun (pathHash, fileSize, fileOffset) => ⟨pathHash, fileSize, fileOffset⟩)
    (fun e => (e.pathHash, e.fileSize, e.fileOffset)) (fun _ => rfl) fun _ => rfl

def FileEntryDs2.codec (o : ByteOrder) : Codec FileEntryDs2 :=
  ((u32 o).seq <| (i32 o).seq <| (u64 o).seq <| (u64 o).seq <| u64 o).map
    (fun (pathHash, fileSize, fileOffset, fileHashOffset, encryptionOffset) =>
      ⟨pathHash, fileSize, fileOffset, fileHashOffset, encryptionOffset⟩)
    (fun e => (e.pathHash, e.fileSize, e.fileOffset, e.fileHashOffset, e.encryptionOffset))
    (fun _ => rfl) fun _ => rfl

def FileEntryDs3.codec (o : ByteOrder) : Codec FileEntryDs3 :=
  ((u32 o).seq <| (i32 o).seq <| (u64 o).seq <| (u64 o).seq <| (u64 o).seq <| (i32 o).seq zeroU32).map
    (fun (pathHash, fileSize, fileOffset, fileHashOffset, encryptionOffset, unpaddedFileSize, _) =>
      ⟨pathHash, fileSize, fileOffset, fileHashOffset, encryptionOffset, unpaddedFileSize⟩)
    (fun e => (e.pathHash, e.fileSize, e.fileOffset, e.fileHashOffset, e.encryptionOffset,
      e.unpaddedFileSize, ()))
    (fun _ => rfl) fun _ => rfl

def FileEntryEr.codec (o : ByteOrder) : Codec FileEntryEr :=
  ((u64 o).seq <| (i32 o).seq <| (i32 o).seq <| (u64 o).seq <| (u64 o).seq <| u64 o).map
    (fun (pathHash, fileSize, unpaddedFileSize, fileOffset, fileHashOffset, encryptionOffset) =>
      ⟨pathHash, fileSize, unpaddedFileSize, fileOffset, fileHashOffset, encryptionOffset⟩)
    (fun e => (e.pathHash, e.fileSize, e.unpaddedFileSize, e.fileOffset, e.fileHashOffset,
      e.encryptionOffset))
    (fun _ => rfl) fun _ => rfl

def EncryptionRange.codec (o : ByteOrder) : Codec EncryptionRange :=
  ((u64 o).seq (u64 o)).map (fun (startOffset, endOffset) => ⟨startOffset, endOffset⟩)
    (fun r => (r.startOffset, r.endOffset)) (fun _ => rfl) fun _ => rfl

/-- The fields of `Encryption` before its ranges. -/
def Encryption.headCodec (o : ByteOrder) : Codec (Vector UInt8 16 × Int32) := (bytes 16).seq (i32 o)

/-! ## `Header` -/

/-- `usize::try_from` of an `i32`. -/
def usizeOfI32 (n : Int32) : Option ℕ := if n < 0 then none else some n.toInt.toNat

namespace Header

/-- `SALT_OFFSET`: the offset of `bucket_offset` plus 4. -/
def SALT_OFFSET : ℕ := 20 + 4

def isDsrFormat (h : Header) : Bool := h.bucketOffset = 0

/-- `Header::bucket_count`. -/
def usizeBucketCount (h : Header) : ℕ := (usizeOfI32 h.bucketCount).getD 0

/-- `Header::bucket_offset`. -/
def bucketTableOffset (o : ByteOrder) (h : Header) : ℕ :=
  if h.isDsrFormat then decode o h.bucketOffset2OrSaltLen.toList else h.bucketOffset.toNat

/-- `Header::salt_len`. -/
def saltLen (o : ByteOrder) (h : Header) : Option ℕ :=
  if h.isDsrFormat then none
  else
    let saltLen := decode o (h.bucketOffset2OrSaltLen.toList.take 4)
    -- `checked_add` returns early
    if 2 ^ 32 ≤ SALT_OFFSET + saltLen then none
    else if SALT_OFFSET + saltLen ≤ h.bucketOffset.toNat then some saltLen else none

end Header

/-! ## Traits -/

/-- `BucketHeader`. -/
class BucketHeader (B : Type) where
  codec : ByteOrder → Codec B
  entryCount : B → Option ℕ
  entryOffset : B → ℕ

instance : BucketHeader BucketHeaderAll where
  codec := BucketHeaderAll.codec
  entryCount b := usizeOfI32 b.entryCount
  entryOffset b := b.entryOffset.toNat

instance : BucketHeader BucketHeaderDsr where
  codec := BucketHeaderDsr.codec
  entryCount b := usizeOfI32 b.entryCount
  entryOffset b := b.entryOffset.toNat

/-- `FileEntry`; a `NonZero` is an option. -/
class FileEntry (E : Type) where
  codec : ByteOrder → Codec E
  u64Hash : Bool := false
  pathHash : E → UInt64
  fileOffset : E → UInt64
  fileSize : E → UInt32
  unpaddedFileSize : E → Option UInt32 := fun _ => none
  encryptionOffset : E → Option UInt64 := fun _ => none
  isValid : E → Header → Bool

/-- `self.max(0) as u32`. -/
def u32OfMax0 (n : Int32) : UInt32 := if n < 0 then 0 else n.toUInt32

/-- `NonZero::new`. -/
def nonZero32 (n : UInt32) : Option UInt32 := if n = 0 then none else some n

/-- `NonZero::new`. -/
def nonZero64 (n : UInt64) : Option UInt64 := if n = 0 then none else some n

/-- What `is_valid` requires of the offsets of hashes and encryption data. -/
def validCrypto (encryptionOffset fileHashOffset : UInt64) (header : Header) : Bool :=
  if header.hasCrypto then
    let headerSize := header.fileSize.toUInt64
    encryptionOffset < headerSize && fileHashOffset < headerSize
  else
    encryptionOffset = 0 && fileHashOffset = 0

/-- What `is_valid` requires of the sizes of a format with unpadded sizes. -/
def validSizes (fileSize unpaddedFileSize : Int32) : Bool :=
  ¬ (fileSize < 0 ∨ unpaddedFileSize < 0 ∨ fileSize < unpaddedFileSize)

instance : FileEntry FileEntryDs where
  codec := FileEntryDs.codec
  pathHash e := e.pathHash.toUInt64
  fileOffset e := e.fileOffset
  fileSize e := u32OfMax0 e.fileSize
  isValid e _ := 0 ≤ e.fileSize

instance : FileEntry FileEntryDs2 where
  codec := FileEntryDs2.codec
  pathHash e := e.pathHash.toUInt64
  fileOffset e := e.fileOffset
  fileSize e := u32OfMax0 e.fileSize
  encryptionOffset e := nonZero64 e.encryptionOffset
  isValid e header :=
    if e.fileSize < 0 then false else validCrypto e.encryptionOffset e.fileHashOffset header

instance : FileEntry FileEntryDs3 where
  codec := FileEntryDs3.codec
  pathHash e := e.pathHash.toUInt64
  fileOffset e := e.fileOffset
  fileSize e := u32OfMax0 e.fileSize
  unpaddedFileSize e := nonZero32 (u32OfMax0 e.unpaddedFileSize)
  encryptionOffset e := nonZero64 e.encryptionOffset
  isValid e header :=
    validSizes e.fileSize e.unpaddedFileSize &&
      validCrypto e.encryptionOffset e.fileHashOffset header

instance : FileEntry FileEntryEr where
  codec := FileEntryEr.codec
  u64Hash := true
  pathHash e := e.pathHash
  fileOffset e := e.fileOffset
  fileSize e := u32OfMax0 e.fileSize
  unpaddedFileSize e := nonZero32 (u32OfMax0 e.unpaddedFileSize)
  encryptionOffset e := nonZero64 e.encryptionOffset
  isValid e header :=
    validSizes e.fileSize e.unpaddedFileSize &&
      validCrypto e.encryptionOffset e.fileHashOffset header

/-! ## `File` -/

/-- `Buckets`. -/
inductive Buckets where
  | DarkSouls (buckets : List (Ref (List FileEntryDs)))
  | DarkSouls2 (buckets : List (Ref (List FileEntryDs2)))
  | DarkSouls3 (buckets : List (Ref (List FileEntryDs3)))
  | EldenRing (buckets : List (Ref (List FileEntryEr)))
deriving DecidableEq

/-- `File`. -/
structure File where
  format : Format
  buckets : Buckets
  encryption : List (Option (Ref Encryption))
  salt : Option (List UInt8)
deriving DecidableEq

/-- `try_ref_slice_helper`. -/
def tryRefSliceHelper {R : Type} (c : Codec R) (bytes : List UInt8) (count : Option ℕ) (offset : ℕ) :
    Option (Ref (List R)) :=
  match count with
  | none => none
  | some count =>
    if offset ≤ bytes.length then
      let rest := bytes.drop offset
      if count * c.size ≤ rest.length then (c.readMany count rest).map (⟨offset, ·⟩) else none
    else none

/-- `FileEntryValidator::is_valid`: the validator afterwards, and whether the
    entry is valid. -/
def validatorIsValid {E : Type} [FileEntry E] (hasOffset0 : Bool) (entry : E) (header : Header) :
    Bool × Bool :=
  let isOffset0 : Bool := FileEntry.fileOffset entry = 0
  (hasOffset0 || isOffset0,
    if isOffset0 && hasOffset0 then false else FileEntry.isValid entry header)

/-- `entries.iter().all(..)`: the validator afterwards, if all are valid. -/
def validateEntries {E : Type} [FileEntry E] (header : Header) : Bool → List E → Option Bool
  | hasOffset0, [] => some hasOffset0
  | hasOffset0, entry :: entries =>
    let (hasOffset0, valid) := validatorIsValid hasOffset0 entry header
    if valid then validateEntries header hasOffset0 entries else none

/-- The iterator over the bucket headers in `try_ref_buckets`. -/
def refBuckets {B E : Type} [BucketHeader B] [FileEntry E] (o : ByteOrder) (bytes : List UInt8)
    (header : Header) : Bool → List B → Option (List (Ref (List E)))
  | _, [] => some []
  | hasOffset0, bucket :: rest => do
    let entries ← tryRefSliceHelper (FileEntry.codec o) bytes (BucketHeader.entryCount bucket)
      (BucketHeader.entryOffset bucket)
    let hasOffset0 ← validateEntries header hasOffset0 entries.val
    let buckets ← refBuckets o bytes header hasOffset0 rest
    some (entries :: buckets)

/-- The encryption data of one entry in `try_ref_encryption`. -/
def refEncryption {E : Type} [FileEntry E] (o : ByteOrder) (bytes : List UInt8) (entry : E) :
    Except TryRefFileError (Option (Ref Encryption)) :=
  match FileEntry.encryptionOffset entry with
  | none => .ok none
  | some encryptionOffset =>
    let offset := encryptionOffset.toNat
    let head := Encryption.headCodec o
    let range := EncryptionRange.codec o
    if offset ≤ bytes.length then
      let rest := bytes.drop offset
      if head.size ≤ rest.length then
        match head.read (rest.take head.size) with
        | none => .error .Encryption
        | some (key, rangeCount) => match usizeOfI32 rangeCount with
          | none => .error .Encryption
          | some nRanges =>
            if head.size + nRanges * range.size ≤ rest.length then
              match range.readMany nRanges (rest.drop head.size) with
              | none => .error .Encryption
              | some ranges => .ok (some ⟨offset, key, rangeCount, ranges⟩)
            else .error .Encryption
      else .error .Encryption
    else .error .Encryption

/-- `collect` of the encryption data. -/
def refEncryptions {E : Type} [FileEntry E] (o : ByteOrder) (bytes : List UInt8) :
    List E → Except TryRefFileError (List (Option (Ref Encryption)))
  | [] => .ok []
  | entry :: entries => do
    let encryption ← refEncryption o bytes entry
    let rest ← refEncryptions o bytes entries
    .ok (encryption :: rest)

/-- The entries of all buckets. -/
def flatEntries {E : Type} (buckets : List (Ref (List E))) : List E := buckets.flatMap Ref.val

/-- `File::try_ref_encryption`. -/
def tryRefEncryption (o : ByteOrder) (bytes : List UInt8) :
    Buckets → Except TryRefFileError (List (Option (Ref Encryption)))
  | .DarkSouls buckets => .ok (List.replicate (buckets.map fun b => b.val.length).sum none)
  | .DarkSouls2 buckets => refEncryptions o bytes (flatEntries buckets)
  | .DarkSouls3 buckets => refEncryptions o bytes (flatEntries buckets)
  | .EldenRing buckets => refEncryptions o bytes (flatEntries buckets)

/-- `File::try_ref_buckets`. -/
def tryRefBuckets (B : Type) {E : Type} [BucketHeader B] [FileEntry E] (o : ByteOrder)
    (bytes : List UInt8) (header : Header) (f : List (Ref (List E)) → Buckets) :
    Except TryRefFileError (Buckets × List (Option (Ref Encryption))) :=
  match tryRefSliceHelper (BucketHeader.codec o : Codec B) bytes (some header.usizeBucketCount)
    (header.bucketTableOffset o) with
  | none => .error .Bucket
  | some bucketHeader => match refBuckets o bytes header false bucketHeader.val with
    | none => .error .Bucket
    | some buckets => (tryRefEncryption o bytes (f buckets)).map fun encryption =>
      (f buckets, encryption)

/-- `File::try_ref_header`. -/
def tryRefHeader (o : ByteOrder) (bytes : List UInt8) : Except TryRefFileError Header :=
  let c := Header.codec o
  if c.size ≤ bytes.length then match c.read (bytes.take c.size) with
    | none => .error .Header
    | some header => .ok header
  else .error .Header

/-- `File::try_ref_ds1`. -/
def tryRefDs1 (o : ByteOrder) (bytes : List UInt8) (header : Header) : Except TryRefFileError File :=
  (tryRefBuckets BucketHeaderAll o bytes header .DarkSouls).map fun (buckets, encryption) =>
    ⟨.DarkSouls, buckets, encryption, none⟩

/-- `File::try_ref_dsr`. -/
def tryRefDsr (o : ByteOrder) (bytes : List UInt8) (header : Header) : Except TryRefFileError File :=
  (tryRefBuckets BucketHeaderDsr o bytes header .DarkSouls).map fun (buckets, encryption) =>
    ⟨.DarkSoulsRemastered, buckets, encryption, none⟩

/-- `File::try_ref_ds3_ds2_er`. -/
def tryRefDs3Ds2Er (o : ByteOrder) (bytes : List UInt8) (header : Header) (saltLen : ℕ) :
    Except TryRefFileError File :=
  let saltStart := Header.SALT_OFFSET
  let salt := if saltStart + saltLen ≤ bytes.length then
    some ((bytes.drop saltStart).take saltLen) else none
  match tryRefBuckets BucketHeaderAll o bytes header .DarkSouls3 with
  | .ok (buckets, encryption) => .ok ⟨.DarkSouls3, buckets, encryption, salt⟩
  | .error _ => match tryRefBuckets BucketHeaderAll o bytes header .DarkSouls2 with
    | .ok (buckets, encryption) => .ok ⟨.DarkSouls2, buckets, encryption, salt⟩
    | .error _ => (tryRefBuckets BucketHeaderAll o bytes header .EldenRing).map
        fun (buckets, encryption) => ⟨.EldenRing, buckets, encryption, salt⟩

/-- `File::try_ref_from_bytes`. -/
def tryRefFromBytes (o : ByteOrder) (bytes : List UInt8) : Except TryRefFileError File := do
  let header ← tryRefHeader o bytes
  match header.saltLen o with
  | some saltLen => tryRefDs3Ds2Er o bytes header saltLen
  | none => if header.isDsrFormat then tryRefDsr o bytes header else tryRefDs1 o bytes header

end Fsvfs.Bhd5
