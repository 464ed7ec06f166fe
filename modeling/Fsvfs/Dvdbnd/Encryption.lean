/-
  The encryption store (`src/dvdbnd/filesystem/encryption.rs`): what
  `store_encryption` appends to it.

  A `usize` has 64 bits and the target is little-endian.  `u32`s wrap.
-/
import Fsvfs.Bhd5.Format

namespace Fsvfs.Dvdbnd

open Lib Bhd5

/-- `BLOCK_SIZE`. -/
def BLOCK_SIZE : ℕ := 16

/-- `StoreError`. -/
inductive StoreError where
  | TooManyRanges
  | BadRange (start stop : UInt64)
  | OobRange (start stop fileOffset : UInt64) (fileSize : UInt32)
deriving DecidableEq

/-- `EncryptionId`, a `NonZero<u32>`. -/
structure EncryptionId where
  val : UInt32
  ne_zero : val ≠ 0
deriving DecidableEq

namespace EncryptionId

/-- `EncryptionId::try_from_index`. -/
def tryFromIndex (index : ℕ) : Option EncryptionId :=
  if index < 2 ^ 32 then
    if h : index.toUInt32 ^^^ 0xffffffff ≠ 0 then some ⟨index.toUInt32 ^^^ 0xffffffff, h⟩ else none
  else none

/-- `EncryptionId::into_index`. -/
def intoIndex (id : EncryptionId) : ℕ := (id.val ^^^ 0xffffffff).toNat

end EncryptionId

/-- `U24`. -/
structure U24 where
  bytes : Vector UInt8 3
deriving DecidableEq

namespace U24

/-- `U24::get`. -/
def get (n : U24) : ℕ := decode .LE n.bytes.toList

/-- `U24::try_from`. -/
def tryFrom (n : ℕ) : Option U24 :=
  if n < 2 ^ 24 then some ⟨⟨(encode .LE 3 n).toArray, by simp⟩⟩ else none

def codec : Codec U24 := (Codec.bytes 3).map U24.mk U24.bytes (fun _ => rfl) fun _ => rfl

end U24

/-- `Range`. -/
structure Range where
  startOffset : UInt32
  blockCount : UInt32
deriving DecidableEq

namespace Range

/-- `Range::end_offset`. -/
def endOffset (range : Range) : UInt32 := range.startOffset + range.blockCount * 16

def codec : Codec Range :=
  ((Codec.u32 .LE).seq (Codec.u32 .LE)).map (fun (startOffset, blockCount) => ⟨startOffset, blockCount⟩)
    (fun range => (range.startOffset, range.blockCount)) (fun _ => rfl) fun _ => rfl

end Range

/-- `Aes128`. -/
structure Aes128 where
  key : Vector UInt8 16
  rangeCount : U24
deriving DecidableEq

/-- `Header`, which has one variant; its tag is a byte. -/
def Aes128.codec : Codec Aes128 :=
  ((Codec.const [0]).seq <| (Codec.bytes 16).seq U24.codec).map
    (fun (_, key, rangeCount) => ⟨key, rangeCount⟩) (fun aes => ((), aes.key, aes.rangeCount))
    (fun _ => rfl) fun _ => rfl

/-- The loop over the ranges in `store_encryption`. -/
def storeRanges (fileOffset fileSize : UInt64) : List EncryptionRange → Except StoreError (List Range)
  | [] => .ok []
  | range :: rest =>
    let start := range.startOffset
    let stop := range.endOffset
    let len := stop - start
    if len = 0 then storeRanges fileOffset fileSize rest
    else if start > stop ∨ len % 16 ≠ 0 then .error (.BadRange start stop)
    -- `file_size.saturating_sub(len)`
    else if start.toNat > fileSize.toNat - len.toNat then
      .error (.OobRange start stop fileOffset fileSize.toUInt32)
    else (storeRanges fileOffset fileSize rest).map
      (⟨start.toUInt32, len.toUInt32 / 16⟩ :: ·)

/-- `ranges.sort_by_key(..)`, which is stable. -/
def sortRanges (ranges : List Range) : List Range :=
  ranges.mergeSort fun a b => a.endOffset ≤ b.endOffset

/-- `store_encryption`: the id, and the store afterwards. -/
def storeEncryption {E : Type} [FileEntry E] (entry : E) (encryption : Encryption)
    (out : List UInt8) : Except StoreError (EncryptionId × List UInt8) := do
  let ranges ← storeRanges (FileEntry.fileOffset entry) (FileEntry.fileSize entry).toUInt64
    encryption.ranges
  let ranges := sortRanges ranges
  match U24.tryFrom ranges.length with
  | none => .error .TooManyRanges
  | some rangeCount => match EncryptionId.tryFromIndex out.length with
    | none => .error .TooManyRanges
    | some index =>
      .ok (index, out ++ Aes128.codec.write ⟨encryption.key, rangeCount⟩ ++
        ranges.flatMap Range.codec.write)

end Fsvfs.Dvdbnd
