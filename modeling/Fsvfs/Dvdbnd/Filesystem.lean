/-
  The filesystem of a set of archives (`src/dvdbnd/filesystem.rs`).

  The maps from source ids are lists of entries with distinct keys
  (`SrcIdMap`), which are iterated in any order.  `reduce` of `rayon` may group
  its items in any way and put its identity anywhere (`Reduces`).  An error or
  a panic is that there is no result.
-/
import Fsvfs.Bhd5.Format
import Fsvfs.Dvdbnd.Dict
import Fsvfs.Dvdbnd.Encryption
import Fsvfs.Filesystem.Rofs
import Fsvfs.Lib.Hex

namespace Fsvfs.Dvdbnd

open Lib Bhd5

/-- `SrcId`. -/
structure SrcId where
  bytes : Vector UInt8 12
deriving DecidableEq

/-- `DvdbndFile`. -/
structure DvdbndFile where
  dataOffset : UInt64
  len : UInt32
  unpaddedLen : UInt32
  srcId : SrcId
  encryptionId : Option EncryptionId
deriving DecidableEq

/-- `DvdbndFile::unpadded_len`. -/
def DvdbndFile.getUnpaddedLen (file : DvdbndFile) : UInt32 :=
  if file.unpaddedLen = 0 then file.len else file.unpaddedLen

/-- `BhdPath`: a parent directory, and a file name in UTF-8. -/
structure BhdPath where
  parent : Str
  fileName : Str
deriving DecidableEq

/-- `Path::file_prefix`. -/
def BhdPath.filePrefix (path : BhdPath) : Str :=
  if path.fileName = ['.', '.'] then path.fileName
  else path.fileName.take 1 ++ (path.fileName.drop 1).takeWhile (· ≠ '.')

/-! ## Processing an archive -/

/-- `Hashes`. -/
inductive Hashes where
  | U32 (hashes : HashPaths UInt32)
  | U64 (hashes : HashPaths UInt64)

def Hashes.get : Hashes → UInt64 → Option Str
  | .U32 hashes, hash => hashes.get hash.toUInt32
  | .U64 hashes, hash => hashes.get hash

/-- The hashes of the paths of an archive. -/
def hashesOf (dict : Option Dictionary) (u64Hash : Bool) (name : Str) : Option Hashes :=
  dict.map fun dict => match u64Hash with
    | false => .U32 (dict.hashPaths32 name)
    | true => .U64 (dict.hashPaths64 name)

/-- The path of an entry that is not in the dictionary. -/
def fallbackPath (name : Str) (hash : UInt64) : Str :=
  let hash := hash.toNat
  if hash ≤ 2 ^ 32 - 1 then
    '.' :: name ++ '/' :: padLeft 2 '0' (hex (hash >>> 24)) ++ '/' :: padLeft 8 '0' (hex hash)
  else
    '.' :: name ++ '/' :: padLeft 2 '0' (hex (hash >>> 56)) ++ '/' :: padLeft 16 ' ' (hex hash)

/-- The path of an entry. -/
def entryPath (hashes : Option Hashes) (name : Str) (hash : UInt64) : Str :=
  (hashes.bind fun hashes => hashes.get hash).getD (fallbackPath name hash)

/-- The file of an entry. -/
def entryFile {E : Type} [FileEntry E] (srcId : SrcId) (entry : E)
    (encryptionId : Option EncryptionId) : DvdbndFile where
  dataOffset := FileEntry.fileOffset entry
  srcId := srcId
  len := FileEntry.fileSize entry
  unpaddedLen := (FileEntry.unpaddedFileSize entry).getD 0
  encryptionId := encryptionId

/-- Storing the encryption data of an entry, if it has any. -/
def storeEntry {E : Type} [FileEntry E] (entry : E) (encryption : Option (Ref Encryption))
    (store : List UInt8) : Except StoreError (Option EncryptionId × List UInt8) :=
  match encryption with
  | some encryption =>
    (storeEncryption entry encryption.val store).map fun (id, store) => (some id, store)
  | none => .ok (none, store)

/-- The loop over the entries and their encryption data. -/
def processEntries {E : Type} [FileEntry E] (path : UInt64 → Str) (srcId : SrcId) :
    List (E × Option (Ref Encryption)) → List UInt8 →
      Except StoreError (List (Str × DvdbndFile) × List UInt8)
  | [], store => .ok ([], store)
  | (entry, encryption) :: rest, store => do
    let (encryptionId, store) ← storeEntry entry encryption store
    let (files, store) ← processEntries path srcId rest store
    .ok ((path (FileEntry.pathHash entry), entryFile srcId entry encryptionId) :: files, store)

/-- `DvdbndRofsBuilder::process_files`: the files and the encryption store. -/
def processFiles {E : Type} [FileEntry E] (dict : Option Dictionary) (entries : List (Ref (List E)))
    (name : Str) (srcId : SrcId) (encryption : List (Option (Ref Encryption))) :
    Except StoreError (List (Str × DvdbndFile) × List UInt8) :=
  let hashes := hashesOf dict (FileEntry.u64Hash E) name
  processEntries (entryPath hashes name) srcId ((flatEntries entries).zip encryption) []

/-- `DvdbndRofsBuilder::process_bhd`. -/
def processBhd (dict : Option Dictionary) (bhd : File) (name : Str) (srcId : SrcId) :
    Except StoreError (List (Str × DvdbndFile) × List UInt8) :=
  match bhd.buckets with
  | .DarkSouls e => processFiles dict e name srcId bhd.encryption
  | .DarkSouls2 e => processFiles dict e name srcId bhd.encryption
  | .DarkSouls3 e => processFiles dict e name srcId bhd.encryption
  | .EldenRing e => processFiles dict e name srcId bhd.encryption

/-! ## Maps -/

/-- The entries of a hash map with `SrcId` keys. -/
abbrev SrcIdMap (V : Type) := List (SrcId × V)

namespace SrcIdMap
variable {V : Type}

/-- `HashMap::insert`. -/
def insert : SrcIdMap V → SrcId → V → SrcIdMap V
  | [], id, v => [(id, v)]
  | (id', v') :: rest, id, v => if id' = id then (id, v) :: rest else (id', v') :: insert rest id v

/-- A hash map collected from pairs. -/
def collect (l : List (SrcId × V)) : SrcIdMap V := l.foldl (fun m (id, v) => insert m id v) []

/-- `HashMap::get`. -/
def get (m : SrcIdMap V) (id : SrcId) : Option V := m.lookup id

end SrcIdMap

/-- `reduce` of `rayon`, for an operation that may panic. -/
inductive Reduces {α : Type} (identity : α) (op : α → α → Option α) : List α → α → Prop
  | identity : Reduces identity op [] identity
  | item (a : α) : Reduces identity op [a] a
  | op {l r : List α} {a b c : α} : Reduces identity op l a → Reduces identity op r b →
      op a b = some c → Reduces identity op (l ++ r) c

/-! ## Building -/

abbrev DvdbndObject := RofsObject DvdbndConfig DvdbndFile

/-- `DvdbndRofsCached`. -/
abbrev DvdbndRofsCached := DvdbndObject × List UInt8

/-- `DvdbndRofs`. -/
structure DvdbndRofs where
  inner : Rofs DvdbndConfig DvdbndFile
  encryptionStore : SrcIdMap (List UInt8)

/-- `DvdbndRofsBuilder`; the files of `bhds` come with their paths. -/
structure DvdbndRofsBuilder where
  bhds : List (BhdPath × File × SrcId)
  dict : Option Dictionary
  cached : List (SrcId × DvdbndRofsCached)

/-- `ProcessedBhd`, with its encryption store and its source id. -/
structure ProcessedBhd where
  files : List (Str × DvdbndFile)
  store : List UInt8
  srcId : SrcId
deriving DecidableEq

namespace DvdbndRofsBuilder
variable (builder : DvdbndRofsBuilder)

/-- The archives that are not cached, processed. -/
def process : Option (List ProcessedBhd) :=
  builder.bhds.mapM fun (path, bhd, srcId) =>
    match processBhd builder.dict bhd path.filePrefix srcId with
    | .error _ => none
    | .ok (files, store) => some ⟨files, store, srcId⟩

/-- The encryption stores: those of the cache, extended by those that have been
    processed. -/
def encryptionStore (files : List ProcessedBhd) : SrcIdMap (List UInt8) :=
  .collect ((builder.cached.map fun (srcId, _, store) => (srcId, store)) ++
    files.map fun bhd => (bhd.srcId, bhd.store))

/-- The value of an archive that is put in the cache. -/
def value (files : List ProcessedBhd) (bhd : ProcessedBhd) : Option (SrcId × DvdbndRofsCached) := do
  let obj ← RofsObject.new bhd.files
  let store ← (builder.encryptionStore files).get bhd.srcId
  some (bhd.srcId, obj, store)

/-- The values that are put in the cache. -/
def values (files : List ProcessedBhd) : Option (List (SrcId × DvdbndRofsCached)) :=
  files.mapM (builder.value files)

/-- The objects: those of the cache, extended by those that have been built. -/
def objects (values : List (SrcId × DvdbndRofsCached)) : SrcIdMap DvdbndObject :=
  .collect ((builder.cached ++ values).map fun (srcId, obj, _) => (srcId, obj))

/-- `DvdbndRofsBuilder::finish`: the values it puts in the cache, and the
    filesystem.  The archives are iterated in any order, the one of `files`,
    and so are the objects. -/
inductive Finish (E : Eytzinger) : List (SrcId × DvdbndRofsCached) → DvdbndRofs → Prop
  | finish {processed files : List ProcessedBhd} {values : List (SrcId × DvdbndRofsCached)}
      {objs : List DvdbndObject} {obj : DvdbndObject} {inner : Rofs DvdbndConfig DvdbndFile}
      (process : builder.process = some processed) (files_perm : processed.Perm files)
      (values_eq : builder.values files = some values)
      (objs_perm : ((builder.objects values).map Prod.snd).Perm objs)
      (reduce : Reduces RofsObject.default RofsObject.merge objs obj)
      (into_rofs : obj.IntoRofs E inner) :
      Finish E values ⟨inner, builder.encryptionStore files⟩

end DvdbndRofsBuilder

end Fsvfs.Dvdbnd
