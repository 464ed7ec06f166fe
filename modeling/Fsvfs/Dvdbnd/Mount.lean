/-
  Mounting a set of archives with a cache (`DvdbndMount::from_keys_and_dict` in
  `src/dvdbnd/mount.rs`, `src/cache.rs`).

  The hash of the `xxhash_rust` crate is a parameter.  `Cache::get` returns the
  value that was last put under the key, or nothing.
-/
import Fsvfs.Bhd5.Format
import Fsvfs.Crypto.Rsa
import Fsvfs.Dvdbnd.Filesystem
import Fsvfs.Lib.Memo

namespace Fsvfs.Dvdbnd

open Lib Bhd5 Crypto

/-- `SrcId::from`. -/
def SrcId.ofU128 (value : BitVec 128) : SrcId :=
  ⟨⟨((encode .BE 16 value.toNat).take 12).toArray, by simp⟩⟩

/-- `Bhd5File::try_ref_from_bytes`: in little-endian, or else in big-endian. -/
def tryRefBhd5File (bytes : List UInt8) : Option File :=
  match tryRefFromBytes .LE bytes with
  | .ok le => some le
  | .error _ => (tryRefFromBytes .BE bytes).toOption

/-- A BHD5 file of `Keys::by_path`, with the bytes that are read from it. -/
structure BhdFile where
  path : BhdPath
  key : Option RsaKey
  bytes : List UInt8

namespace BhdFile
variable (file : BhdFile)

/-- The bytes without their encryption. -/
def decrypted : Option (List UInt8) := match file.key with
  | some key => (key.decryptBlocksInPlace file.bytes).toOption.map fun (bytes, len) => bytes.take len
  | none => some file.bytes

/-- Decrypting and parsing the file. -/
def parse : Option File := file.decrypted.bind tryRefBhd5File

/-- The source id of the file. -/
def srcId (xxh3 : List UInt8 → BitVec 128) : SrcId := .ofU128 (xxh3 file.bytes)

end BhdFile

/-- The arguments of `from_keys_and_dict`, without the cache.  The files have
    distinct paths, which are the keys of a hash map. -/
structure Mount where
  files : List BhdFile
  dict : Option Dictionary
  nodup : (files.map BhdFile.path).Nodup

/-! ## The cache -/

/-- `Cache`: what has been put under `"dvdbnd.rofs"`. -/
abbrev Cache := Memo SrcId DvdbndRofsCached

section
variable (xxh3 : List UInt8 → BitVec 128)

/-- `files.retain`: the cached values, and the files that are left. -/
inductive Retain (cache : Cache) :
    List BhdFile → List (SrcId × DvdbndRofsCached) → List BhdFile → Prop
  | nil : Retain cache [] [] []
  | some {file : BhdFile} {files rest : List BhdFile} {value : DvdbndRofsCached}
      {cached : List (SrcId × DvdbndRofsCached)} (get : cache (file.srcId xxh3) = some value) :
      Retain cache files cached rest →
        Retain cache (file :: files) ((file.srcId xxh3, value) :: cached) rest
  | none {file : BhdFile} {files rest : List BhdFile} {cached : List (SrcId × DvdbndRofsCached)} :
      Retain cache files cached rest → Retain cache (file :: files) cached (file :: rest)

/-- The builder of the cached values and of the files that are left. -/
def builder (dict : Option Dictionary) (cached : List (SrcId × DvdbndRofsCached))
    (files : List BhdFile) : Option DvdbndRofsBuilder :=
  (files.mapM fun file : BhdFile => file.parse.map fun bhd => (file.path, bhd, file.srcId xxh3)).map
    fun bhds => ⟨bhds, dict, cached⟩

/-- The filesystems that are built of the cached values and of the files that
    are left. -/
def Builds (E : Eytzinger) (dict : Option Dictionary) (cached : List (SrcId × DvdbndRofsCached))
    (files : List BhdFile) (fs : DvdbndRofs) : Prop :=
  ∃ b values, builder xxh3 dict cached files = some b ∧ b.Finish E values fs

/-- What `finish` may put in the cache.  It has not put all the values if it
    panics, and a value is not put if the database fails. -/
def Puts (dict : Option Dictionary) (cached : List (SrcId × DvdbndRofsCached))
    (files : List BhdFile) (puts : List (SrcId × DvdbndRofsCached)) : Prop :=
  ∀ e ∈ puts, ∃ b processed processed' bhd, builder xxh3 dict cached files = some b ∧
    b.process = some processed ∧ processed.Perm processed' ∧ bhd ∈ processed' ∧
      b.value processed' bhd = some e

/-- A run of mounts, the last one first, and the cache after them.  A mount may
    fail at any point. -/
inductive Run : List Mount → Cache → Prop
  | nil : Run [] Memo.empty
  | mount {mounts : List Mount} {cache : Cache} {m : Mount}
      {cached puts : List (SrcId × DvdbndRofsCached)} {rest : List BhdFile} :
      Run mounts cache → Retain xxh3 cache m.files cached rest →
        Puts xxh3 m.dict cached rest puts → Run (m :: mounts) (cache.puts puts)

end

/-- The same filesystem: only the order of the encryption stores, which are a
    hash map, may differ. -/
structure DvdbndRofs.Same (fs fs' : DvdbndRofs) : Prop where
  inner : fs.inner = fs'.inner
  encryptionStore : ∀ id, fs.encryptionStore.get id = fs'.encryptionStore.get id

end Fsvfs.Dvdbnd
