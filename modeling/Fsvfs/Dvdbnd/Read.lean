/-
  Reading a file of a mount (`DvdbndMount::read_file` in `src/dvdbnd/mount.rs`).

  The run of `read_file` leaves a trace of the calls of `EncryptionStore::decrypt`
  and of the callback, which returns.  Opening a BDT and reading from it, and the
  block cipher, are parameters.
-/
import Fsvfs.Dvdbnd.CiphertextBuffer
import Fsvfs.Dvdbnd.Filesystem
import Fsvfs.Lib.Traced

namespace Fsvfs.Dvdbnd

open Lib Lib.Checked Traced

/-- What `read_file` does. -/
inductive Event where
  | decrypt (ciphertext : Ciphertext)
  | callback (buffer : List UInt8) (fileOffset : ℕ)
deriving DecidableEq

/-- `DynAlignedBuf::truncate`. -/
def AlignedBuffer.truncate (buf : AlignedBuffer) (newLen : ℕ) : AlignedBuffer :=
  { buf with bytes := buf.bytes.take newLen }

/-- The closure of `read_file`, for the end of the request. -/
def clip (stop : ℕ) (buf : AlignedBuffer) : Traced Event Unit :=
  match u32TryFrom buf.offset with
  | none => pure ()
  | some fileOffset => do
    let bufferEnd ← lift (add 32 fileOffset.toNat (buf.bytes.length % 2 ^ 32))
    let buffer ← lift (slice buf.bytes 0 (min bufferEnd stop - fileOffset.toNat))
    if buffer = [] then pure () else emit [.callback buffer fileOffset.toNat]

/-- The loop over the stream of a plain file. -/
def readPlain (f : AlignedBuffer → Traced Event Unit) : BufferStream → Traced Event Unit
  | [] => pure ()
  | item :: stream => do
    f (← lift item)
    readPlain f stream

section
variable (start stop : ℕ) (decrypt : Ciphertext → Checked (List UInt8))
  (f : AlignedBuffer → Traced Event Unit)

/-- The loop of `read_and_decrypt_file`, from the call of `curr` on. -/
def decryptCurr (cbuf : CiphertextBuffer) : Traced Event CiphertextBuffer := do
  let buffer ← lift cbuf.curr
  if buffer.offset < start ∨ buffer.offset ≥ stop then pure cbuf
  else do
    let bufferLen := buffer.bytes.length % 2 ^ 32
    let bufferEnd ← lift (add 32 (buffer.offset.toNat % 2 ^ 32) bufferLen)
    let cbuf := if stop ≤ bufferEnd then
      cbuf.setCurr (buffer.truncate (bufferLen - (bufferEnd - stop) + BLOCK_SIZE - 1)) else cbuf
    let ciphertext ← lift (Ciphertext.fromBuffer cbuf)
    emit [.decrypt ciphertext]
    let body ← lift (decrypt ciphertext)
    let cbuf := cbuf.setCurr ⟨body, buffer.offset⟩
    f (← lift cbuf.curr)
    pure cbuf

/-- The loop of `read_and_decrypt_file`. -/
def decryptLoop : BufferStream → CiphertextBuffer → Traced Event Unit
  | [], cbuf => do
    let _ ← decryptCurr start stop decrypt f cbuf.finish
    pure ()
  | item :: stream, cbuf => do
    let buf ← lift item
    if cbuf.isEmpty then decryptLoop stream (cbuf.push buf)
    else do
      let cbuf ← decryptCurr start stop decrypt f (cbuf.push buf)
      decryptLoop stream cbuf

end

/-- `DvdbndMount`, on a platform; `bdts` is `BdtTls::open`. -/
structure DvdbndMount where
  platform : Platform
  fs : DvdbndRofs
  bdts : SrcId → Checked ReadManagedAt
  aes : Vector UInt8 16 → BlockCipher

namespace DvdbndMount
variable (mount : DvdbndMount)

def readAndDecryptFile (file : DvdbndFile) (bdt : ReadManagedAt) (dataStart len : ℕ)
    (encryptionId : EncryptionId) (f : AlignedBuffer → Traced Event Unit) : Traced Event Unit := do
  let start := (← lift (sub dataStart file.dataOffset.toNat)) % 2 ^ 32
  let stop ← lift (add 32 start len)
  let encryptionStore ← lift (expect (mount.fs.encryptionStore.get file.srcId))
  let stream ← lift (streamReadWindows mount.platform bdt dataStart len file.dataOffset.toNat
    file.len.toNat)
  decryptLoop start stop (decrypt mount.aes encryptionStore encryptionId) f stream .default

def readFile (inode : UInt64) (fileOffset : UInt64) (len : UInt32) : Traced Event Unit :=
  match mount.fs.inner.entry inode with
  | .error _ => lift (.error .error)
  | .ok entry => match entry.kind with
    | .dir .. => lift (.error .error)
    | .file none => lift (.error .panic)
    | .file (some file) => do
      let fileLen := file.getUnpaddedLen.toNat
      let fileOffset := min fileOffset.toNat fileLen
      let len := min len.toNat (fileLen - fileOffset)
      let dataStart ← lift (add 64 file.dataOffset.toNat fileOffset)
      let stop ← lift (add 32 fileOffset len)
      let bdt ← lift (mount.bdts file.srcId)
      match file.encryptionId with
      | some encryptionId => mount.readAndDecryptFile file bdt dataStart len encryptionId (clip stop)
      | none => do
        let stream ← lift (streamRead bdt dataStart len file.dataOffset.toNat file.len.toNat)
        readPlain (clip stop) stream

end DvdbndMount

end Fsvfs.Dvdbnd
