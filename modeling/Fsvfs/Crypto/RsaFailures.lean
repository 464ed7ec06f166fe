/-
  A decryptor whose source may fail (`RsaDecryptor` in `src/crypto/rsa.rs`).

  `Failing.read` and `Failing.readToEnd` are the operations with what they leave,
  also when they return an error: the caller's buffer or vector, and the decryptor.

  * `read_eq`, `readToEnd_eq`: without that, they are `read` and `readToEnd`;
  * `iterated`: what an iteration of the loop of `read` can do;
  * `readLoop_isSome`: the loop comes to an end.
-/
import Fsvfs.Crypto.RsaDecryptor
import Fsvfs.Lib.Source

namespace Fsvfs.Crypto.RsaDecryptor.Failing

open Lib

variable {R : Type} [IoSource IoError R]

/-! ## Operations -/

/-- An iteration of the loop of `read`: the bytes that are written to what is left
    of the buffer, of some length. -/
def iterate (dec : RsaDecryptor R) (len : ℕ) : Except IoError (List UInt8) × RsaDecryptor R :=
  let out := dec.out.fillBuf
  if out ≠ [] then
    let amt := min len out.length
    (.ok (out.take amt), { dec with out := dec.out.consume amt })
  else match dec.reader.fill with
    | (.error e, reader) => (.error e, { dec with reader := reader })
    | (.ok block, reader) =>
      if dec.key.outBlockLen ≤ len then match dec.key.decryptBlockIn block dec.key.outBlockLen with
        | .error e => (.error (.InvalidInput e), { dec with reader := reader })
        | .ok out => (.ok out, { dec with reader := reader.consume dec.key.inBlockLen })
      -- the position is set first
      else match dec.key.decryptBlockIn block dec.out.inner.length with
        | .error e => (.error (.InvalidInput e), { dec with out := ⟨dec.out.inner, 0⟩, reader := reader })
        | .ok out => (.ok [], { dec with out := ⟨out, 0⟩, reader := reader.consume dec.key.inBlockLen })

/-- The loop of `read`: what has been written to the buffer, also before an error. -/
def readLoop : ℕ → RsaDecryptor R → ℕ → List UInt8 → ℕ →
    Option (List UInt8 × Except IoError ℕ × RsaDecryptor R)
  | 0, _, _, _, _ => none
  | fuel + 1, dec, len, buf, read =>
    if len = 0 then some (buf, .ok read, dec)
    else match iterate dec len with
      | (.error e, dec) => some (buf, .error e, dec)
      | (.ok bytes, dec) => readLoop fuel dec (len - bytes.length) (buf ++ bytes) (read + bytes.length)

/-- `read`. -/
def read (fuel : ℕ) (dec : RsaDecryptor R) (len : ℕ) :
    Option (List UInt8 × Except IoError ℕ × RsaDecryptor R) := readLoop fuel dec len [] 0

/-- The loop of `decrypt_blocks_in_place`: blocks stay decrypted if a later one
    cannot be. -/
def decryptBlocks (key : RsaKey) : ℕ → ℕ → List UInt8 → List UInt8 × Except DecryptError Unit
  | 0, _, blocks => (blocks, .ok ())
  | k + 1, i, blocks =>
    let c := naturalFromBytesBe ((blocks.drop (i * key.inBlockLen)).take key.inBlockLen)
    if c ≥ key.n then (blocks, .error .Base)
    else
      let m := c ^ key.e % key.n
      decryptBlocks key k (i + 1) (blocks.take (i * key.outBlockLen) ++
        naturalToBytesBe m key.outBlockLen ++ blocks.drop ((i + 1) * key.outBlockLen))

/-- `decrypt_blocks_in_place`: the buffer afterwards, also after an error. -/
def decryptBlocksInPlace (key : RsaKey) (blocks : List UInt8) : List UInt8 × Except DecryptError ℕ :=
  if blocks.length % key.inBlockLen ≠ 0 then (blocks, .error (.Size key.inBlockLen))
  else
    let count := blocks.length / key.inBlockLen
    match decryptBlocks key count 0 blocks with
    | (blocks, result) => (blocks, result.map fun _ => count * key.outBlockLen)

/-- `read_to_end`: the vector afterwards.  It is only truncated if all has been
    decrypted, so that an error leaves ciphertext in it. -/
def readToEnd (dec : RsaDecryptor R) (buf : List UInt8) :
    List UInt8 × Except IoError ℕ × RsaDecryptor R :=
  let (bytes, out) := dec.out.readToEnd
  let read := bytes.length
  let buf := buf ++ bytes
  let startAt := buf.length
  match dec.reader.drain with
  | (bytes, .error e, reader) => (buf ++ bytes, .error e, { dec with out := out, reader := reader })
  | (bytes, .ok (), reader) =>
    let buf := buf ++ bytes
    match decryptBlocksInPlace dec.key (buf.drop startAt) with
    | (blocks, .error e) =>
      (buf.take startAt ++ blocks, .error (.InvalidInput e), { dec with out := out, reader := reader })
    | (blocks, .ok inPlaceLen) =>
      ((buf.take startAt ++ blocks).take (startAt + inPlaceLen), .ok (read + inPlaceLen),
        { dec with out := out, reader := reader })

/-! ## Without what is left by an error -/

/-- A result without the buffer and the decryptor that are left by an error. -/
def forget (result : List UInt8 × Except IoError ℕ × RsaDecryptor R) :
    Except IoError (List UInt8 × ℕ × RsaDecryptor R) :=
  result.2.1.map fun n => (result.1, n, result.2.2)

theorem decryptBlocks_eq (key : RsaKey) (k i : ℕ) (blocks : List UInt8) :
    key.decryptBlocks k i blocks = (decryptBlocks key k i blocks).2.map fun _ => (decryptBlocks key k i blocks).1 := by
  induction k generalizing i blocks with
  | zero => rfl
  | succ k ih =>
    rw [decryptBlocks, RsaKey.decryptBlocks]
    dsimp only
    split_ifs with hbase
    · rfl
    · exact ih _ _

/-- `RsaKey.decryptBlocksInPlace` is without the buffer that is left by an error. -/
theorem decryptBlocksInPlace_eq (key : RsaKey) (blocks : List UInt8) : key.decryptBlocksInPlace blocks =
    (decryptBlocksInPlace key blocks).2.map fun len => ((decryptBlocksInPlace key blocks).1, len) := by
  rw [decryptBlocksInPlace, RsaKey.decryptBlocksInPlace]
  split_ifs with hlen
  · rfl
  · dsimp only
    rw [decryptBlocks_eq]
    rcases decryptBlocks key (blocks.length / key.inBlockLen) 0 blocks with ⟨blocks, e | ⟨⟨⟩⟩⟩
    · rfl
    · rfl

/-- The source of `RsaDecryptor.read`. -/
instance (priority := low) : IoRead IoError R := IoRead.ofSource IoError R

theorem fillBuf_eq (reader : BufReader R) :
    reader.fillBuf = reader.fill.1.map fun block => (block, reader.fill.2) := by
  rw [BufReader.fillBuf, BufReader.fill]
  split_ifs
  · simp only [IoRead.read]
    rcases (IoSource.read reader.inner reader.capacity : Except IoError _ × R) with ⟨e | bytes, inner⟩
    · rfl
    · rfl
  · rfl

theorem readLoop_eq (fuel : ℕ) (dec : RsaDecryptor R) (len : ℕ) (buf : List UInt8) (n : ℕ) :
    RsaDecryptor.readLoop fuel dec len buf n = (readLoop fuel dec len buf n).map forget := by
  induction fuel generalizing dec len buf n with
  | zero => rfl
  | succ fuel ih =>
    rw [readLoop, RsaDecryptor.readLoop]
    by_cases hlen : len = 0
    · rw [if_pos hlen, if_pos hlen]
      rfl
    rw [if_neg hlen, if_neg hlen, iterate]
    dsimp only
    by_cases hout : dec.out.fillBuf ≠ []
    · rw [if_pos hout, if_pos hout]
      dsimp only
      rw [List.length_take, Nat.min_assoc, Nat.min_self]
      exact ih _ _ _ _
    rw [if_neg hout, if_neg hout, fillBuf_eq]
    rcases dec.reader.fill with ⟨e | block, reader⟩
    · rfl
    · dsimp only [Except.map]
      by_cases hfits : dec.key.outBlockLen ≤ len
      · rw [if_pos hfits, if_pos hfits]
        rcases hdecrypt : dec.key.decryptBlockIn block dec.key.outBlockLen with e | out
        · rfl
        · dsimp only
          rw [RsaKey.length_of_decryptBlockIn hdecrypt]
          exact ih _ _ _ _
      · rw [if_neg hfits, if_neg hfits]
        rcases dec.key.decryptBlockIn block dec.out.inner.length with e | out
        · rfl
        · dsimp only
          rw [List.length_nil, List.append_nil]
          exact ih _ _ _ _

/-- `read` is that of a source that is not read again after an error. -/
theorem read_eq (fuel : ℕ) (dec : RsaDecryptor R) (len : ℕ) :
    RsaDecryptor.read fuel dec len = (read fuel dec len).map forget := readLoop_eq fuel dec len [] 0

/-- So is `read_to_end`. -/
theorem readToEnd_eq (dec : RsaDecryptor R) (buf : List UInt8) :
    RsaDecryptor.readToEnd dec buf = forget (readToEnd dec buf) := by
  rw [readToEnd, RsaDecryptor.readToEnd, BufReader.readToEnd, BufReader.drain]
  dsimp only [Cursor.readToEnd, IoRead.readToEnd]
  rcases (IoSource.readToEnd dec.reader.inner : List UInt8 × Except IoError Unit × R) with
    ⟨bytes, e | ⟨⟨⟩⟩, inner⟩
  · rfl
  · simp only [bind, Except.bind]
    rw [decryptBlocksInPlace_eq]
    generalize decryptBlocksInPlace dec.key _ = result
    rcases result with ⟨blocks, e | inPlaceLen⟩
    · rfl
    · rfl

/-! ## Iterations -/

/-- What an iteration can do. -/
inductive Iterated (dec : RsaDecryptor R) (len : ℕ) : Except IoError (List UInt8) → RsaDecryptor R → Prop where
  | cursor (hout : dec.out.fillBuf ≠ []) :
    Iterated dec len (.ok (dec.out.fillBuf.take (min len dec.out.fillBuf.length)))
      { dec with out := dec.out.consume (min len dec.out.fillBuf.length) }
  | source {e : IoError} {reader : BufReader R} (hout : dec.out.fillBuf = [])
    (hfill : dec.reader.fill = (.error e, reader)) : Iterated dec len (.error e) { dec with reader := reader }
  | block {block out : List UInt8} {reader : BufReader R} (hout : dec.out.fillBuf = [])
    (hfill : dec.reader.fill = (.ok block, reader)) (hfits : dec.key.outBlockLen ≤ len)
    (hdecrypt : dec.key.decryptBlockIn block dec.key.outBlockLen = .ok out) :
    Iterated dec len (.ok out) { dec with reader := reader.consume dec.key.inBlockLen }
  | blockError {block : List UInt8} {e : DecryptError} {reader : BufReader R} (hout : dec.out.fillBuf = [])
    (hfill : dec.reader.fill = (.ok block, reader)) (hfits : dec.key.outBlockLen ≤ len)
    (hdecrypt : dec.key.decryptBlockIn block dec.key.outBlockLen = .error e) :
    Iterated dec len (.error (.InvalidInput e)) { dec with reader := reader }
  | tail {block out : List UInt8} {reader : BufReader R} (hout : dec.out.fillBuf = [])
    (hfill : dec.reader.fill = (.ok block, reader)) (hfits : ¬ dec.key.outBlockLen ≤ len)
    (hdecrypt : dec.key.decryptBlockIn block dec.out.inner.length = .ok out) :
    Iterated dec len (.ok []) { dec with out := ⟨out, 0⟩, reader := reader.consume dec.key.inBlockLen }
  | tailError {block : List UInt8} {e : DecryptError} {reader : BufReader R} (hout : dec.out.fillBuf = [])
    (hfill : dec.reader.fill = (.ok block, reader)) (hfits : ¬ dec.key.outBlockLen ≤ len)
    (hdecrypt : dec.key.decryptBlockIn block dec.out.inner.length = .error e) :
    Iterated dec len (.error (.InvalidInput e)) { dec with out := ⟨dec.out.inner, 0⟩, reader := reader }

theorem iterated (dec : RsaDecryptor R) (len : ℕ) :
    Iterated dec len (iterate dec len).1 (iterate dec len).2 := by
  rw [iterate]
  dsimp only
  by_cases hout : dec.out.fillBuf ≠ []
  · rw [if_pos hout]
    exact .cursor hout
  rw [if_neg hout]
  have hempty := not_not.1 hout
  match hfill : dec.reader.fill with
  | (.error e, reader) => exact .source hempty hfill
  | (.ok block, reader) =>
    dsimp only
    by_cases hfits : dec.key.outBlockLen ≤ len
    · rw [if_pos hfits]
      match hdecrypt : dec.key.decryptBlockIn block dec.key.outBlockLen with
      | .error e => exact .blockError hempty hfill hfits hdecrypt
      | .ok out => exact .block hempty hfill hfits hdecrypt
    · rw [if_neg hfits]
      match hdecrypt : dec.key.decryptBlockIn block dec.out.inner.length with
      | .error e => exact .tailError hempty hfill hfits hdecrypt
      | .ok out => exact .tail hempty hfill hfits hdecrypt

/-- With blocks that are not empty, a read comes to an end. -/
theorem readLoop_isSome {fuel : ℕ} {dec : RsaDecryptor R} {len : ℕ} (hkey : 2 ≤ dec.key.len)
    (hlength : dec.out.inner.length = dec.key.outBlockLen)
    (hfuel : 2 * len + (if dec.out.fillBuf = [] then 1 else 0) < fuel) (buf : List UInt8) (n : ℕ) :
    (readLoop fuel dec len buf n).isSome := by
  have hblock : dec.key.outBlockLen = dec.key.len - 1 := rfl
  induction fuel generalizing dec len buf n with
  | zero => exact absurd hfuel (Nat.not_lt_zero _)
  | succ fuel ih =>
    rw [readLoop]
    by_cases hlen : len = 0
    · rw [if_pos hlen]
      rfl
    rw [if_neg hlen]
    have hcases := iterated dec len
    match hiter : iterate dec len with
    | (.error e, dec') => rfl
    | (.ok bytes, dec') =>
      rw [hiter] at hcases
      dsimp only at hcases ⊢
      cases hcases with
      | cursor hout =>
        have hpos := List.length_pos_of_ne_nil hout
        rw [if_neg hout] at hfuel
        refine @ih ⟨dec.key, dec.out.consume (min len dec.out.fillBuf.length), dec.reader⟩ _ hkey hlength ?_ _ _ hblock
        rw [List.length_take]
        split_ifs <;> omega
      | @block _ _ reader hout hfill hfits hdecrypt =>
        rw [if_pos hout] at hfuel
        refine @ih ⟨dec.key, dec.out, reader.consume dec.key.inBlockLen⟩ _ hkey hlength ?_ _ _ hblock
        rw [RsaKey.length_of_decryptBlockIn hdecrypt, if_pos hout]
        omega
      | @tail _ out reader hout hfill hfits hdecrypt =>
        rw [if_pos hout] at hfuel
        have hout' := RsaKey.length_of_decryptBlockIn hdecrypt
        have hfull : (⟨out, 0⟩ : Cursor).fillBuf ≠ [] := List.ne_nil_of_length_pos (by
          show 0 < out.length
          omega)
        refine @ih ⟨dec.key, ⟨out, 0⟩, reader.consume dec.key.inBlockLen⟩ _ hkey (hout'.trans hlength) ?_ _ _ hblock
        rw [if_neg hfull, List.length_nil]
        omega

end Fsvfs.Crypto.RsaDecryptor.Failing
