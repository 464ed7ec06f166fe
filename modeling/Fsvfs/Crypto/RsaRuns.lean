/-
  What a decryptor delivers when its source fails.

  Positions are those of the plaintext of what the source has returned so far
  (`PlainAt`).

  * `Delivers`: what a decryptor has to deliver comes after a position, and its
    reader is at the start of a block;
  * `iterate_spec`, `read_spec`, `readToEnd_spec`: every call goes on from there, if
    it is a `SoundCall`: a read does not fail while it decrypts into the cursor, and
    a read to the end takes nothing or whole blocks that can be decrypted;
  * `run_inOrder`: in every run of such calls, bytes come in order, also those that
    failed calls leave with their callers, and a read with nothing left leaves the
    decryptor as it was.
-/
import Fsvfs.Crypto.RsaFailures

namespace Fsvfs.Crypto.RsaDecryptor.Failing

open Lib

variable {R : Type} {key : RsaKey}

/-! ## The plaintext -/

/-- A block that can be decrypted. -/
def Decrypts (key : RsaKey) (block : List UInt8) : Prop :=
  block.length = key.inBlockLen ∧ naturalFromBytesBe block < key.n

theorem decrypts_of_ok {block out : List UInt8} {outLen : ℕ} (h : key.decryptBlockIn block outLen = .ok out) :
    Decrypts key block := by
  rw [RsaKey.decryptBlockIn] at h
  dsimp only at h
  split_ifs at h with hlen hbase
  exact ⟨not_not.1 hlen, Nat.not_le.1 hbase⟩

theorem not_decrypts_of_error {block : List UInt8} {e : DecryptError} {outLen : ℕ}
    (h : key.decryptBlockIn block outLen = .error e) : ¬ Decrypts key block := by
  rintro ⟨hlen, hlt⟩
  rw [RsaKey.decryptBlockIn_of_lt hlen hlt] at h
  cases h

/-- A byte is at some position of the plaintext: in a block, at that position in
    what the block decrypts to. -/
def PlainAt (key : RsaKey) (cipher : List UInt8) (pos : ℕ) (b : UInt8) : Prop :=
  ∃ (i j : ℕ) (before block after out : List UInt8), cipher = before ++ (block ++ after) ∧
    before.length = i * key.inBlockLen ∧ key.decryptBlockIn block key.outBlockLen = .ok out ∧
    pos = i * key.outBlockLen + j ∧ out[j]? = some b

/-- Blocks are not changed by what follows. -/
theorem PlainAt.append {cipher : List UInt8} {pos : ℕ} {b : UInt8} (more : List UInt8)
    (h : PlainAt key cipher pos b) : PlainAt key (cipher ++ more) pos b := by
  obtain ⟨i, j, before, block, after, out, rfl, hbefore, hdecrypt, hpos, hout⟩ := h
  refine ⟨i, j, before, block, after ++ more, out, ?_, hbefore, hdecrypt, hpos, hout⟩
  rw [List.append_assoc, List.append_assoc]

/-- A block decrypts to its place in the plaintext. -/
theorem inOrder_block {before block after out : List UInt8} {i : ℕ} (hbefore : before.length = i * key.inBlockLen)
    (hdecrypt : key.decryptBlockIn block key.outBlockLen = .ok out) :
    InOrder (PlainAt key (before ++ (block ++ after))) (i * key.outBlockLen) out ((i + 1) * key.outBlockLen) := by
  have hlen := RsaKey.length_of_decryptBlockIn hdecrypt
  have hat : InOrder (PlainAt key (before ++ (block ++ after))) (i * key.outBlockLen) out
      (i * key.outBlockLen + out.length) :=
    .of_getElem? fun j b hb => ⟨i, j, before, block, after, out, rfl, hbefore, hdecrypt, rfl, hb⟩
  rwa [hlen, ← Nat.succ_mul] at hat

/-- So do some blocks. -/
theorem inOrder_blocks {before after : List UInt8} {blocks outs : List (List UInt8)} {i : ℕ}
    (hbefore : before.length = i * key.inBlockLen) (houts : key.blockwise blocks = .ok outs) :
    InOrder (PlainAt key (before ++ (blocks.flatten ++ after))) (i * key.outBlockLen) outs.flatten
      ((i + blocks.length) * key.outBlockLen) := by
  induction blocks generalizing before outs i with
  | nil =>
    cases houts
    exact .nil (Nat.le_refl _)
  | cons block blocks ih =>
    obtain ⟨out, outs, rfl, hblock, hrest⟩ := RsaKey.blockwise_cons_eq_ok houts
    have hnext : (before ++ block).length = (i + 1) * key.inBlockLen := by
      rw [List.length_append, hbefore, (decrypts_of_ok hblock).1, Nat.succ_mul]
    have hothers := ih hnext hrest
    rw [List.append_assoc, ← List.append_assoc block, Nat.add_assoc, Nat.add_comm 1] at hothers
    rw [List.flatten_cons, List.flatten_cons, List.length_cons]
    have hfirst := @inOrder_block _ before block (blocks.flatten ++ after) out i hbefore hblock
    rw [← List.append_assoc block] at hfirst
    exact InOrder.append_iff.2 ⟨_, hfirst, hothers⟩

/-- Whole blocks. -/
theorem exists_blocks {size count : ℕ} {data : List UInt8} (h : data.length = count * size) :
    ∃ blocks : List (List UInt8), data = blocks.flatten ∧ ∀ b ∈ blocks, b.length = size := by
  induction count generalizing data with
  | zero =>
    rw [Nat.zero_mul, List.length_eq_zero_iff] at h
    exact ⟨[], h, fun b hb => absurd hb List.not_mem_nil⟩
  | succ count ih =>
    rw [Nat.succ_mul] at h
    obtain ⟨blocks, hdata, hblocks⟩ := @ih (data.drop size) (by rw [List.length_drop]; omega)
    refine ⟨data.take size :: blocks, ?_, ?_⟩
    · rw [List.flatten_cons, ← hdata, List.take_append_drop]
    · exact List.forall_mem_cons.2 ⟨List.length_take_of_le (by omega), hblocks⟩

/-! ## Decryptors -/

/-- The number of bytes that have been taken from the reader. -/
def decryptedLen (reader : BufReader (Logged R)) : ℕ := reader.inner.taken.length - reader.buffer.length

/-- What a decryptor has to deliver comes after a position, and its reader is at the
    start of a block. -/
structure Delivers (key : RsaKey) (dec : RsaDecryptor (Logged R)) (pos : ℕ) : Prop where
  key_eq : dec.key = key
  capacity : dec.reader.capacity = key.inBlockLen
  out : dec.out.inner.length = key.outBlockLen
  buffer : dec.reader.buffer <:+ dec.reader.inner.taken
  length_le : dec.reader.buffer.length ≤ key.inBlockLen
  aligned : key.inBlockLen ∣ decryptedLen dec.reader
  cursor : InOrder (PlainAt key dec.reader.inner.taken) pos dec.out.fillBuf
    (decryptedLen dec.reader / key.inBlockLen * key.outBlockLen)

/-- A reader after it has been filled. -/
structure Filled (reader reader' : BufReader (Logged R)) : Prop where
  capacity : reader'.capacity = reader.capacity
  buffer : reader'.buffer <:+ reader'.inner.taken
  taken : reader.inner.taken <+: reader'.inner.taken
  length_le : reader'.buffer.length ≤ reader.capacity
  decryptedLen_eq : decryptedLen reader' = decryptedLen reader

/-- A block is taken from the reader. -/
theorem Filled.consume {reader reader' : BufReader (Logged R)} (h : Filled reader reader') {size : ℕ}
    (hlen : reader'.buffer.length = size) : (reader'.consume size).buffer = [] ∧
      decryptedLen (reader'.consume size) = decryptedLen reader + size ∧
      ∃ before, reader'.inner.taken = before ++ (reader'.buffer ++ []) ∧ before.length = decryptedLen reader := by
  obtain ⟨before, hbefore⟩ := h.buffer
  have hempty : (reader'.consume size).buffer = [] := List.drop_of_length_le (Nat.le_of_eq hlen)
  have htaken : reader'.inner.taken.length = before.length + reader'.buffer.length := by
    rw [← hbefore, List.length_append]
  have hsame := h.decryptedLen_eq
  rw [decryptedLen, htaken, Nat.add_sub_cancel] at hsame
  refine ⟨hempty, ?_, before, by rw [List.append_nil, hbefore], hsame⟩
  rw [decryptedLen, hempty, List.length_nil, Nat.sub_zero, ← hsame, ← hlen]
  exact htaken

/-- Some bytes are delivered from a position on, and the decryptor goes on after
    them. -/
structure Advances (key : RsaKey) (dec : RsaDecryptor (Logged R)) (pos : ℕ) (bytes : List UInt8)
    (dec' : RsaDecryptor (Logged R)) (pos' : ℕ) : Prop where
  taken : dec.reader.inner.taken <+: dec'.reader.inner.taken
  inOrder : InOrder (PlainAt key dec'.reader.inner.taken) pos bytes pos'
  delivers : Delivers key dec' pos'

theorem inOrder_of_prefix {cipher cipher' bytes : List UInt8} {start stop : ℕ} (hmore : cipher <+: cipher')
    (h : InOrder (PlainAt key cipher) start bytes stop) : InOrder (PlainAt key cipher') start bytes stop := by
  obtain ⟨more, rfl⟩ := hmore
  exact h.mono fun pos b hb => hb.append more

theorem Advances.trans {dec dec' dec'' : RsaDecryptor (Logged R)} {pos pos' pos'' : ℕ}
    {bytes bytes' : List UInt8} (h : Advances key dec pos bytes dec' pos')
    (h' : Advances key dec' pos' bytes' dec'' pos'') : Advances key dec pos (bytes ++ bytes') dec'' pos'' where
  taken := h.taken.trans h'.taken
  inOrder := InOrder.append_iff.2 ⟨pos', inOrder_of_prefix h'.taken h.inOrder, h'.inOrder⟩
  delivers := h'.delivers

theorem Delivers.advances {dec : RsaDecryptor (Logged R)} {pos : ℕ} (h : Delivers key dec pos) :
    Advances key dec pos [] dec pos := ⟨List.prefix_rfl, .nil (Nat.le_refl _), h⟩

/-- An empty cursor, with what has been taken from the reader. -/
theorem Delivers.of_empty {dec dec' : RsaDecryptor (Logged R)} {pos pos' : ℕ} (h : Delivers key dec pos)
    (hkey : dec'.key = dec.key) (hout : dec'.out = dec.out) (hempty : dec.out.fillBuf = [])
    (hcapacity : dec'.reader.capacity = dec.reader.capacity)
    (hbuffer : dec'.reader.buffer <:+ dec'.reader.inner.taken)
    (hlen : dec'.reader.buffer.length ≤ key.inBlockLen) (haligned : key.inBlockLen ∣ decryptedLen dec'.reader)
    (hpos : pos' ≤ decryptedLen dec'.reader / key.inBlockLen * key.outBlockLen) : Delivers key dec' pos' := by
  refine ⟨hkey.trans h.key_eq, hcapacity.trans h.capacity, by rw [hout, h.out], hbuffer, hlen, haligned, ?_⟩
  rw [hout, hempty]
  exact .nil hpos

/-- A reader that has been filled, with an empty cursor. -/
theorem Delivers.filled {dec : RsaDecryptor (Logged R)} {pos : ℕ} {reader : BufReader (Logged R)}
    (h : Delivers key dec pos) (hempty : dec.out.fillBuf = []) (hfilled : Filled dec.reader reader) :
    Delivers key { dec with reader := reader } pos := by
  have hpos := h.cursor.le
  have haligned := h.aligned
  rw [← hfilled.decryptedLen_eq] at hpos haligned
  exact h.of_empty rfl rfl hempty hfilled.capacity hfilled.buffer (h.capacity ▸ hfilled.length_le) haligned hpos

/-- A decryptor with nothing left in its cursor and its reader's buffer. -/
theorem Delivers.drained {dec : RsaDecryptor (Logged R)} {reader : BufReader (Logged R)} {pos pos' : ℕ}
    (h : Delivers key dec pos) (hcapacity : reader.capacity = dec.reader.capacity) (hbuffer : reader.buffer = [])
    (haligned : key.inBlockLen ∣ decryptedLen reader)
    (hpos : pos' ≤ decryptedLen reader / key.inBlockLen * key.outBlockLen) :
    Delivers key { dec with out := dec.out.consume dec.out.fillBuf.length, reader := reader } pos' := by
  refine ⟨h.key_eq, hcapacity.trans h.capacity, h.out, ?_, ?_, haligned, ?_⟩
  · rw [hbuffer]
    exact List.nil_suffix
  · rw [hbuffer]
    exact Nat.zero_le _
  · rw [Cursor.fillBuf_consume, List.drop_length]
    exact .nil hpos

section
variable [IoSource IoError R]

theorem fill_spec {reader reader' : BufReader (Logged R)} {result : Except IoError (List UInt8)}
    (hbuffer : reader.buffer <:+ reader.inner.taken) (hle : reader.buffer.length ≤ reader.capacity)
    (h : reader.fill = (result, reader')) : Filled reader reader' ∧ ∀ block, result = .ok block → reader'.buffer = block := by
  rw [BufReader.fill] at h
  split_ifs at h with hempty
  · have hlen := IoSource.length_le_of_read (ε := IoError) reader.inner.inner reader.capacity
    simp only [IoSource.read] at h
    rcases hread : (IoSource.read reader.inner.inner reader.capacity : Except IoError _ × R) with ⟨e | bytes, inner⟩
    · rw [hread] at h
      cases h
      refine ⟨⟨rfl, List.nil_suffix, List.prefix_rfl, Nat.zero_le _, ?_⟩, fun block hblock => by cases hblock⟩
      rw [decryptedLen, decryptedLen, hempty]
    · rw [hread] at h hlen
      cases h
      refine ⟨⟨rfl, List.suffix_append _ _, List.prefix_append _ _, hlen bytes rfl, ?_⟩,
        fun block hblock => Except.ok.inj hblock⟩
      rw [decryptedLen, decryptedLen, hempty, List.length_append, List.length_nil, Nat.add_sub_cancel,
        Nat.sub_zero]
  · cases h
    exact ⟨⟨rfl, hbuffer, List.prefix_rfl, hle, rfl⟩, fun block hblock => Except.ok.inj hblock⟩

/-- An iteration of `read` does not fail while it decrypts into the cursor. -/
def SoundIteration (dec : RsaDecryptor (Logged R)) (len : ℕ) : Prop :=
  dec.out.fillBuf = [] → ∀ block reader, dec.reader.fill = (.ok block, reader) →
    ¬ Decrypts dec.key block → dec.key.outBlockLen ≤ len

/-- The bytes of a result. -/
def written : Except IoError (List UInt8) → List UInt8
  | .ok bytes => bytes
  | .error _ => []

/-- **The next block.** -/
theorem Delivers.next {dec : RsaDecryptor (Logged R)} {pos : ℕ} {block out : List UInt8}
    {reader : BufReader (Logged R)} (h : Delivers key dec pos)
    (hfill : dec.reader.fill = (.ok block, reader))
    (hdecrypt : key.decryptBlockIn block key.outBlockLen = .ok out) :
    dec.reader.inner.taken <+: reader.inner.taken ∧ (reader.consume key.inBlockLen).buffer = [] ∧
      key.inBlockLen ∣ decryptedLen (reader.consume key.inBlockLen) ∧
      InOrder (PlainAt key reader.inner.taken) pos out
        (decryptedLen (reader.consume key.inBlockLen) / key.inBlockLen * key.outBlockLen) := by
  obtain rfl := h.key_eq
  obtain ⟨hfilled, hbuffer⟩ := fill_spec h.buffer (h.capacity ▸ h.length_le) hfill
  obtain rfl := hbuffer block rfl
  obtain ⟨hempty, hlen, before, htaken, hbefore⟩ := hfilled.consume (decrypts_of_ok hdecrypt).1
  obtain ⟨i, hi⟩ := h.aligned
  have hin : 0 < dec.key.inBlockLen := dec.key.len_pos
  have hpos := h.cursor.le
  rw [hi, Nat.mul_div_cancel_left _ hin] at hpos
  have hblock := @inOrder_block _ before _ [] _ i (hbefore.trans (hi.trans (Nat.mul_comm _ _))) hdecrypt
  rw [← htaken] at hblock
  rw [hlen, hi, ← Nat.mul_succ, Nat.mul_div_cancel_left _ hin]
  exact ⟨hfilled.taken, hempty, Nat.dvd_mul_right _ _, hblock.start_le hpos⟩

/-- **An iteration goes on** from where the decryptor is. -/
theorem iterate_spec {dec dec' : RsaDecryptor (Logged R)} {len pos : ℕ} {result : Except IoError (List UInt8)}
    (h : Delivers key dec pos) (hsound : SoundIteration dec len) (hiter : Iterated dec len result dec') :
    ∃ pos', Advances key dec pos (written result) dec' pos' := by
  obtain rfl := h.key_eq
  have hle : dec.reader.buffer.length ≤ dec.reader.capacity := h.capacity ▸ h.length_le
  cases hiter with
  | cursor hout =>
    have hcursor := h.cursor
    rw [← List.take_append_drop (min len dec.out.fillBuf.length) dec.out.fillBuf] at hcursor
    obtain ⟨middle, htake, hdrop⟩ := InOrder.append_iff.1 hcursor
    refine ⟨middle, List.prefix_rfl, htake, rfl, h.capacity, h.out, h.buffer, h.length_le, h.aligned, ?_⟩
    rw [Cursor.fillBuf_consume]
    exact hdrop
  | source hout hfill =>
    obtain ⟨hfilled, -⟩ := fill_spec h.buffer hle hfill
    exact ⟨pos, hfilled.taken, .nil (Nat.le_refl _), h.filled hout hfilled⟩
  | block hout hfill hfits hdecrypt =>
    obtain ⟨htaken, hempty, haligned, horder⟩ := h.next hfill hdecrypt
    obtain ⟨hfilled, -⟩ := fill_spec h.buffer hle hfill
    refine ⟨_, htaken, horder, h.of_empty rfl rfl hout hfilled.capacity ?_ ?_ haligned (Nat.le_refl _)⟩
    · rw [hempty]
      exact List.nil_suffix
    · rw [hempty]
      exact Nat.zero_le _
  | blockError hout hfill hfits hdecrypt =>
    obtain ⟨hfilled, -⟩ := fill_spec h.buffer hle hfill
    exact ⟨pos, hfilled.taken, .nil (Nat.le_refl _), h.filled hout hfilled⟩
  | tail hout hfill hfits hdecrypt =>
    have hlen := RsaKey.length_of_decryptBlockIn hdecrypt
    rw [h.out] at hdecrypt
    obtain ⟨htaken, hempty, haligned, horder⟩ := h.next hfill hdecrypt
    obtain ⟨hfilled, -⟩ := fill_spec h.buffer hle hfill
    refine ⟨pos, htaken, .nil (Nat.le_refl _), rfl, hfilled.capacity.trans h.capacity, hlen.trans h.out, ?_, ?_,
      haligned, horder⟩
    · rw [hempty]
      exact List.nil_suffix
    · rw [hempty]
      exact Nat.zero_le _
  | tailError hout hfill hfits hdecrypt =>
    exact absurd (hsound hout _ _ hfill (not_decrypts_of_error hdecrypt)) hfits

/-- So are all the iterations of a read. -/
def SoundRead : ℕ → RsaDecryptor (Logged R) → ℕ → Prop
  | 0, _, _ => True
  | fuel + 1, dec, len => len ≠ 0 → SoundIteration dec len ∧
    ∀ bytes dec', iterate dec len = (.ok bytes, dec') → SoundRead fuel dec' (len - bytes.length)

theorem soundRead_zero (dec : RsaDecryptor (Logged R)) : ∀ fuel, SoundRead fuel dec 0
  | 0 => trivial
  | _ + 1 => fun hlen => absurd rfl hlen

/-- The iterations after one. -/
theorem soundRead_of_ok {dec dec' : RsaDecryptor (Logged R)} {len : ℕ} {bytes : List UInt8}
    (hsound : SoundIteration dec len) (hiter : iterate dec len = (.ok bytes, dec'))
    (hrest : ∀ fuel, SoundRead fuel dec' (len - bytes.length)) : ∀ fuel, SoundRead fuel dec len
  | 0 => trivial
  | fuel + 1 => fun _ => ⟨hsound, fun _ _ h => by cases hiter.symm.trans h; exact hrest fuel⟩

/-- An error is the last one. -/
theorem soundRead_of_error {dec dec' : RsaDecryptor (Logged R)} {len : ℕ} {e : IoError}
    (hsound : SoundIteration dec len) (hiter : iterate dec len = (.error e, dec')) : ∀ fuel, SoundRead fuel dec len
  | 0 => trivial
  | _ + 1 => fun _ => ⟨hsound, fun _ _ h => by cases hiter.symm.trans h⟩

/-- What a read hands to its caller: as many bytes of the buffer as it returns, or,
    if it fails, what it has written. -/
def filled : List UInt8 × Except IoError ℕ → List UInt8
  | (buf, .ok n) => buf.take n
  | (buf, .error _) => buf

/-- **The loop goes on** from where the decryptor is. -/
theorem readLoop_spec {fuel : ℕ} {dec₀ dec dec' : RsaDecryptor (Logged R)} {len start pos : ℕ}
    {buf buf' : List UInt8} {result : Except IoError ℕ} (h : Advances key dec₀ start buf dec pos)
    (hsound : SoundRead fuel dec len) (hread : readLoop fuel dec len buf buf.length = some (buf', result, dec')) :
    ∃ pos', Advances key dec₀ start (filled (buf', result)) dec' pos' := by
  induction fuel generalizing dec len pos buf with
  | zero => cases hread
  | succ fuel ih =>
    rw [readLoop] at hread
    by_cases hlen : len = 0
    · rw [if_pos hlen] at hread
      cases hread
      refine ⟨pos, ?_⟩
      rw [filled, List.take_length]
      exact h
    rw [if_neg hlen] at hread
    obtain ⟨hiteration, hrest⟩ := hsound hlen
    obtain ⟨next, hnext⟩ := iterate_spec h.delivers hiteration (iterated dec len)
    rcases hiter : iterate dec len with ⟨e | bytes, dec₁⟩
    · rw [hiter] at hread hnext
      cases hread
      have hafter := h.trans hnext
      rw [written, List.append_nil] at hafter
      exact ⟨next, hafter⟩
    · rw [hiter] at hread hnext
      dsimp only at hread
      rw [← List.length_append] at hread
      exact ih (h.trans hnext) (hrest bytes dec₁ hiter) hread

/-- **A read goes on** from where the decryptor is. -/
theorem read_spec {fuel : ℕ} {dec dec' : RsaDecryptor (Logged R)} {len pos : ℕ} {buf : List UInt8}
    {result : Except IoError ℕ} (h : Delivers key dec pos) (hsound : SoundRead fuel dec len)
    (hread : read fuel dec len = some (buf, result, dec')) :
    ∃ pos', Advances key dec pos (filled (buf, result)) dec' pos' := readLoop_spec h.advances hsound hread

/-- `read_to_end` takes nothing from the reader, or, without an error, whole blocks
    that can be decrypted. -/
def SoundReadToEnd (dec : RsaDecryptor (Logged R)) : Prop :=
  ∀ bytes result reader, dec.reader.drain = (bytes, result, reader) →
    bytes = [] ∨ result = .ok () ∧
      ∃ blocks : List (List UInt8), bytes = blocks.flatten ∧ ∀ block ∈ blocks, Decrypts dec.key block

/-- What is appended to a vector, also before an error. -/
def appended (buf vec : List UInt8) : List UInt8 := vec.drop buf.length

/-- Nothing is left in the buffer. -/
theorem drain_spec {reader reader' : BufReader (Logged R)} {bytes : List UInt8} {result : Except IoError Unit}
    (hbuffer : reader.buffer <:+ reader.inner.taken) (h : reader.drain = (bytes, result, reader')) :
    reader'.capacity = reader.capacity ∧ reader'.buffer = [] ∧ reader.inner.taken <+: reader'.inner.taken ∧
      decryptedLen reader' = decryptedLen reader + bytes.length ∧
      ∃ before, reader'.inner.taken = before ++ (bytes ++ []) ∧ before.length = decryptedLen reader := by
  rw [BufReader.drain] at h
  simp only [IoSource.readToEnd] at h
  rcases hread : (IoSource.readToEnd reader.inner.inner : List UInt8 × Except IoError Unit × R) with
    ⟨more, result, inner⟩
  rw [hread] at h
  cases h
  obtain ⟨before, hbefore⟩ := hbuffer
  have hlen : reader.inner.taken.length = before.length + reader.buffer.length := by
    rw [← hbefore, List.length_append]
  refine ⟨rfl, rfl, List.prefix_append _ _, ?_, before, ?_, ?_⟩
  · simp only [decryptedLen, List.length_append, List.length_nil]
    omega
  · simp only [List.append_nil]
    rw [← hbefore, List.append_assoc]
  · rw [decryptedLen]
    omega

/-- Whole blocks are decrypted in place. -/
theorem decryptBlocksInPlace_of_decrypts {blocks : List (List UInt8)} (h : ∀ block ∈ blocks, Decrypts key block) :
    ∃ outs left, key.blockwise blocks = .ok outs ∧
      decryptBlocksInPlace key blocks.flatten = (outs.flatten ++ left, .ok outs.flatten.length) := by
  have hlen : ∀ block ∈ blocks, block.length = key.inBlockLen := fun block hblock => (h block hblock).1
  obtain ⟨outs, houts⟩ := RsaKey.exists_blockwise hlen fun block hblock => (h block hblock).2
  have hplace := RsaKey.decryptBlocksInPlace_eq hlen
  rw [houts, decryptBlocksInPlace_eq, ← RsaKey.length_flatten_outs houts] at hplace
  refine ⟨outs, blocks.flatten.drop outs.flatten.length, houts, ?_⟩
  rcases hresult : decryptBlocksInPlace key blocks.flatten with ⟨vec, e | len⟩
  · rw [hresult] at hplace
    cases hplace
  · rw [hresult] at hplace
    cases hplace
    rfl

/-- **A read to the end goes on** from where the decryptor is. -/
theorem readToEnd_spec {dec : RsaDecryptor (Logged R)} {pos : ℕ} (h : Delivers key dec pos)
    (hsound : SoundReadToEnd dec) (buf : List UInt8) :
    ∃ pos', Advances key dec pos (appended buf (readToEnd dec buf).1) (readToEnd dec buf).2.2 pos' := by
  obtain rfl := h.key_eq
  have hin : 0 < dec.key.inBlockLen := dec.key.len_pos
  rw [readToEnd]
  dsimp only [Cursor.readToEnd]
  rcases hdrain : dec.reader.drain with ⟨bytes, result, reader⟩
  obtain ⟨hcapacity, hbuffer, htaken, hlen, before, hcipher, hbefore⟩ := drain_spec h.buffer hdrain
  obtain ⟨i, hi⟩ := h.aligned
  -- the blocks that are taken; none, if there is an error
  obtain ⟨blocks, rfl, hblocks, hresult⟩ : ∃ blocks : List (List UInt8), bytes = blocks.flatten ∧
      (∀ block ∈ blocks, Decrypts dec.key block) ∧ (blocks = [] ∨ result = .ok ()) := by
    rcases hsound bytes result reader hdrain with rfl | ⟨hok, blocks, rfl, hblocks⟩
    · exact ⟨[], rfl, fun block hblock => absurd hblock List.not_mem_nil, .inl rfl⟩
    · exact ⟨blocks, rfl, hblocks, .inr hok⟩
  have hcount : blocks.flatten.length = blocks.length * dec.key.inBlockLen :=
    RsaKey.length_flatten_blocks fun block hblock => (hblocks block hblock).1
  obtain ⟨outs, left, houts, hplace⟩ := decryptBlocksInPlace_of_decrypts hblocks
  have hdecrypted : decryptedLen reader = dec.key.inBlockLen * (i + blocks.length) := by
    rw [hlen, hi, hcount, Nat.mul_comm blocks.length, ← Nat.mul_add]
  have horder : InOrder (PlainAt dec.key reader.inner.taken) pos (dec.out.fillBuf ++ outs.flatten)
      (decryptedLen reader / dec.key.inBlockLen * dec.key.outBlockLen) := by
    refine InOrder.append_iff.2 ⟨_, inOrder_of_prefix htaken h.cursor, ?_⟩
    rw [hdecrypted, hi, Nat.mul_div_cancel_left _ hin, Nat.mul_div_cancel_left _ hin, hcipher]
    exact inOrder_blocks (hbefore.trans (hi.trans (Nat.mul_comm _ _))) houts
  have hdrained := h.drained hcapacity hbuffer (hdecrypted ▸ Nat.dvd_mul_right _ _) (Nat.le_refl _)
  rcases result with e | ⟨⟨⟩⟩
  · obtain rfl := hresult.resolve_right fun hok => by cases hok
    cases houts
    refine ⟨_, htaken, ?_, hdrained⟩
    dsimp only [appended]
    rw [List.append_assoc, List.drop_left]
    exact horder
  · dsimp only
    rw [List.drop_left, hplace]
    refine ⟨_, htaken, ?_, hdrained⟩
    have hvec : appended buf (((buf ++ dec.out.fillBuf ++ blocks.flatten).take (buf ++ dec.out.fillBuf).length ++
        (outs.flatten ++ left)).take ((buf ++ dec.out.fillBuf).length + outs.flatten.length)) =
          dec.out.fillBuf ++ outs.flatten := by
      rw [appended, List.take_left, ← List.append_assoc, ← List.length_append, List.take_left, List.append_assoc,
        List.drop_left]
    rw [hvec]
    exact horder

/-! ## Runs -/

/-- A call of a decryptor. -/
inductive Call where
  | read (len : ℕ)
  | readToEnd (buf : List UInt8)

/-- The buffer or the vector after a call and what it returns, and the decryptor that
    it leaves. -/
inductive Returns (dec : RsaDecryptor R) : Call → List UInt8 × Except IoError ℕ → RsaDecryptor R → Prop where
  | read {fuel len : ℕ} {buf : List UInt8} {result : Except IoError ℕ} {dec' : RsaDecryptor R}
    (h : read fuel dec len = some (buf, result, dec')) : Returns dec (.read len) (buf, result) dec'
  | readToEnd (buf : List UInt8) :
    Returns dec (.readToEnd buf) ((readToEnd dec buf).1, (readToEnd dec buf).2.1) (readToEnd dec buf).2.2

/-- The bytes that a call hands to its caller, also if it fails. -/
def delivered : Call × List UInt8 × Except IoError ℕ → List UInt8
  | (.read _, outcome) => filled outcome
  | (.readToEnd buf, vec, _) => appended buf vec

/-- Some calls, all of which meet a condition. -/
inductive Run (meets : RsaDecryptor R → Call → Prop) :
    RsaDecryptor R → List (Call × List UInt8 × Except IoError ℕ) → RsaDecryptor R → Prop where
  | nil (dec : RsaDecryptor R) : Run meets dec [] dec
  | cons {dec dec' dec'' : RsaDecryptor R} {call : Call} {outcome : List UInt8 × Except IoError ℕ}
    {calls : List (Call × List UInt8 × Except IoError ℕ)} (hmeets : meets dec call)
    (h : Returns dec call outcome dec') (hrun : Run meets dec' calls dec'') :
    Run meets dec ((call, outcome) :: calls) dec''

/-- A read that does not fail while it decrypts into the cursor, or a read to the end
    that takes nothing, or whole blocks that can be decrypted. -/
def SoundCall (dec : RsaDecryptor (Logged R)) : Call → Prop
  | .read len => ∀ fuel, SoundRead fuel dec len
  | .readToEnd _ => SoundReadToEnd dec

theorem call_spec {dec dec' : RsaDecryptor (Logged R)} {call : Call} {outcome : List UInt8 × Except IoError ℕ}
    {pos : ℕ} (h : Delivers key dec pos) (hsound : SoundCall dec call) (hcall : Returns dec call outcome dec') :
    ∃ pos', Advances key dec pos (delivered (call, outcome)) dec' pos' := by
  cases hcall with
  | @read fuel len vec result dec' hread => exact read_spec h (hsound fuel) hread
  | readToEnd buf => exact readToEnd_spec h hsound buf

theorem run_spec {dec dec' : RsaDecryptor (Logged R)} {calls : List (Call × List UInt8 × Except IoError ℕ)}
    {pos : ℕ} (h : Delivers key dec pos) (hrun : Run SoundCall dec calls dec') :
    ∃ pos', Advances key dec pos (calls.flatMap delivered) dec' pos' := by
  induction hrun generalizing pos with
  | nil dec => exact ⟨pos, h.advances⟩
  | cons hsound hcall hrun ih =>
    obtain ⟨middle, hfirst⟩ := call_spec h hsound hcall
    obtain ⟨pos', hrest⟩ := ih hfirst.delivers
    exact ⟨pos', hfirst.trans hrest⟩

omit [IoSource IoError R] in
theorem delivers_new (key : RsaKey) (r : R) : Delivers key (new key (Logged.start r)) 0 := by
  refine ⟨rfl, rfl, List.length_replicate, List.suffix_rfl, Nat.zero_le _, Nat.dvd_zero _, ?_⟩
  have hempty : (new key (Logged.start r)).out.fillBuf = [] :=
    List.drop_of_length_le (Nat.le_of_eq List.length_replicate)
  rw [hempty]
  exact .nil (Nat.zero_le _)

/-- There is nothing left to deliver, and no ciphertext. -/
structure NoneLeft (dec : RsaDecryptor R) : Prop where
  out : dec.out.fillBuf = []
  buffer : dec.reader.buffer = []
  source : (IoSource.read dec.reader.inner dec.reader.capacity).1 = .ok []

/-- A decryptor is as it was, apart from the state of its source. -/
structure Unchanged (dec dec' : RsaDecryptor (Logged R)) : Prop where
  key : dec'.key = dec.key
  out : dec'.out = dec.out
  capacity : dec'.reader.capacity = dec.reader.capacity
  buffer : dec'.reader.buffer = dec.reader.buffer
  taken : dec'.reader.inner.taken = dec.reader.inner.taken

/-- The end of the source is an empty block. -/
theorem NoneLeft.fill {dec : RsaDecryptor (Logged R)} (h : NoneLeft dec) : ∃ reader : BufReader (Logged R),
    dec.reader.fill = (.ok [], reader) ∧ reader.capacity = dec.reader.capacity ∧ reader.buffer = dec.reader.buffer ∧
      reader.inner.taken = dec.reader.inner.taken := by
  have hsource := h.source
  rw [BufReader.fill, if_pos h.buffer]
  simp only [IoSource.read] at hsource ⊢
  rcases hread : (IoSource.read dec.reader.inner.inner dec.reader.capacity : Except IoError _ × R) with
    ⟨e | bytes, inner⟩
  · rw [hread] at hsource
    cases hsource
  · rw [hread] at hsource
    cases hsource
    exact ⟨_, rfl, rfl, h.buffer.symm, List.append_nil _⟩

theorem not_decrypts_nil (key : RsaKey) : ¬ Decrypts key [] := fun h => Nat.ne_of_lt key.len_pos h.1

/-- **A read with nothing left** leaves the decryptor as it was, unless its buffer
    is shorter than a block. -/
theorem unchanged_iff {fuel : ℕ} {dec dec' : RsaDecryptor (Logged R)} {len pos : ℕ}
    {buf : List UInt8} {result : Except IoError ℕ} (h : Delivers key dec pos) (hnone : NoneLeft dec)
    (hread : read fuel dec len = some (buf, result, dec')) :
    Unchanged dec dec' ↔ len = 0 ∨ key.outBlockLen ≤ len := by
  obtain rfl := h.key_eq
  obtain ⟨reader, hfill, hcapacity, hbuffer, htaken⟩ := hnone.fill
  cases fuel with
  | zero => cases hread
  | succ fuel =>
    rw [read, readLoop] at hread
    by_cases hlen : len = 0
    · rw [if_pos hlen] at hread
      cases hread
      exact iff_of_true ⟨rfl, rfl, rfl, rfl, rfl⟩ (Or.inl hlen)
    rw [if_neg hlen] at hread
    have hcases := iterated dec len
    generalize iterate dec len = result at hread hcases
    obtain ⟨result, next⟩ := result
    cases hcases with
    | cursor hout => exact absurd hnone.out hout
    | source hout hfill' => cases hfill.symm.trans hfill'
    | block hout hfill' hfits hdecrypt =>
      cases hfill.symm.trans hfill'
      exact absurd (decrypts_of_ok hdecrypt) (not_decrypts_nil _)
    | blockError hout hfill' hfits hdecrypt =>
      cases hfill.symm.trans hfill'
      cases hread
      exact iff_of_true ⟨rfl, rfl, hcapacity, hbuffer, htaken⟩ (Or.inr hfits)
    | tail hout hfill' hfits hdecrypt =>
      cases hfill.symm.trans hfill'
      exact absurd (decrypts_of_ok hdecrypt) (not_decrypts_nil _)
    | tailError hout hfill' hfits hdecrypt =>
      cases hread
      have hpos : dec.out.inner.length ≤ dec.out.pos := List.drop_eq_nil_iff.1 hout
      rw [h.out] at hpos
      refine iff_of_false (fun hunchanged => ?_) (by omega)
      have hzero : 0 = dec.out.pos := congrArg Cursor.pos hunchanged.out
      omega

/-- A sound read with nothing left does not decrypt into the cursor. -/
theorem fits_of_soundCall {dec : RsaDecryptor (Logged R)} {len : ℕ} (hnone : NoneLeft dec)
    (hsound : SoundCall dec (.read len)) : len = 0 ∨ dec.key.outBlockLen ≤ len := by
  obtain ⟨reader, hfill, -⟩ := hnone.fill
  by_cases hlen : len = 0
  · exact Or.inl hlen
  · exact Or.inr ((hsound 1 hlen).1 hnone.out [] reader hfill (not_decrypts_nil _))

/-- **A failed read does not corrupt the stream**, in a run of such calls: bytes
    are delivered in the order of the plaintext, and a read with nothing left leaves
    the decryptor as it was, as it does exactly if it does not decrypt into the
    cursor. -/
theorem run_inOrder {r : R} {calls : List (Call × List UInt8 × Except IoError ℕ)}
    {dec : RsaDecryptor (Logged R)} (hrun : Run SoundCall (new key (Logged.start r)) calls dec) :
    (∃ stop, InOrder (PlainAt key dec.reader.inner.taken) 0 (calls.flatMap delivered) stop) ∧
    ∀ {len : ℕ} {outcome : List UInt8 × Except IoError ℕ} {dec' : RsaDecryptor (Logged R)}, NoneLeft dec →
      Returns dec (.read len) outcome dec' →
      (SoundCall dec (.read len) → Unchanged dec dec') ∧
      (Unchanged dec dec' ↔ len = 0 ∨ key.outBlockLen ≤ len) := by
  obtain ⟨pos, hadvances⟩ := run_spec (delivers_new key r) hrun
  refine ⟨⟨pos, hadvances.inOrder⟩, fun hnone hcall => ?_⟩
  cases hcall with
  | @read fuel len buf result dec' hread =>
    have hiff := unchanged_iff hadvances.delivers hnone hread
    refine ⟨fun hsound => hiff.2 ?_, hiff⟩
    have hfits := fits_of_soundCall hnone hsound
    rwa [hadvances.delivers.key_eq] at hfits

end

/-! ## A decryptor whose source fails once -/

instance : IoSource IoError (List (Except IoError (List UInt8))) := IoSource.ofResults IoError

/-- A key with three bytes for a block. -/
def threeByteKey : RsaKey := ⟨0x10001, 1, 3, by decide⟩

/-- A decryptor of two blocks, with an error between them. -/
def interrupted : RsaDecryptor (Logged (List (Except IoError (List UInt8)))) :=
  new threeByteKey (Logged.start [.ok [0, 1, 2], .error .Source, .ok [0, 3, 4]])

/-- It has the first block in its cursor, of which some bytes have been read. -/
def interruptedAt (pos : ℕ) : RsaDecryptor (Logged (List (Except IoError (List UInt8)))) where
  key := threeByteKey
  out := ⟨[1, 2], pos⟩
  reader := ⟨3, [], ⟨[.error .Source, .ok [0, 3, 4]], [0, 1, 2]⟩⟩

/-- It is left by the error. -/
def resumed : RsaDecryptor (Logged (List (Except IoError (List UInt8)))) where
  key := threeByteKey
  out := ⟨[1, 2], 2⟩
  reader := ⟨3, [], ⟨[.ok [0, 3, 4]], [0, 1, 2]⟩⟩

/-- A read of a byte fills the cursor, and takes the byte from there. -/
theorem soundCall_interrupted : SoundCall interrupted (.read 1) := by
  have hblock : Decrypts threeByteKey [0, 1, 2] := ⟨rfl, by decide⟩
  have hfirst : iterate interrupted 1 = (.ok [], interruptedAt 0) := rfl
  have hsecond : iterate (interruptedAt 0) 1 = (.ok [1], interruptedAt 1) := rfl
  refine soundRead_of_ok ?_ hfirst (soundRead_of_ok ?_ hsecond (soundRead_zero _))
  · intro _ block reader hfill hnot
    cases hfill
    exact absurd hblock hnot
  · exact fun hout => nomatch hout

/-- A read of a buffer of a block and a byte takes what is left in the cursor, and fails. -/
theorem soundCall_interruptedAt : SoundCall (interruptedAt 1) (.read 3) := by
  have hfirst : iterate (interruptedAt 1) 3 = (.ok [2], interruptedAt 2) := rfl
  have hsecond : iterate (interruptedAt 2) 2 = (.error .Source, resumed) := rfl
  refine soundRead_of_ok ?_ hfirst (soundRead_of_error ?_ hsecond)
  · exact fun hout => nomatch hout
  · intro _ block reader hfill
    cases hfill

/-- The rest is the second block. -/
theorem soundCall_resumed : SoundCall resumed (.readToEnd [9]) := by
  intro bytes result reader hdrain
  cases hdrain
  have hblock : Decrypts threeByteKey [0, 3, 4] := ⟨rfl, by decide⟩
  exact .inr ⟨rfl, [[0, 3, 4]], rfl, List.forall_mem_singleton.2 hblock⟩

theorem run_inOrder_interrupted : ∃ dec,
    Run SoundCall interrupted [(.read 1, [1], .ok 1), (.read 3, [2], .error .Source),
      (.readToEnd [9], [9, 3, 4], .ok 2)] dec ∧
    (∃ stop, InOrder (PlainAt threeByteKey dec.reader.inner.taken) 0 [1, 2, 3, 4] stop) ∧
    NoneLeft dec ∧ ∀ {outcome dec'}, Returns dec (.read 2) outcome dec' → Unchanged dec dec' := by
  have hrun : Run SoundCall interrupted [(.read 1, [1], .ok 1), (.read 3, [2], .error .Source),
      (.readToEnd [9], [9, 3, 4], .ok 2)] (readToEnd resumed [9]).2.2 :=
    .cons soundCall_interrupted (@Returns.read _ _ _ 3 _ _ _ _ rfl)
      (.cons soundCall_interruptedAt (@Returns.read _ _ _ 2 _ _ _ _ rfl)
        (.cons soundCall_resumed (.readToEnd [9]) (.nil _)))
  have hnone : NoneLeft (readToEnd resumed [9]).2.2 := ⟨rfl, rfl, rfl⟩
  obtain ⟨hinOrder, hunchanged⟩ := run_inOrder hrun
  exact ⟨_, hrun, hinOrder, hnone, fun h => (hunchanged hnone h).2.2 (.inr (Nat.le_refl _))⟩

/-! ## A decryptor at the end of its source -/

instance : IoSource IoError (List UInt8) := IoSource.ofSlice IoError

/-- A decryptor of nothing. -/
def emptyDecryptor : RsaDecryptor (Logged (List UInt8)) := new threeByteKey (Logged.start [])

theorem noneLeft_emptyDecryptor : NoneLeft emptyDecryptor := ⟨rfl, rfl, rfl⟩

/-- After a read of one byte has failed at the end of a source, the next one
    delivers a zero, and the first one has changed the decryptor. -/
theorem not_run_inOrder : ∃ dec dec',
    Returns emptyDecryptor (.read 1) ([], .error (.InvalidInput (.Size 3))) dec ∧
    Returns dec (.read 1) ([0], .ok 1) dec' ∧
    NoneLeft emptyDecryptor ∧ ¬ Unchanged emptyDecryptor dec ∧
    ¬ ∃ stop, InOrder (PlainAt threeByteKey dec'.reader.inner.taken) 0 [0] stop := by
  refine ⟨(iterate emptyDecryptor 1).2, (iterate (iterate emptyDecryptor 1).2 1).2,
    @Returns.read _ _ _ 1 _ _ _ _ rfl, @Returns.read _ _ _ 2 _ _ _ _ rfl, noneLeft_emptyDecryptor, ?_, ?_⟩
  · intro hunchanged
    have hpos : 0 = 2 := congrArg Cursor.pos hunchanged.out
    cases hpos
  · rintro ⟨stop, horder⟩
    cases horder with
    | cons hle hplain hrest =>
      obtain ⟨i, j, before, block, after, out, hcipher, -, hdecrypt, -⟩ := hplain
      have hnil : block = [] := (List.append_eq_nil_iff.1 (List.append_eq_nil_iff.1 hcipher.symm).2).1
      exact not_decrypts_nil _ (hnil ▸ decrypts_of_ok hdecrypt)

end Fsvfs.Crypto.RsaDecryptor.Failing
