/-
  Reading an encrypted file, chunk by chunk.

  Every chunk is decrypted with what the chunk before it has become (`prevOf`) and
  with the stored bytes after it (`following`).

  * `readAt_stored`: the run of a request for a file with a stored record.
-/
import Fsvfs.Dvdbnd.Request
import Fsvfs.Dvdbnd.Store

namespace Fsvfs.Dvdbnd

open Lib Lib.Checked Traced Bhd5

/-- The number of chunks. -/
def chunkCount (start stop : ℕ) : ℕ := (stop - start + (BUFFER_LEN - 1)) / BUFFER_LEN

theorem lt_chunkCount {start stop k : ℕ} : k < chunkCount start stop ↔ start + k * BUFFER_LEN < stop := by
  have hsize : BUFFER_LEN = 32768 := rfl
  rw [chunkCount, Nat.lt_iff_add_one_le, Nat.le_div_iff_mul_le (by rw [hsize]; omega), Nat.succ_mul]
  omega

theorem chunkCount_of_le {start stop : ℕ} (h : stop ≤ start) : chunkCount start stop = 0 := by
  by_contra hne
  have := lt_chunkCount.1 (Nat.pos_of_ne_zero hne)
  omega

theorem chunkCount_of_lt {start stop : ℕ} (h : start < stop) :
    chunkCount start stop = chunkCount (start + BUFFER_LEN) stop + 1 := by
  have hsize : BUFFER_LEN = 32768 := rfl
  rw [chunkCount, chunkCount, hsize]
  omega

section
variable (F : ℕ → UInt8) (next : List UInt8) (D : Ciphertext → List UInt8) (stop c : ℕ)
  (prev : List UInt8)

/-- The bytes of the chunk at a position. -/
def chunkBytes : List UInt8 := window F c (min (stop - c) BUFFER_LEN)

/-- The bytes after the chunk at a position. -/
def following : List UInt8 :=
  if c + BUFFER_LEN < stop then chunkBytes F stop (c + BUFFER_LEN) else next

/-- The ciphertext of the chunk at a position. -/
def round : Ciphertext :=
  ⟨chunkBytes F stop c, lastBlock prev, firstBlock (following F next stop c), c.toUInt32⟩

/-- What stands before a chunk. -/
def prevOf : ℕ → List UInt8
  | 0 => prev
  | k + 1 => D (round F next stop (c + k * BUFFER_LEN) (prevOf k))

/-- The ciphertext of a chunk. -/
def roundAt (k : ℕ) : Ciphertext :=
  round F next stop (c + k * BUFFER_LEN) (prevOf F next D stop c prev k)

/-- What happens to all chunks. -/
def rounds : List Event := (List.range (chunkCount c stop)).flatMap fun k =>
  [.decrypt (roundAt F next D stop c prev k),
    .callback (D (roundAt F next D stop c prev k)) (c + k * BUFFER_LEN)]

theorem roundAt_zero : roundAt F next D stop c prev 0 = round F next stop c prev := by
  rw [roundAt, prevOf, Nat.zero_mul, Nat.add_zero]

theorem prevOf_succ (k : ℕ) : prevOf F next D stop c prev (k + 1) =
    prevOf F next D stop (c + BUFFER_LEN) (D (round F next stop c prev)) k := by
  induction k with
  | zero => rw [prevOf, prevOf, prevOf, Nat.zero_mul, Nat.add_zero]
  | succ k ih =>
    have hpos : c + (k + 1) * BUFFER_LEN = c + BUFFER_LEN + k * BUFFER_LEN := by
      rw [Nat.succ_mul]
      omega
    rw [prevOf, ih, hpos]
    rfl

theorem roundAt_succ (k : ℕ) : roundAt F next D stop c prev (k + 1) =
    roundAt F next D stop (c + BUFFER_LEN) (D (round F next stop c prev)) k := by
  have hpos : c + (k + 1) * BUFFER_LEN = c + BUFFER_LEN + k * BUFFER_LEN := by
    rw [Nat.succ_mul]
    omega
  rw [roundAt, roundAt, prevOf_succ, hpos]

variable {F next D stop c prev}

theorem rounds_of_le (h : stop ≤ c) : rounds F next D stop c prev = [] := by
  rw [rounds, chunkCount_of_le h]
  rfl

/-- **The first chunk and the others.** -/
theorem rounds_of_lt (h : c < stop) : rounds F next D stop c prev =
    .decrypt (round F next stop c prev) :: .callback (D (round F next stop c prev)) c ::
      rounds F next D stop (c + BUFFER_LEN) (D (round F next stop c prev)) := by
  have hrest : ∀ k, [Event.decrypt (roundAt F next D stop c prev (k + 1)),
      .callback (D (roundAt F next D stop c prev (k + 1))) (c + (k + 1) * BUFFER_LEN)] =
      [.decrypt (roundAt F next D stop (c + BUFFER_LEN) (D (round F next stop c prev)) k),
        .callback (D (roundAt F next D stop (c + BUFFER_LEN) (D (round F next stop c prev)) k))
          (c + BUFFER_LEN + k * BUFFER_LEN)] := fun k => by
    have hpos : c + (k + 1) * BUFFER_LEN = c + BUFFER_LEN + k * BUFFER_LEN := by
      rw [Nat.succ_mul]
      omega
    rw [roundAt_succ, hpos]
  rw [rounds, chunkCount_of_lt h, List.range_succ_eq_map, List.flatMap_cons, List.flatMap_map, roundAt_zero,
    Nat.zero_mul, Nat.add_zero, rounds]
  simp only [Nat.succ_eq_add_one, hrest]
  rfl

theorem ciphertexts_rounds : ciphertexts (rounds F next D stop c prev) =
    (List.range (chunkCount c stop)).map (roundAt F next D stop c prev) := by
  rw [ciphertexts, rounds, List.filterMap_flatMap, List.map_eq_flatMap]
  rfl

/-- The bytes after a chunk are those of the next buffer. -/
theorem firstBytesOf_chunkBuffers {post : List AlignedBuffer} :
    firstBytesOf (chunkBuffers F (c + BUFFER_LEN) stop ++ post) = following F (firstBytesOf post) stop c := by
  rw [following]
  split_ifs with h
  · rw [chunkBuffers_of_lt h, List.cons_append, firstBytesOf_cons, chunkBytes]
  · rw [chunkBuffers_of_le (Nat.not_lt.1 h), List.nil_append]

/-- **The loop over the chunks.** -/
theorem sweepAll_eq_rounds {start : ℕ} {decrypt : Ciphertext → Checked (List UInt8)}
    {post : List AlignedBuffer} (hstop : stop < 2 ^ 32)
    (hD : ∀ ciphertext, ciphertext.fileOffset.toNat + ciphertext.body.length < 2 ^ 32 →
      decrypt ciphertext = .ok (D ciphertext))
    (hpost : ∀ b ∈ post, (stop : ℤ) ≤ b.offset) (hc : start ≤ c) :
    sweepAll start stop decrypt prev (chunkBuffers F c stop ++ post) =
      emit (rounds F (firstBytesOf post) D stop c prev) := by
  induction c using chunks_induction stop generalizing prev with
  | nil c hle =>
    rw [chunkBuffers_of_le hle, List.nil_append, sweepAll_of_skipped fun b hb => .inr (hpost b hb),
      rounds_of_le hle]
    rfl
  | cons c hlt ih =>
    have hsize : BUFFER_LEN = 32768 := rfl
    have hround : (⟨window F c (min (stop - c) BUFFER_LEN), c⟩ : AlignedBuffer).ciphertext prev
        (firstBytesOf (chunkBuffers F (c + BUFFER_LEN) stop ++ post)) =
          round F (firstBytesOf post) stop c prev := by
      rw [firstBytesOf_chunkBuffers, AlignedBuffer.ciphertext, Int.toNat_natCast, round, chunkBytes]
    have hoffset : (round F (firstBytesOf post) stop c prev).fileOffset.toNat = c :=
      UInt32.toNat_ofNat_of_lt' (by show c < 2 ^ 32; omega)
    have hdecrypt : decrypt (round F (firstBytesOf post) stop c prev) =
        .ok (D (round F (firstBytesOf post) stop c prev)) := by
      refine hD _ ?_
      rw [hoffset, round, chunkBytes, length_window]
      omega
    rw [← hround] at hdecrypt
    have hone := sweepOne_of_decrypt rfl hc hlt hdecrypt
    rw [hround] at hone
    have hrest : ∀ buf : AlignedBuffer, sweepAll start stop decrypt buf.bytes
        (chunkBuffers F (c + BUFFER_LEN) stop ++ post) =
          emit (rounds F (firstBytesOf post) D stop (c + BUFFER_LEN) buf.bytes) := fun _ => ih (by omega)
    rw [chunkBuffers_of_lt hlt, List.cons_append, sweepAll_cons, hone]
    simp only [hrest]
    rw [ok_bind_emit, rounds_of_lt hlt, List.cons_append, List.singleton_append]

end

/-! ## Stored records -/

/-- What `Aes128::decrypt` makes of the body of a ciphertext. -/
def decrypted (cipher : BlockCipher) (ranges : List Range) (ciphertext : Ciphertext) : List UInt8 :=
  (reached ciphertext.fileOffset.toNat (ciphertext.fileOffset.toNat + ciphertext.body.length) ranges).foldl
    (decryptRange cipher ciphertext.head.toList ciphertext.tail.toList ciphertext.fileOffset.toNat)
    ciphertext.body

theorem length_decrypted (cipher : BlockCipher) (ranges : List Range) (ciphertext : Ciphertext) :
    (decrypted cipher ranges ciphertext).length = ciphertext.body.length :=
  length_foldl_decryptRange (by simp [BLOCK_SIZE]) (by simp [BLOCK_SIZE]) _ _

/-- **What becomes of a chunk.** -/
theorem decrypted_round {cipher : BlockCipher} {ranges : List Range} {F : ℕ → UInt8} {prev next : List UInt8}
    {c stop : ℕ} (hstop : stop < 2 ^ 32) (hc : c < stop) :
    decrypted cipher ranges (round F next stop c prev) =
      (reached c (c + min (stop - c) BUFFER_LEN) ranges).foldl (decryptRange cipher (lastBlock prev).toList
        (firstBlock (following F next stop c)).toList c) (window F c (min (stop - c) BUFFER_LEN)) := by
  have hoffset : (round F next stop c prev).fileOffset.toNat = c :=
    UInt32.toNat_ofNat_of_lt' (by show c < 2 ^ 32; omega)
  rw [decrypted, hoffset]
  show (reached c (c + (chunkBytes F stop c).length) ranges).foldl (decryptRange cipher
    (lastBlock prev).toList (firstBlock (following F next stop c)).toList c) (chunkBytes F stop c) = _
  rw [chunkBytes, length_window]

/-- The file has a record, which `store_encryption` wrote for the ranges. -/
def Stored {E : Type} [FileEntry E] (fs : DvdbndRofs) (file : DvdbndFile) (entry : E)
    (encryption : Encryption) : Prop :=
  ∃ id out out' rest, file.encryptionId = some id ∧
    fs.encryptionStore.get file.srcId = some (out' ++ rest) ∧
    storeEncryption entry encryption out = .ok (id, out')

/-- The ranges of a stored record have 32 bits and are sorted. -/
theorem Stored.ranges {E : Type} [FileEntry E] {fs : DvdbndRofs} {file : DvdbndFile} {entry : E}
    {encryption : Encryption} (h : Stored fs file entry encryption) :
    (∀ r ∈ recordRanges encryption, r.Fits) ∧
      (recordRanges encryption).Pairwise fun a b => a.extent.stop ≤ b.extent.stop := by
  obtain ⟨id, out, out', rest, -, -, hstore⟩ := h
  have hfits := fits_recordRanges (storeEncryption_eq_ok.1 hstore).1 (FileEntry.fileSize entry).toNat_lt
  exact ⟨hfits, pairwise_recordRanges hfits⟩

/-- The ranges of the entry have been accepted. -/
theorem Stored.accepted {E : Type} [FileEntry E] {fs : DvdbndRofs} {file : DvdbndFile} {entry : E}
    {encryption : Encryption} (h : Stored fs file entry encryption) :
    ∀ r ∈ encryption.ranges, r.Accepted (FileEntry.fileSize entry).toNat := by
  obtain ⟨_, _, _, _, -, -, hstore⟩ := h
  exact (storeEncryption_eq_ok.1 hstore).1

/-- **Every ciphertext of a file with a stored record is decrypted.** -/
theorem Stored.decrypt_eq {E : Type} [FileEntry E] {fs : DvdbndRofs} {file : DvdbndFile} {entry : E}
    {encryption : Encryption} (h : Stored fs file entry encryption) : ∃ id store,
      file.encryptionId = some id ∧ fs.encryptionStore.get file.srcId = some store ∧
        ∀ (aes : Vector UInt8 16 → BlockCipher) (ciphertext : Ciphertext),
          ciphertext.fileOffset.toNat + ciphertext.body.length < 2 ^ 32 →
            decrypt aes store id ciphertext =
              .ok (decrypted (aes encryption.key) (recordRanges encryption) ciphertext) := by
  obtain ⟨hfits, hsorted⟩ := h.ranges
  obtain ⟨id, out, out', rest, hid, hget, hstore⟩ := h
  obtain ⟨rangeCount, hrecord⟩ := record_of_store hstore rest
  exact ⟨id, out' ++ rest, hid, hget, fun aes ciphertext hlen =>
    Dvdbnd.decrypt_eq hrecord hfits hsorted aes ciphertext hlen⟩

/-- A file made from an entry of an archive, with its encryption data. -/
structure FromEntry {E : Type} [FileEntry E] (fs : DvdbndRofs) (file : DvdbndFile) (entry : E)
    (encryption : Option Encryption) : Prop where
  file_eq : file = entryFile file.srcId entry file.encryptionId
  plain : encryption = none → file.encryptionId = none
  stored : ∀ e ∈ encryption, Stored fs file entry e

theorem FromEntry.len_eq {E : Type} [FileEntry E] {fs : DvdbndRofs} {file : DvdbndFile} {entry : E}
    {encryption : Option Encryption} (h : FromEntry fs file entry encryption) :
    file.len = FileEntry.fileSize entry := by
  rw [h.file_eq]
  rfl

namespace DvdbndMount
variable {mount : DvdbndMount} {file : DvdbndFile} {reader : ReadManagedAt} {bdt : ℕ → UInt8}
  {o l : ℕ} {E : Type} [FileEntry E] {entry : E} {encryption : Encryption}

variable (platform : Platform) (file bdt o l) in
/-- The bytes before and after a request, as they are stored. -/
structure Neighbours (prev next : List UInt8) : Prop where
  prev : ∃ m, min 16 o ≤ m ∧ m ≤ file.dataOffset.toNat + o ∧
    prev = window bdt (file.dataOffset.toNat + o - m) m
  next : 0 < l → ∃ m, min 16 (file.len.toNat - (o + l)) ≤ m ∧
    next = window bdt (file.dataOffset.toNat + (o + l)) m

/-- **A request for a file with a stored record.** -/
theorem readAt_stored (hstop : o + l < 2 ^ 32) (hstored : Stored mount.fs file entry encryption)
    (hreader : mount.bdts file.srcId = .ok reader) (hexact : Exact reader bdt) (hin : file.InBounds o l)
    (hwindows : file.HasWindows mount.platform o l) :
    ∃ prev next, Neighbours file bdt o l prev next ∧ mount.readAt file o l =
      if file.len = 0 ∧ file.dataOffset.toNat < mount.platform.windowSize then lift (.error .panic)
      else emit (rounds (fun i => bdt (file.dataOffset.toNat + i)) next
        (decrypted (mount.aes encryption.key) (recordRanges encryption)) (o + l) o prev) := by
  obtain ⟨id, store, hid, hget, hdecrypt⟩ := hstored.decrypt_eq
  obtain ⟨pre, post, hpieces, hrun⟩ :=
    readAt_encrypted hstop hid hget hreader hexact hin hwindows
  refine ⟨firstBytesOf pre, firstBytesOf post, ⟨?_, fun hl => ?_⟩, ?_⟩
  · obtain ⟨m, hm, hle, heq⟩ := hpieces.prev
    exact ⟨m, by omega, hle, heq⟩
  · obtain ⟨m, hm, heq⟩ := hpieces.next hl
    exact ⟨m, by omega, by rw [heq, Nat.add_assoc]⟩
  · have hpost : ∀ b ∈ post, ((o + l : ℕ) : ℤ) ≤ b.offset := fun b hb => by
      have := hpieces.post_ge b hb
      push_cast at this ⊢
      omega
    have hsweep : sweepAll o (o + l) (decrypt mount.aes store id) (firstBytesOf pre)
        (chunkBuffers (fun i => bdt (file.dataOffset.toNat + i)) o (o + l) ++ post) = _ :=
      sweepAll_eq_rounds hstop (hdecrypt mount.aes) hpost (Nat.le_refl o)
    rw [hrun, hsweep]
    congr 1
    rw [eq_iff_iff]
    have hlen : file.len = 0 ↔ file.len.toNat = 0 := UInt32.toNat_inj.symm
    rw [hlen]
    have hle := hin.2
    constructor
    · intro hnil
      obtain ⟨hnil, hpost⟩ := List.append_eq_nil_iff.1 hnil
      obtain ⟨hpre, hbody⟩ := List.append_eq_nil_iff.1 hnil
      have hl : l = 0 := by
        by_contra hne
        rw [chunkBuffers_of_lt (by omega)] at hbody
        cases hbody
      obtain ⟨hzero, hlt⟩ := hpieces.eq_nil (by rw [hpre, hpost]; rfl) hl
      exact ⟨hzero, by omega⟩
    · rintro ⟨hzero, hlt⟩
      obtain ⟨hpre, hpost⟩ := List.append_eq_nil_iff.1 (hpieces.ne_nil hzero (by omega))
      rw [hpre, hpost, chunkBuffers_of_le (by omega)]
      rfl

end DvdbndMount

end Fsvfs.Dvdbnd
