/-
  The bytes that a request for a file gets.

  `readsContents_iff`: they are those of the decrypted file, unless a chunk after
  the first one begins inside of a block, or the request begins inside of a block
  and goes on after it in the same range.
-/
import Fsvfs.Dvdbnd.Neighbours

namespace Fsvfs.Dvdbnd

open Lib Lib.Checked Traced Bhd5

/-- The bytes that the callback gets. -/
def delivered (events : List Event) : List UInt8 := ((callbacks events).map Prod.fst).flatten

@[simp] theorem delivered_nil : delivered [] = [] := rfl

@[simp] theorem delivered_decrypt (ciphertext : Ciphertext) (es : List Event) :
    delivered (.decrypt ciphertext :: es) = delivered es := rfl

@[simp] theorem delivered_callback (buffer : List UInt8) (fileOffset : ℕ) (es : List Event) :
    delivered (.callback buffer fileOffset :: es) = buffer ++ delivered es := rfl

/-- The chunks of a plain file. -/
theorem delivered_chunkBuffers {F : ℕ → UInt8} {start stop : ℕ} :
    delivered ((chunkBuffers F start stop).map fun b => .callback b.bytes b.offset.toNat) =
      window F start (stop - start) := by
  induction start using chunks_induction stop with
  | nil start hle =>
    rw [chunkBuffers_of_le hle, Nat.sub_eq_zero_of_le hle]
    rfl
  | cons start hlt ih =>
    rw [chunkBuffers_of_lt hlt, List.map_cons, delivered_callback, ih, ← Nat.sub_sub]
    exact window_min_append F _ _ _

/-! ## Chunks -/

section
variable {F : ℕ → UInt8} {prev next : List UInt8} {c stop : ℕ} {cipher : BlockCipher} {ranges : List Range}

/-- Ranges that are apart are in order, if they are sorted by their ends. -/
theorem inOrder_of_apart {w n : ℕ} (hne : ∀ r ∈ ranges, r.extent.start < r.extent.stop)
    (hsorted : ranges.Pairwise fun a b => a.extent.stop ≤ b.extent.stop)
    (hapart : ranges.Pairwise fun r s => r.extent.Apart s.extent) : InOrder ranges w n := by
  refine List.Pairwise.imp_of_mem (fun {r s} hr hs h => ?_) (List.pairwise_and_iff.2 ⟨hsorted, hapart⟩)
  obtain ⟨hle, hrs⟩ := h
  have hlt := hne r hr
  rintro hge i hi ⟨hstart, hstop⟩
  exact hrs (r.extent.stop - 1) ⟨⟨by omega, by omega⟩, ⟨by omega, by omega⟩⟩

/-- **A chunk is decrypted**, if no range goes on after a block that it begins
    inside of, and the blocks that its ends cut are those of the file. -/
theorem decrypted_round_eq (hstop : stop < 2 ^ 32) (hc : c < stop)
    (hsorted : ranges.Pairwise fun a b => a.extent.stop ≤ b.extent.stop)
    (hapart : ranges.Pairwise fun r s => r.extent.Apart s.extent)
    (hne : ∀ r ∈ ranges, r.extent.start < r.extent.stop)
    (h : ∀ r ∈ ranges, r.OneBlock c (c + min (stop - c) BUFFER_LEN) ∧
      r.HeadFits F (lastBlock prev).toList c ∧
      r.TailFits F (firstBlock (following F next stop c)).toList (c + min (stop - c) BUFFER_LEN)) :
    decrypted cipher ranges (round F next stop c prev) =
      window (plain cipher F ranges) c (min (stop - c) BUFFER_LEN) := by
  rw [decrypted_round hstop hc, foldl_decryptRange_eq (by simp [BLOCK_SIZE]) (by simp [BLOCK_SIZE]) hapart
    (fun r hr => lt_of_mem_reached hsorted hr) h]
  exact fun r hr i hi hmem => mem_reached (inOrder_of_apart hne hsorted hapart) hi hr hmem

/-- The chunks after the first one begin with whole blocks, and no range goes on
    after a block that the first one begins inside of. -/
structure ChunksFit (ranges : List Range) (o l : ℕ) : Prop where
  one : ∀ r ∈ ranges, r.OneBlock o (o + l)
  whole : ∀ k, o + (k + 1) * BUFFER_LEN < o + l → ∀ r ∈ ranges, ¬ r.Cuts (o + (k + 1) * BUFFER_LEN)

/-- **The chunks of an encrypted file.** -/
theorem delivered_rounds (hstop : stop < 2 ^ 32)
    (hsorted : ranges.Pairwise fun a b => a.extent.stop ≤ b.extent.stop)
    (hapart : ranges.Pairwise fun r s => r.extent.Apart s.extent)
    (hne : ∀ r ∈ ranges, r.extent.start < r.extent.stop)
    (hone : c < stop → ∀ r ∈ ranges, r.OneBlock c stop)
    (hwhole : ∀ k, c + (k + 1) * BUFFER_LEN < stop → ∀ r ∈ ranges, ¬ r.Cuts (c + (k + 1) * BUFFER_LEN))
    (hhead : c < stop → ∀ r ∈ ranges, r.HeadFits F (lastBlock prev).toList c)
    (htail : c < stop → ∀ r ∈ ranges, r.TailFits F (firstBlock next).toList stop) :
    delivered (rounds F next (decrypted cipher ranges) stop c prev) =
      window (plain cipher F ranges) c (stop - c) := by
  induction c using chunks_induction stop generalizing prev with
  | nil c hle =>
    rw [rounds_of_le hle, Nat.sub_eq_zero_of_le hle]
    rfl
  | cons c hlt ih =>
    have hsize : BUFFER_LEN = 32768 := rfl
    -- no block is cut between this chunk and the next one
    have hcut : c + BUFFER_LEN < stop → ∀ r ∈ ranges, ¬ r.Cuts (c + BUFFER_LEN) := by
      intro hnext r hr
      have := hwhole 0 (by omega) r hr
      rwa [Nat.zero_add, Nat.one_mul] at this
    have hround : decrypted cipher ranges (round F next stop c prev) = _ :=
      decrypted_round_eq hstop hlt hsorted hapart hne fun r hr => by
        refine ⟨fun hcuts => ?_, hhead hlt r hr, ?_⟩
        · have := hone hlt r hr hcuts
          omega
        · rw [following]
          split_ifs with hnext
          · rw [Nat.min_eq_right (by omega)]
            exact fun hcuts => absurd hcuts (hcut hnext r hr)
          · rw [show c + min (stop - c) BUFFER_LEN = stop by omega]
            exact htail hlt r hr
    have hrest : delivered (rounds F next (decrypted cipher ranges) stop (c + BUFFER_LEN)
        (decrypted cipher ranges (round F next stop c prev))) = _ := ih
      (fun hnext r hr hcuts => absurd hcuts (hcut hnext r hr))
      (fun k hk r hr => by
        have hpos : c + BUFFER_LEN + (k + 1) * BUFFER_LEN = c + (k + 1 + 1) * BUFFER_LEN := by
          rw [Nat.succ_mul (k + 1)]
          omega
        rw [hpos] at hk ⊢
        exact hwhole (k + 1) hk r hr)
      (fun hnext r hr hcuts => absurd hcuts (hcut hnext r hr)) fun hnext => htail hlt
    rw [rounds_of_lt hlt, delivered_decrypt, delivered_callback, hrest, hround, ← Nat.sub_sub,
      window_min_append]

/-- If the bytes are those of a file, then every chunk has become its part. -/
theorem roundAt_of_delivered {D : Ciphertext → List UInt8} {P : ℕ → UInt8}
    (hD : ∀ ciphertext, (D ciphertext).length = ciphertext.body.length)
    (h : delivered (rounds F next D stop c prev) = window P c (stop - c)) {k : ℕ}
    (hk : k < chunkCount c stop) : D (roundAt F next D stop c prev k) =
      window P (c + k * BUFFER_LEN) (min (stop - (c + k * BUFFER_LEN)) BUFFER_LEN) := by
  induction c using chunks_induction stop generalizing prev k with
  | nil c hle =>
    rw [chunkCount_of_le hle] at hk
    exact absurd hk (Nat.not_lt_zero k)
  | cons c hlt ih =>
    have hlen : (D (round F next stop c prev)).length = min (stop - c) BUFFER_LEN := by
      rw [hD]
      exact length_window F c _
    rw [rounds_of_lt hlt, delivered_decrypt, delivered_callback,
      ← window_min_append P c (stop - c) BUFFER_LEN, Nat.sub_sub] at h
    obtain ⟨hfirst, hrest⟩ := List.append_inj h (by rw [hlen, length_window])
    cases k with
    | zero => rw [roundAt_zero, Nat.zero_mul, Nat.add_zero, hfirst]
    | succ k =>
      have hpos : c + (k + 1) * BUFFER_LEN = c + BUFFER_LEN + k * BUFFER_LEN := by
        rw [Nat.succ_mul]
        omega
      rw [chunkCount_of_lt hlt] at hk
      rw [roundAt_succ, ih hrest (Nat.lt_of_succ_lt_succ hk), hpos]

/-- What makes ones of zeros, and zeros of everything else. -/
def flipCipher : BlockCipher where
  decryptBlock b := if b = .replicate BLOCK_SIZE 0 then .replicate BLOCK_SIZE 1 else .replicate BLOCK_SIZE 0
  length_decryptBlock b _ := by
    split_ifs
    · exact List.length_replicate
    · exact List.length_replicate

theorem decryptBlock_flipCipher_zeros :
    flipCipher.decryptBlock (.replicate BLOCK_SIZE 0) = .replicate BLOCK_SIZE 1 := by decide

theorem decryptBlock_flipCipher {b : List UInt8} (h : b ≠ .replicate BLOCK_SIZE 0) :
    flipCipher.decryptBlock b = .replicate BLOCK_SIZE 0 := if_neg h

/-- A block that is cut has become zeros, if its head is not zero. -/
theorem getElem?_foldl_flipCipher {head tail bytes : List UInt8} {w : ℕ} (hheadLen : head.length = BLOCK_SIZE)
    (htailLen : tail.length = BLOCK_SIZE) (hbytes : 0 < bytes.length)
    (hafter : ∀ r ∈ ranges, w < r.extent.stop)
    (hapart : ranges.Pairwise fun r s => r.extent.Apart s.extent) {range : Range} (hrange : range ∈ ranges)
    (hcut : range.Cuts w) (hhead : head[BLOCK_SIZE - range.into w]? = some 1) :
    (ranges.foldl (decryptRange flipCipher head tail w) bytes)[0]? = some 0 := by
  have hblock : BLOCK_SIZE = 16 := rfl
  have hinto : range.into w < BLOCK_SIZE := Nat.mod_lt _ (by decide)
  induction ranges generalizing bytes with
  | nil => exact nomatch hrange
  | cons r ranges ih =>
    obtain ⟨hr, hranges⟩ := List.forall_mem_cons.1 hafter
    obtain ⟨hrs, hapart⟩ := List.pairwise_cons.1 hapart
    rw [List.foldl_cons]
    rcases List.mem_cons.1 hrange with rfl | hrange
    · have hpos : range.into w ≠ 0 := hcut.2
      -- the block begins with the head, which is not zero
      have hfirst : (firstBytes flipCipher head tail (range.into w) bytes)[0]? = some 0 := by
        have hne : head.drop (BLOCK_SIZE - range.into w) ++
            bytes.take (min (BLOCK_SIZE - range.into w) bytes.length) ++
              tail.take (BLOCK_SIZE - (range.into w + min (BLOCK_SIZE - range.into w) bytes.length)) ≠
                .replicate BLOCK_SIZE 0 := by
          intro heq
          have hbyte := congrArg (·[0]?) heq
          rw [List.append_assoc, List.getElem?_append_left (by rw [List.length_drop]; omega),
            List.getElem?_drop, Nat.add_zero, hhead, List.getElem?_replicate_of_lt (by omega)] at hbyte
          exact absurd hbyte (by decide)
        rw [firstBytes, decryptBlock_flipCipher hne, List.getElem?_take_of_lt (by omega), List.getElem?_drop,
          List.getElem?_replicate_of_lt (by omega)]
      have hlen : (firstBytes flipCipher head tail (range.into w) bytes).length = _ :=
        length_firstBytes hheadLen htailLen hinto bytes
      have hone : (decryptRange flipCipher head tail w bytes range)[0]? = some 0 := by
        have hrest : (firstBytes flipCipher head tail (range.into w) bytes ++
            bytes.drop (BLOCK_SIZE - range.into w)).length = bytes.length := by
          rw [List.length_append, hlen, List.length_drop]
          omega
        rw [decryptRange]
        dsimp only
        rw [if_pos hcut]
        split_ifs with hge
        · rw [List.getElem?_append_left (by omega), hfirst]
        · rw [getElem?_midBytes htailLen (by omega) (by omega) (.inl (by omega)),
            List.getElem?_append_left (by omega), hfirst]
      rw [getElem?_foldl_decryptRange (i := 0) hheadLen htailLen fun s hs => ⟨hranges s hs, fun htouch =>
        hrs s hs w ⟨hcut.1, htouch.1⟩⟩, hone]
    · exact ih (by rwa [length_decryptRange hheadLen htailLen]) hranges hapart hrange

/-- If the bytes of a file of zeros are decrypted, then its chunks fit. -/
theorem chunksFit_of_delivered {o l : ℕ} (hstop : o + l < 2 ^ 32)
    (hsorted : ranges.Pairwise fun a b => a.extent.stop ≤ b.extent.stop)
    (hapart : ranges.Pairwise fun r s => r.extent.Apart s.extent)
    (hne : ∀ r ∈ ranges, r.extent.start < r.extent.stop)
    (h : delivered (rounds (fun _ => 0) next (decrypted flipCipher ranges) (o + l) o prev) =
      window (plain flipCipher (fun _ => 0) ranges) o l) : ChunksFit ranges o l := by
  have hbuffer : BUFFER_LEN = 32768 := rfl
  have hblock : BLOCK_SIZE = 16 := rfl
  have hsymm : Std.Symm fun r s : Range => r.extent.Apart s.extent := ⟨fun _ _ h i hi => h i hi.symm⟩
  have hones : ∀ r ∈ ranges, ∀ i, r.extent.Mem i → plain flipCipher (fun _ => 0) ranges i = 1 :=
    fun r hr i hi => plain_zeros decryptBlock_flipCipher_zeros hapart hr hi
  have hlen : o + l - o = l := Nat.add_sub_cancel_left o l
  have hchunk : ∀ k < chunkCount o (o + l),
      decrypted flipCipher ranges (roundAt (fun _ => 0) next (decrypted flipCipher ranges) (o + l) o prev k) =
        window (plain flipCipher (fun _ => 0) ranges) (o + k * BUFFER_LEN)
          (min (o + l - (o + k * BUFFER_LEN)) BUFFER_LEN) :=
    fun k hk => roundAt_of_delivered (length_decrypted flipCipher ranges) (by rw [h, hlen]) hk
  constructor
  · intro r hr hcut
    by_contra hlt
    have hinto : r.into o < BLOCK_SIZE := Nat.mod_lt _ (by decide)
    have hpos : r.into o ≠ 0 := hcut.2
    have hstart := hcut.1.1
    have hdef : r.into o = (o - r.extent.start) % BLOCK_SIZE := rfl
    have ho : 0 < o := by
      rcases Nat.eq_zero_or_pos o with rfl | ho
      · exact absurd (by rw [hdef, Nat.zero_sub, Nat.zero_mod]) hpos
      · exact ho
    have hmem : r.extent.Mem (o + (BLOCK_SIZE - r.into o)) := ⟨by omega, by omega⟩
    have hi : BLOCK_SIZE - r.into o < min (o + l - o) BUFFER_LEN := by omega
    have hzero := hchunk 0 (lt_chunkCount.2 (by omega))
    rw [roundAt_zero, Nat.zero_mul, Nat.add_zero, decrypted_round hstop (by omega)] at hzero
    -- the byte after the block is left alone
    have hbyte := congrArg (·[BLOCK_SIZE - r.into o]?) hzero
    rw [getElem?_window _ hi, hones r hr _ hmem, getElem?_foldl_decryptRange (by simp [BLOCK_SIZE])
      (by simp [BLOCK_SIZE]), getElem?_window _ hi] at hbyte
    · exact absurd hbyte (by decide)
    · intro s hs
      refine ⟨lt_of_mem_reached hsorted hs, fun htouch => ?_⟩
      by_cases heq : r = s
      · rw [← heq] at htouch
        exact htouch.2 ⟨hcut, by omega, by omega⟩
      · exact hapart.forall hr ((reached_sublist _ _ _).subset hs) heq _ ⟨hmem, htouch.1⟩
  · intro k hk r hr hcut
    have hcount : k + 1 < chunkCount o (o + l) := lt_chunkCount.2 hk
    have hprev := hchunk k (Nat.lt_of_succ_lt hcount)
    have hzero := hchunk (k + 1) hcount
    rw [roundAt, prevOf, ← roundAt, hprev, Nat.succ_mul, ← Nat.add_assoc] at hzero
    rw [Nat.succ_mul, ← Nat.add_assoc] at hk hcut
    generalize o + k * BUFFER_LEN = c at *
    have hfull : min (o + l - c) BUFFER_LEN = BUFFER_LEN := by omega
    have hn : 0 < min (o + l - (c + BUFFER_LEN)) BUFFER_LEN := by omega
    have hinto : r.into (c + BUFFER_LEN) < BLOCK_SIZE := Nat.mod_lt _ (by decide)
    have hpos : r.into (c + BUFFER_LEN) ≠ 0 := hcut.2
    have hstart := hcut.1.1
    have hstop' := hcut.1.2
    have hdef : r.into (c + BUFFER_LEN) = (c + BUFFER_LEN - r.extent.start) % BLOCK_SIZE := rfl
    have hmod := Nat.mod_le (c + BUFFER_LEN - r.extent.start) BLOCK_SIZE
    rw [decrypted_round hstop hk, hfull] at hzero
    -- the chunk before it ends with the first bytes of the block, which are ones
    have hhead : (lastBlock (window (plain flipCipher (fun _ => 0) ranges) c BUFFER_LEN)).toList[
        BLOCK_SIZE - r.into (c + BUFFER_LEN)]? = some 1 := by
      have hdrop : (lastBlock (window (plain flipCipher (fun _ => 0) ranges) c BUFFER_LEN)).toList.drop _ = _ :=
        drop_lastBlock (Nat.le_of_lt hinto) (by rw [length_window]; omega)
      have hbyte := congrArg (·[0]?) hdrop
      rw [List.getElem?_drop, List.getElem?_drop, length_window, Nat.add_zero, Nat.add_zero,
        getElem?_window _ (by omega), hones r hr _ ⟨by omega, by omega⟩] at hbyte
      exact hbyte
    have hbyte := congrArg (·[0]?) hzero
    rw [getElem?_window _ hn, Nat.add_zero, hones r hr _ hcut.1, getElem?_foldl_flipCipher (by simp [BLOCK_SIZE])
      (by simp [BLOCK_SIZE]) (by rw [length_window]; exact hn) (fun s hs => lt_of_mem_reached hsorted hs)
      (hapart.sublist (reached_sublist _ _ _)) ?_ hcut hhead] at hbyte
    · exact absurd hbyte (by decide)
    · exact mem_reached (inOrder_of_apart hne hsorted hapart) hn hr hcut.1

end

/-! ## Files -/

section
variable {encryption : Encryption} {size : ℕ}

/-- The ranges that are not empty do not overlap and lie in a file of a size. -/
structure InFile (encryption : Encryption) (size : ℕ) : Prop where
  le : ∀ r ∈ encryption.ranges, r.startOffset ≠ r.endOffset → r.endOffset.toNat ≤ size
  apart : (extents encryption).Pairwise Extent.Apart

/-- The contents of a file that is stored as a function of the position. -/
def contents (aes : Vector UInt8 16 → BlockCipher) (encryption : Option Encryption) (F : ℕ → UInt8) :
    ℕ → UInt8 := match encryption with
  | none => F
  | some encryption => patched (aes encryption.key).decryptBlock BLOCK_SIZE F (extents encryption)

/-- An accepted range in the file fits it. -/
theorem InFile.fitsFile (h : InFile encryption size) (hacc : ∀ r ∈ encryption.ranges, r.Accepted size) :
    ∀ r ∈ encryption.ranges, r.startOffset ≠ r.endOffset → r.FitsFile size := by
  intro r hr hne
  rcases hacc r hr with heq | hfit | hslip
  · exact absurd heq hne
  · exact hfit
  · have hle := h.le r hr hne
    have hgt := hslip.gt
    omega

/-- The stored ranges of an entry whose ranges are in the file. -/
structure RangesIn (ranges : List Range) (size : ℕ) : Prop where
  lt : ∀ r ∈ ranges, r.extent.start < r.extent.stop
  le : ∀ r ∈ ranges, r.extent.stop ≤ size
  apart : ranges.Pairwise fun r s => r.extent.Apart s.extent

theorem InFile.rangesIn (h : InFile encryption size) (hacc : ∀ r ∈ encryption.ranges, r.Accepted size)
    (hsize : size < 2 ^ 32) : RangesIn (recordRanges encryption) size := by
  have hfit := h.fitsFile hacc
  have hperm := map_extent_recordRanges hsize hfit
  have hmem : ∀ r ∈ recordRanges encryption, ∃ s ∈ encryption.ranges, s.FitsFile size ∧
      r.extent = s.extent := by
    intro r hr
    obtain ⟨s, hs, hne, rfl⟩ := mem_recordRanges.1 hr
    exact ⟨s, hs, hfit s hs hne, (hfit s hs hne).extent_stored hsize⟩
  refine ⟨fun r hr => ?_, fun r hr => ?_, ?_⟩
  · obtain ⟨s, -, hs, heq⟩ := hmem r hr
    rw [heq]
    exact UInt64.lt_iff_toNat_lt.1 hs.lt
  · obtain ⟨s, -, hs, heq⟩ := hmem r hr
    rw [heq]
    exact hs.le
  · exact List.pairwise_map.1 (hperm.symm.pairwise h.apart fun hrs i hi => hrs i hi.symm)

/-- The contents are those that the stored ranges give. -/
theorem contents_some (h : InFile encryption size) (hacc : ∀ r ∈ encryption.ranges, r.Accepted size)
    (hsize : size < 2 ^ 32) (aes : Vector UInt8 16 → BlockCipher) (F : ℕ → UInt8) :
    contents aes (some encryption) F = plain (aes encryption.key) F (recordRanges encryption) :=
  patched_perm _ _ _ (map_extent_recordRanges hsize (h.fitsFile hacc)).symm h.apart

end

namespace DvdbndMount
variable {mount : DvdbndMount} {inode fileOffset : UInt64} {len : UInt32} {file : DvdbndFile}
  {E : Type} [FileEntry E] {entry : E} {encryption : Option Encryption}

variable (mount inode fileOffset len file encryption) in
/-- A request that succeeds gets the contents of the file, whatever the BDT
    holds, and for any key. -/
def ReadsContents : Prop :=
  ∀ (aes : Vector UInt8 16 → BlockCipher) (bdts : SrcId → Checked ReadManagedAt) (bdt : ℕ → UInt8),
    (∀ reader, bdts file.srcId = .ok reader → Exact reader bdt) →
      ({ mount with bdts := bdts, aes := aes }.readFile inode fileOffset len).result = .ok () →
        delivered ({ mount with bdts := bdts, aes := aes }.readFile inode fileOffset len).events =
          window (contents aes encryption fun i => bdt (file.dataOffset.toNat + i))
            (file.readOffset fileOffset) (file.readLen fileOffset len)

/-- If a request gets the contents of the file, then its chunks fit. -/
theorem ReadsContents.chunksFit {e : Encryption} (h : mount.ReadsContents inode fileOffset len file (some e))
    (hfile : mount.IsFile inode file) (hentry : FromEntry mount.fs file entry (some e))
    (hranges : InFile e (FileEntry.fileSize entry).toNat)
    (hin : file.InBounds (file.readOffset fileOffset) (file.readLen fileOffset len))
    (hwindows : file.HasWindows mount.platform (file.readOffset fileOffset) (file.readLen fileOffset len)) :
    ChunksFit (recordRanges e) (file.readOffset fileOffset) (file.readLen fileOffset len) := by
  have hstored := hentry.stored e rfl
  have hacc := hstored.accepted
  have hrangesIn := hranges.rangesIn hacc (FileEntry.fileSize entry).toNat_lt
  let reader : ReadManagedAt := fun len pos => .ok (some (window (fun _ => 0) pos len))
  have hexact : Exact reader fun _ => 0 := fun _ _ _ => rfl
  have hreads := h (fun _ => flipCipher) (fun _ => .ok reader) (fun _ => 0) fun reader' heq => by
    cases heq
    exact hexact
  have hfile' : { mount with bdts := fun _ => .ok reader, aes := fun _ => flipCipher }.IsFile inode file :=
    hfile
  have hstop := file.readEnd_lt fileOffset len
  obtain ⟨prev, next, -, hrun⟩ := @readAt_stored { mount with
    bdts := fun _ => .ok reader, aes := fun _ => flipCipher } _ _ _ _ _ _ _ _ _ hstop hstored rfl hexact hin hwindows
  rw [readFile_eq hfile', hrun, contents_some hranges hacc (FileEntry.fileSize entry).toNat_lt] at hreads
  generalize file.readOffset fileOffset = o at *
  generalize file.readLen fileOffset len = l at *
  rcases Nat.eq_zero_or_pos l with rfl | hl
  · exact ⟨fun r _ _ => by omega, fun k hk => absurd hk (by omega)⟩
  · have hne : ¬ (file.len = 0 ∧ file.dataOffset.toNat < mount.platform.windowSize) := by
      rintro ⟨hzero, -⟩
      have hle := hin.2
      rw [hzero] at hle
      have : (0 : UInt32).toNat = 0 := rfl
      omega
    rw [if_neg hne] at hreads
    exact chunksFit_of_delivered hstop hstored.ranges.2 hrangesIn.apart hrangesIn.lt (hreads rfl)

/-- **A request gets the contents of the file** if and only if its chunks fit, if
    it gets to them. -/
theorem readsContents_iff (hfile : mount.IsFile inode file)
    (hentry : FromEntry mount.fs file entry encryption)
    (hranges : ∀ e ∈ encryption, InFile e (FileEntry.fileSize entry).toNat) :
    mount.ReadsContents inode fileOffset len file encryption ↔
      ∀ e ∈ encryption, file.InBounds (file.readOffset fileOffset) (file.readLen fileOffset len) →
        file.HasWindows mount.platform (file.readOffset fileOffset) (file.readLen fileOffset len) →
          ChunksFit (recordRanges e) (file.readOffset fileOffset) (file.readLen fileOffset len) := by
  constructor
  · rintro h e he hin hwindows
    obtain rfl : encryption = some e := he
    exact h.chunksFit hfile hentry (hranges e rfl) hin hwindows
  · intro h aes bdts bdt hexact hok
    have hstop := file.readEnd_lt fileOffset len
    have hfile' : { mount with bdts := bdts, aes := aes }.IsFile inode file := hfile
    rw [readFile_eq hfile'] at hok ⊢
    have hlen : file.readOffset fileOffset + file.readLen fileOffset len - file.readOffset fileOffset =
      file.readLen fileOffset len := Nat.add_sub_cancel_left _ _
    obtain ⟨hin, hrun⟩ := readAt_of_ok hstop hexact hok
    rcases encryption with _ | e
    · have hid := hentry.plain rfl
      rcases hrun with ⟨-, hrun⟩ | ⟨id, _, _, _, hsome, -⟩
      · rw [hrun]
        refine delivered_chunkBuffers.trans ?_
        rw [hlen, contents]
      · rw [hid] at hsome
        cases hsome
    · have hstored := hentry.stored e rfl
      have hsize := (FileEntry.fileSize entry).toNat_lt
      have hrangesIn := (hranges e rfl).rangesIn hstored.accepted hsize
      have hwindows : file.HasWindows mount.platform (file.readOffset fileOffset)
          (file.readLen fileOffset len) := by
        rcases hrun with ⟨hnone, -⟩ | ⟨_, _, _, _, -, -, hwindows, -⟩
        · obtain ⟨id, _, _, _, hid, -⟩ := hstored
          rw [hnone] at hid
          cases hid
        · exact hwindows
      have hfit := h e rfl hin hwindows
      rcases hreader : bdts file.srcId with s | reader
      · obtain ⟨_, hrun⟩ := @readAt_of_error { mount with bdts := bdts, aes := aes } file
          (file.readOffset fileOffset) (file.readLen fileOffset len) s hreader
        rw [hrun] at hok
        cases hok
      · obtain ⟨prev, next, hneighbours, hrun⟩ := @readAt_stored { mount with bdts := bdts, aes := aes }
          _ _ _ _ _ _ _ _ _ hstop hstored hreader (hexact reader hreader) hin hwindows
        rw [hrun] at hok ⊢
        split_ifs at hok ⊢
        · cases hok
        · have hends := hneighbours.endsStored
          rw [contents_some (hranges e rfl) hstored.accepted hsize]
          refine (delivered_rounds hstop hstored.ranges.2 hrangesIn.apart hrangesIn.lt (fun _ => hfit.one)
            hfit.whole (fun _ r _ => r.headFits_of_stored hends.head) fun hlt r hr => ?_).trans (by rw [hlen])
          refine Range.tailFits_of_stored (hends.tail (by omega)) ?_
          rw [hentry.len_eq]
          exact hrangesIn.le r hr

/-- A file of four encrypted blocks. -/
def fourEntry : FileEntryDs2 := ⟨7, 64, 100, 0, 1⟩

def fourEncryption : Encryption := ⟨.replicate 16 0, 1, [⟨0, 64⟩]⟩

def fourFile : DvdbndFile := ⟨100, 64, 0, ⟨.replicate 12 0⟩, some firstId⟩

def fourStore : List UInt8 := Aes128.codec.write fourBlocks ++ Range.codec.write ⟨0, 4⟩

theorem recordRanges_fourEncryption : recordRanges fourEncryption = [⟨0, 4⟩] := by
  have hstored : storedRanges fourEncryption.ranges = [⟨0, 4⟩] := by decide
  rw [recordRanges, sortRanges, hstored, List.mergeSort_singleton]

theorem fromEntry_fourFile (platform : Platform) :
    FromEntry (ofZeros platform fourFile fourStore).fs fourFile fourEntry (some fourEncryption) := by
  have hstore : storeEncryption fourEntry fourEncryption [] = .ok (firstId, fourStore) := by
    refine storeEncryption_eq_ok.2 ⟨fun r hr => ?_, fourBlocks.rangeCount, ?_, rfl, ?_⟩
    · rw [List.mem_singleton.1 hr]
      exact .inr (.inl ⟨by decide, by decide, by decide⟩)
    · rw [recordRanges_fourEncryption]
      rfl
    · rw [writeRecord, recordRanges_fourEncryption]
      rfl
  refine ⟨rfl, (fun h => by cases h), fun e he => ?_⟩
  cases he
  exact stored_ofZeros rfl hstore

theorem inFile_fourEncryption :
    ∀ e ∈ some fourEncryption, InFile e (FileEntry.fileSize fourEntry).toNat := by
  intro e he
  cases he
  refine ⟨fun r hr _ => ?_, List.pairwise_singleton _ _⟩
  rw [List.mem_singleton.1 hr]
  decide

theorem not_readsContents : ¬ ∀ (mount : DvdbndMount) (inode fileOffset : UInt64) (len : UInt32)
    (file : DvdbndFile) (entry : FileEntryDs2) (encryption : Option Encryption), mount.IsFile inode file →
      FromEntry mount.fs file entry encryption →
        (∀ e ∈ encryption, InFile e (FileEntry.fileSize entry).toNat) →
          mount.ReadsContents inode fileOffset len file encryption := by
  intro h
  have hreads := h (ofZeros .unix fourFile fourStore) 1 8 40 fourFile fourEntry (some fourEncryption)
    (isFile_ofZeros _ _ _) (fromEntry_fourFile _) inFile_fourEncryption
  have hbytes := hreads (fun _ => zeroCipher) (ofZeros .unix fourFile fourStore).bdts (fun _ => 0)
    (fun _ => exact_ofZeros) (by decide +kernel)
  have hbyte := congrArg (·[8]?) hbytes
  have hzero : (delivered ((ofZeros .unix fourFile fourStore).readFile 1 8 40).events)[8]? = some 0 := by
    decide +kernel
  rw [getElem?_window _ (by decide)] at hbyte
  exact absurd (hzero.symm.trans hbyte) (by decide +kernel)

theorem readsContents_fourFile : (ofZeros .unix fourFile fourStore).ReadsContents 1 8 8 fourFile
    (some fourEncryption) := by
  refine (readsContents_iff (isFile_ofZeros _ _ _) (fromEntry_fourFile _) inFile_fourEncryption).2
    fun e he _ _ => ?_
  cases he
  have hlen : fourFile.readLen 8 8 = 8 := by decide
  rw [recordRanges_fourEncryption, hlen]
  refine ⟨by decide, fun k hk => ?_⟩
  have hge : BUFFER_LEN ≤ (k + 1) * BUFFER_LEN := Nat.le_mul_of_pos_left _ (Nat.succ_pos k)
  have hbuffer : BUFFER_LEN = 32768 := rfl
  omega

end DvdbndMount

end Fsvfs.Dvdbnd
