/-
  Decryption of a part of a file (`src/dvdbnd/filesystem/encryption.rs`).

  The block cipher of the `aes` crate is a parameter.  A panic is explicit
  (`Checked`); `Range::end_offset` wraps, and `endOffset_toNat` says when it does
  not.

  * `decryptRanges_eq`: the loop over the ranges decrypts those it gets to
    (`reached`), one after the other (`decryptRange`), and does not panic;
  * `getElem?_decryptRange`: the bytes it leaves alone.
-/
import Fsvfs.Dvdbnd.Encryption
import Fsvfs.Lib.Checked
import Fsvfs.Lib.Window

namespace Fsvfs.Dvdbnd

open Lib Lib.Checked

/-- A block cipher with a key: `decrypt_block`. -/
structure BlockCipher where
  decryptBlock : List UInt8 → List UInt8
  length_decryptBlock : ∀ b, b.length = BLOCK_SIZE → (decryptBlock b).length = BLOCK_SIZE

/-- A block cipher that does as AES-128 with the zero key does to the zero
    block. -/
def zeroCipher : BlockCipher :=
  ⟨fun _ => [0x14, 0x0f, 0x0f, 0x10, 0x11, 0xb5, 0x22, 0x3d, 0x79, 0x58, 0x77, 0x17, 0xff, 0xd9, 0xec,
    0x3a], fun _ _ => rfl⟩

/-- `Ciphertext`. -/
structure Ciphertext where
  body : List UInt8
  head : Vector UInt8 16
  tail : Vector UInt8 16
  fileOffset : UInt32
deriving DecidableEq

/-- `[Range]::partition_point`, for ranges that are partitioned by the
    predicate. -/
def partitionPoint (p : Range → Bool) (ranges : List Range) : ℕ := (ranges.takeWhile p).length

section
variable (cipher : BlockCipher) (head tail : List UInt8)

/-- The block that a part of a file begins in the middle of: its first `left`
    bytes are the last ones of the head. -/
def decryptFirst (left : ℕ) (bytes : List UInt8) : Checked (List UInt8) := do
  let leftLen := BLOCK_SIZE - left
  let midLen := min leftLen bytes.length
  let right := left + midLen
  let rightLen ← sub BLOCK_SIZE right
  let block ← copyFromSlice (List.replicate BLOCK_SIZE 0) 0 left (← slice head leftLen head.length)
  let block ← copyFromSlice block left right (← slice bytes 0 midLen)
  let block ← copyFromSlice block right BLOCK_SIZE (← slice tail 0 rightLen)
  let block := cipher.decryptBlock block
  copyFromSlice bytes 0 midLen (← slice block left right)

/-- The loop over some whole blocks. -/
def decryptBlocks : ℕ → List UInt8 → List UInt8
  | 0, bytes => bytes
  | k + 1, bytes =>
    cipher.decryptBlock (bytes.take BLOCK_SIZE) ++ decryptBlocks k (bytes.drop BLOCK_SIZE)

/-- The blocks from a start to an end; the last one may go on in the tail. -/
def decryptMid (start stop : ℕ) (bytes : List UInt8) : Checked (List UInt8) := do
  let range ← slice bytes start stop
  let count := range.length / BLOCK_SIZE
  let blocks := decryptBlocks cipher count (range.take (count * BLOCK_SIZE))
  let rest := range.drop (count * BLOCK_SIZE)
  let rest ← if rest = [] then .ok rest else do
    let mid := rest.length
    let right ← sub BLOCK_SIZE mid
    let block ← copyFromSlice (List.replicate BLOCK_SIZE 0) 0 mid rest
    let block ← copyFromSlice block mid BLOCK_SIZE (← slice tail 0 right)
    let block := cipher.decryptBlock block
    slice block 0 mid
  copyFromSlice bytes start stop (blocks ++ rest)

/-- The loop over the ranges in `Aes128::decrypt`. -/
def decryptRanges (fileOffset : ℕ) : List Range → List UInt8 → Checked (List UInt8)
  | [], bytes => .ok bytes
  | range :: ranges, bytes => do
    let startOffset := range.startOffset.toNat
    let limit ← add 32 fileOffset (bytes.length % 2 ^ 32)
    if startOffset ≥ limit then .ok bytes
    else do
      -- `delta & (BLOCK_SIZE as u32).wrapping_neg()`
      let startOffset ← if startOffset ≤ fileOffset then
        add 32 startOffset ((fileOffset - startOffset) &&& 0xfffffff0) else .ok startOffset
      let (bytes, start) ← if startOffset < fileOffset then do
          let left := (fileOffset - startOffset) % BLOCK_SIZE
          let bytes ← decryptFirst cipher head tail left bytes
          .ok (bytes, fileOffset + (BLOCK_SIZE - left))
        else .ok (bytes, startOffset - fileOffset)
      let stop := min bytes.length (← sub range.endOffset.toNat fileOffset)
      if start ≥ stop then decryptRanges fileOffset ranges bytes
      else decryptRanges fileOffset ranges (← decryptMid cipher tail start stop bytes)

end

/-- `Aes128::decrypt`: the body afterwards. -/
def Aes128.decrypt (header : Aes128) (cipher : BlockCipher) (ciphertext : Ciphertext)
    (data : List UInt8) : Checked (List UInt8) :=
  match Range.codec.readMany header.rangeCount.get data with
  | none => .error .error
  | some ranges =>
    let fileOffset := ciphertext.fileOffset.toNat
    let startIndex := partitionPoint (fun range => fileOffset ≥ range.endOffset.toNat) ranges
    decryptRanges cipher ciphertext.head.toList ciphertext.tail.toList fileOffset
      (ranges.drop startIndex) ciphertext.body

/-- `EncryptionStore::decrypt`: the body afterwards. -/
def decrypt (aes : Vector UInt8 16 → BlockCipher) (store : List UInt8) (id : EncryptionId)
    (ciphertext : Ciphertext) : Checked (List UInt8) :=
  let index := id.intoIndex
  if index > store.length then .error .error
  else
    let store := store.drop index
    match Aes128.codec.read (store.take Aes128.codec.size) with
    | none => .error .error
    | some header =>
      header.decrypt (aes header.key) ciphertext (store.drop Aes128.codec.size)

section
variable {cipher : BlockCipher} {head tail : List UInt8}

theorem length_of_decryptFirst {left : ℕ} {bytes bytes' : List UInt8}
    (h : decryptFirst cipher head tail left bytes = .ok bytes') : bytes'.length = bytes.length := by
  rw [decryptFirst] at h
  obtain ⟨_, -, h⟩ := bind_eq_ok.1 h
  obtain ⟨_, -, h⟩ := bind_eq_ok.1 h
  obtain ⟨_, -, h⟩ := bind_eq_ok.1 h
  obtain ⟨_, -, h⟩ := bind_eq_ok.1 h
  obtain ⟨_, -, h⟩ := bind_eq_ok.1 h
  obtain ⟨_, -, h⟩ := bind_eq_ok.1 h
  obtain ⟨_, -, h⟩ := bind_eq_ok.1 h
  obtain ⟨_, -, h⟩ := bind_eq_ok.1 h
  exact length_of_copyFromSlice h

theorem length_of_decryptMid {start stop : ℕ} {bytes bytes' : List UInt8}
    (h : decryptMid cipher tail start stop bytes = .ok bytes') : bytes'.length = bytes.length := by
  rw [decryptMid] at h
  obtain ⟨range, -, h⟩ := bind_eq_ok.1 h
  dsimp only at h
  split_ifs at h
  · obtain ⟨_, -, h⟩ := bind_eq_ok.1 h
    exact length_of_copyFromSlice h
  · obtain ⟨_, -, h⟩ := bind_eq_ok.1 h
    obtain ⟨_, -, h⟩ := bind_eq_ok.1 h
    obtain ⟨_, -, h⟩ := bind_eq_ok.1 h
    obtain ⟨_, -, h⟩ := bind_eq_ok.1 h
    obtain ⟨_, -, h⟩ := bind_eq_ok.1 h
    exact length_of_copyFromSlice h

theorem length_of_decryptRanges {fileOffset : ℕ} {ranges : List Range} {bytes bytes' : List UInt8}
    (h : decryptRanges cipher head tail fileOffset ranges bytes = .ok bytes') :
    bytes'.length = bytes.length := by
  induction ranges generalizing bytes with
  | nil =>
    cases h
    rfl
  | cons range ranges ih =>
    -- the last part of the step, from any bytes of the same length
    have hrest : ∀ {bytes₁ : List UInt8} {start : ℕ}, bytes₁.length = bytes.length →
        (sub range.endOffset.toNat fileOffset >>= fun delta =>
          if start ≥ min bytes₁.length delta then decryptRanges cipher head tail fileOffset ranges bytes₁
          else decryptMid cipher tail start (min bytes₁.length delta) bytes₁ >>=
            decryptRanges cipher head tail fileOffset ranges) = .ok bytes' →
          bytes'.length = bytes.length := by
      intro bytes₁ start hlen h
      obtain ⟨delta, -, h⟩ := bind_eq_ok.1 h
      split_ifs at h
      · rw [ih h, hlen]
      · obtain ⟨bytes₂, hmid, h⟩ := bind_eq_ok.1 h
        rw [ih h, length_of_decryptMid hmid, hlen]
    rw [decryptRanges] at h
    obtain ⟨limit, -, h⟩ := bind_eq_ok.1 h
    dsimp only at h
    split_ifs at h
    · cases h
      rfl
    · obtain ⟨startOffset, -, h⟩ := bind_eq_ok.1 h
      split_ifs at h
      · obtain ⟨bytes₁, hfirst, h⟩ := bind_eq_ok.1 h
        exact hrest (length_of_decryptFirst hfirst) h
      · exact hrest rfl h
    · obtain ⟨startOffset, -, h⟩ := bind_eq_ok.1 h
      split_ifs at h
      · obtain ⟨bytes₁, hfirst, h⟩ := bind_eq_ok.1 h
        exact hrest (length_of_decryptFirst hfirst) h
      · exact hrest rfl h

/-- **Decryption keeps the length of the body.** -/
theorem length_of_decrypt {aes : Vector UInt8 16 → BlockCipher} {store : List UInt8} {id : EncryptionId}
    {ciphertext : Ciphertext} {body : List UInt8} (h : decrypt aes store id ciphertext = .ok body) :
    body.length = ciphertext.body.length := by
  rw [decrypt] at h
  dsimp only at h
  split_ifs at h
  split at h
  · cases h
  · rename_i header _
    rw [Aes128.decrypt] at h
    split at h
    · cases h
    · exact length_of_decryptRanges h

end

/-! ## Ranges -/

namespace Range
variable (range : Range)

/-- The positions of a range in its file. -/
def extent : Extent where
  start := range.startOffset.toNat
  stop := range.startOffset.toNat + range.blockCount.toNat * BLOCK_SIZE

/-- The end of a range has 32 bits. -/
def Fits : Prop := range.extent.stop < 2 ^ 32

instance : Decidable range.Fits := inferInstanceAs (Decidable (_ < _))

variable {range} in
theorem endOffset_toNat (h : range.Fits) : range.endOffset.toNat = range.extent.stop := by
  have hstop : range.startOffset.toNat + range.blockCount.toNat * 16 < 2 ^ 32 := h
  rw [endOffset, UInt32.toNat_add, UInt32.toNat_mul]
  show (range.startOffset.toNat + range.blockCount.toNat * 16 % 2 ^ 32) % 2 ^ 32 =
    range.startOffset.toNat + range.blockCount.toNat * 16
  omega

/-- How far into a block of the range a position is. -/
def into (i : ℕ) : ℕ := (i - range.extent.start) % BLOCK_SIZE

/-- A position is inside of a block of the range, and not at its start. -/
def Cuts (i : ℕ) : Prop := range.extent.Mem i ∧ range.into i ≠ 0

instance (i : ℕ) : Decidable (range.Cuts i) := inferInstanceAs (Decidable (_ ∧ _))

/-- The positions whose bytes are decrypted in a part of a file from `w` on.
    If the part begins inside of a block, the loop goes on `w` bytes too far
    after this block. -/
def Touches (w i : ℕ) : Prop :=
  range.extent.Mem i ∧
    ¬ (range.Cuts w ∧ w + (BLOCK_SIZE - range.into w) ≤ i ∧ i < w + (w + (BLOCK_SIZE - range.into w)))

end Range

/-- `delta & (BLOCK_SIZE as u32).wrapping_neg()`. -/
theorem and_mask {delta : ℕ} (h : delta < 2 ^ 32) :
    delta &&& 0xfffffff0 = delta / BLOCK_SIZE * BLOCK_SIZE := by
  have hshift : delta / BLOCK_SIZE * BLOCK_SIZE = delta >>> 4 <<< 4 := by
    rw [Nat.shiftLeft_eq, Nat.shiftRight_eq_div_pow]
    rfl
  have hmask : ∀ i < 32, (0xfffffff0 : ℕ).testBit i = decide (4 ≤ i) := by decide
  rw [hshift]
  refine Nat.eq_of_testBit_eq fun i => ?_
  rw [Nat.testBit_and, Nat.testBit_shiftLeft, Nat.testBit_shiftRight]
  by_cases hi : i < 32
  · rw [hmask i hi]
    by_cases h4 : 4 ≤ i
    · simp [h4]
    · simp [h4]
  · have hbit : delta.testBit i = false :=
      Nat.testBit_lt_two_pow (Nat.lt_of_lt_of_le h (Nat.pow_le_pow_right (by omega) (by omega)))
    have hbit' : delta.testBit (4 + (i - 4)) = false := by rw [Nat.add_sub_cancel' (by omega), hbit]
    simp [hbit, hbit']

/-! ## One range -/

section
variable (cipher : BlockCipher) (head tail : List UInt8)

/-- What is made of the first bytes, which are the end of a block. -/
def firstBytes (left : ℕ) (bytes : List UInt8) : List UInt8 :=
  let mid := min (BLOCK_SIZE - left) bytes.length
  ((cipher.decryptBlock (head.drop (BLOCK_SIZE - left) ++ bytes.take mid ++
    tail.take (BLOCK_SIZE - (left + mid)))).drop left).take mid

/-- What is made of a run of blocks; the last one may go on in the tail. -/
def runBytes (run : List UInt8) : List UInt8 :=
  let count := run.length / BLOCK_SIZE
  let rest := run.drop (count * BLOCK_SIZE)
  decryptBlocks cipher count (run.take (count * BLOCK_SIZE)) ++
    if rest = [] then []
    else (cipher.decryptBlock (rest ++ tail.take (BLOCK_SIZE - rest.length))).take rest.length

/-- What `decryptMid` makes of the bytes. -/
def midBytes (start stop : ℕ) (bytes : List UInt8) : List UInt8 :=
  bytes.take start ++ runBytes cipher tail ((bytes.take stop).drop start) ++ bytes.drop stop

/-- The step of the loop for one range, without its checks. -/
def decryptRange (w : ℕ) (bytes : List UInt8) (range : Range) : List UInt8 :=
  let stop := min bytes.length (range.extent.stop - w)
  if range.Cuts w then
    let left := range.into w
    let bytes := firstBytes cipher head tail left bytes ++ bytes.drop (BLOCK_SIZE - left)
    let start := w + (BLOCK_SIZE - left)
    if start ≥ stop then bytes else midBytes cipher tail start stop bytes
  else
    let start := range.extent.start - w
    if start ≥ stop then bytes else midBytes cipher tail start stop bytes

variable {cipher head tail}

theorem length_decryptBlocks : ∀ {k : ℕ} {bytes : List UInt8}, bytes.length = k * BLOCK_SIZE →
    (decryptBlocks cipher k bytes).length = k * BLOCK_SIZE
  | 0, bytes, h => h
  | k + 1, bytes, h => by
    rw [Nat.succ_mul] at h ⊢
    rw [decryptBlocks, List.length_append, cipher.length_decryptBlock _ (by rw [List.length_take]; omega),
      length_decryptBlocks (by rw [List.length_drop]; omega), Nat.add_comm]

theorem length_firstBytes (hhead : head.length = BLOCK_SIZE) (htail : tail.length = BLOCK_SIZE)
    {left : ℕ} (hleft : left < BLOCK_SIZE) (bytes : List UInt8) :
    (firstBytes cipher head tail left bytes).length = min (BLOCK_SIZE - left) bytes.length := by
  rw [firstBytes, List.length_take, List.length_drop, cipher.length_decryptBlock]
  · omega
  · simp only [List.length_append, List.length_drop, List.length_take]
    omega

theorem length_runBytes (htail : tail.length = BLOCK_SIZE) (run : List UInt8) :
    (runBytes cipher tail run).length = run.length := by
  have hsize : BLOCK_SIZE = 16 := rfl
  have hdiv := Nat.div_add_mod run.length BLOCK_SIZE
  have hmod := Nat.mod_lt run.length (by decide : 0 < BLOCK_SIZE)
  have hmul : BLOCK_SIZE * (run.length / BLOCK_SIZE) = run.length / BLOCK_SIZE * BLOCK_SIZE :=
    Nat.mul_comm _ _
  rw [runBytes, List.length_append, length_decryptBlocks (by rw [List.length_take]; omega)]
  split_ifs with hrest
  · have := congrArg List.length hrest
    rw [List.length_drop] at this
    simp only [List.length_nil] at this ⊢
    omega
  · rw [List.length_take, cipher.length_decryptBlock]
    · rw [List.length_drop]
      omega
    · simp only [List.length_append, List.length_drop, List.length_take]
      omega

theorem length_midBytes (htail : tail.length = BLOCK_SIZE) {start stop : ℕ} {bytes : List UInt8}
    (h : start ≤ stop) (hstop : stop ≤ bytes.length) :
    (midBytes cipher tail start stop bytes).length = bytes.length := by
  simp only [midBytes, List.length_append, length_runBytes htail, List.length_take, List.length_drop]
  omega

theorem decryptFirst_eq (hhead : head.length = BLOCK_SIZE) (htail : tail.length = BLOCK_SIZE)
    {left : ℕ} (hleft : left < BLOCK_SIZE) (bytes : List UInt8) :
    decryptFirst cipher head tail left bytes =
      .ok (firstBytes cipher head tail left bytes ++ bytes.drop (BLOCK_SIZE - left)) := by
  have hlen : (firstBytes cipher head tail left bytes).length = _ := length_firstBytes hhead htail hleft bytes
  rw [decryptFirst, firstBytes]
  rw [firstBytes] at hlen
  have hmid : min (BLOCK_SIZE - left) bytes.length ≤ bytes.length := Nat.min_le_right _ _
  have hright : left + min (BLOCK_SIZE - left) bytes.length ≤ BLOCK_SIZE := by omega
  have hbytes : bytes.drop (min (BLOCK_SIZE - left) bytes.length) = bytes.drop (BLOCK_SIZE - left) := by
    rcases Nat.le_total (BLOCK_SIZE - left) bytes.length with h | h
    · rw [Nat.min_eq_left h]
    · rw [Nat.min_eq_right h, List.drop_length, List.drop_of_length_le h]
  generalize min (BLOCK_SIZE - left) bytes.length = mid at *
  have hhead' : (head.drop (BLOCK_SIZE - left)).length = left := by rw [List.length_drop]; omega
  have hbytes' : (bytes.take mid).length = mid := by rw [List.length_take]; omega
  have hboth : (head.drop (BLOCK_SIZE - left) ++ bytes.take mid).length = left + mid := by
    rw [List.length_append, hhead', hbytes']
  -- the block is filled from the head, the bytes and the tail
  have h1 : copyFromSlice (List.replicate BLOCK_SIZE 0) 0 left (head.drop (BLOCK_SIZE - left)) =
      .ok (head.drop (BLOCK_SIZE - left) ++ List.replicate (BLOCK_SIZE - left) 0) := by
    have hfill : copyFromSlice ([] ++ List.replicate BLOCK_SIZE 0) 0 left (head.drop (BLOCK_SIZE - left)) =
        _ := copyFromSlice_replicate rfl (Nat.zero_le _) (by omega) hhead'
    rwa [Nat.zero_add, List.nil_append] at hfill
  have h2 : copyFromSlice (head.drop (BLOCK_SIZE - left) ++ List.replicate (BLOCK_SIZE - left) 0)
      left (left + mid) (bytes.take mid) = .ok (head.drop (BLOCK_SIZE - left) ++ bytes.take mid ++
        List.replicate (left + (BLOCK_SIZE - left) - (left + mid)) 0) :=
    copyFromSlice_replicate hhead' (by omega) (by omega) (by omega)
  have h3 : copyFromSlice (head.drop (BLOCK_SIZE - left) ++ bytes.take mid ++
      List.replicate (left + (BLOCK_SIZE - left) - (left + mid)) 0) (left + mid) BLOCK_SIZE
      (tail.take (BLOCK_SIZE - (left + mid))) = .ok (head.drop (BLOCK_SIZE - left) ++
        bytes.take mid ++ tail.take (BLOCK_SIZE - (left + mid)) ++ []) := by
    refine (copyFromSlice_replicate hboth hright (by omega) (by rw [List.length_take]; omega)).trans ?_
    rw [show left + mid + (left + (BLOCK_SIZE - left) - (left + mid)) - BLOCK_SIZE = 0 by omega]
    rfl
  rw [List.append_nil] at h3
  have hblock : (cipher.decryptBlock (head.drop (BLOCK_SIZE - left) ++ bytes.take mid ++
      tail.take (BLOCK_SIZE - (left + mid)))).length = BLOCK_SIZE := by
    refine cipher.length_decryptBlock _ ?_
    rw [List.length_append, hboth, List.length_take]
    omega
  rw [sub_of_le hright, ok_bind, slice_of_le (by omega) (Nat.le_refl _), List.take_length, ok_bind, h1,
    ok_bind, slice_of_le (Nat.zero_le _) hmid, List.drop_zero, ok_bind, h2, ok_bind,
    slice_of_le (Nat.zero_le _) (by omega), List.drop_zero, ok_bind, h3, ok_bind]
  dsimp only
  rw [slice_of_le (by omega) (by omega), ok_bind, List.drop_take, Nat.add_sub_cancel_left,
    copyFromSlice_of_le (Nat.zero_le _) hmid (by rw [hlen]; omega), hbytes]
  rfl

theorem decryptMid_eq (htail : tail.length = BLOCK_SIZE) {start stop : ℕ} {bytes : List UInt8}
    (h : start ≤ stop) (hstop : stop ≤ bytes.length) :
    decryptMid cipher tail start stop bytes = .ok (midBytes cipher tail start stop bytes) := by
  have hlen : (runBytes cipher tail ((bytes.take stop).drop start)).length = _ := length_runBytes htail _
  rw [decryptMid, slice_of_le h hstop, ok_bind, midBytes]
  have hrun : ((bytes.take stop).drop start).length = stop - start := by
    rw [List.length_drop, List.length_take]
    omega
  generalize (bytes.take stop).drop start = run at *
  rw [runBytes] at hlen ⊢
  dsimp only at hlen ⊢
  have hcount : run.length / BLOCK_SIZE * BLOCK_SIZE ≤ run.length := Nat.div_mul_le_self _ _
  have hrest : (run.drop (run.length / BLOCK_SIZE * BLOCK_SIZE)).length < BLOCK_SIZE := by
    have hmod := Nat.mod_lt run.length (by decide : 0 < BLOCK_SIZE)
    have hdiv := Nat.div_add_mod' run.length BLOCK_SIZE
    rw [List.length_drop]
    omega
  generalize run.drop (run.length / BLOCK_SIZE * BLOCK_SIZE) = rest at *
  split_ifs at hlen ⊢ with hnil
  · rw [ok_bind, hnil, copyFromSlice_of_le h hstop (by rw [hlen, hrun])]
  · -- the last block is filled from the rest and the tail
    have hblock : (rest ++ tail.take (BLOCK_SIZE - rest.length)).length = BLOCK_SIZE := by
      rw [List.length_append, List.length_take]
      omega
    have h1 : copyFromSlice (List.replicate BLOCK_SIZE 0) 0 rest.length rest =
        .ok (rest ++ List.replicate (BLOCK_SIZE - rest.length) 0) := by
      have hfill : copyFromSlice ([] ++ List.replicate BLOCK_SIZE 0) 0 rest.length rest = _ :=
        copyFromSlice_replicate rfl (Nat.zero_le _) (by omega) rfl
      rwa [Nat.zero_add, List.nil_append] at hfill
    have h2 : copyFromSlice (rest ++ List.replicate (BLOCK_SIZE - rest.length) 0) rest.length
        BLOCK_SIZE (tail.take (BLOCK_SIZE - rest.length)) =
          .ok (rest ++ tail.take (BLOCK_SIZE - rest.length) ++ []) := by
      refine (copyFromSlice_replicate rfl (by omega) (by omega) (by rw [List.length_take]; omega)).trans ?_
      rw [show rest.length + (BLOCK_SIZE - rest.length) - BLOCK_SIZE = 0 by omega]
      rfl
    rw [List.append_nil] at h2
    rw [sub_of_le (by omega), ok_bind, h1, ok_bind, slice_of_le (Nat.zero_le _) (by omega),
      List.drop_zero, ok_bind, h2, ok_bind,
      slice_of_le (Nat.zero_le _) (by rw [cipher.length_decryptBlock _ hblock]; omega), List.drop_zero,
      ok_bind, copyFromSlice_of_le h hstop (by rw [hlen, hrun])]

theorem length_decryptRange (hhead : head.length = BLOCK_SIZE) (htail : tail.length = BLOCK_SIZE)
    (w : ℕ) (bytes : List UInt8) (range : Range) :
    (decryptRange cipher head tail w bytes range).length = bytes.length := by
  have hinto : range.into w < BLOCK_SIZE := Nat.mod_lt _ (by decide)
  have hfirst : (firstBytes cipher head tail (range.into w) bytes ++
      bytes.drop (BLOCK_SIZE - range.into w)).length = bytes.length := by
    rw [List.length_append, length_firstBytes hhead htail hinto, List.length_drop]
    omega
  rw [decryptRange]
  dsimp only
  split_ifs with hcut hge hge
  · exact hfirst
  · rw [length_midBytes htail (by omega) (by rw [hfirst]; omega), hfirst]
  · rfl
  · exact length_midBytes htail (by omega) (by omega)

/-! ## The loop -/

/-- **The loop does not panic.** -/
theorem decryptRanges_eq (hhead : head.length = BLOCK_SIZE) (htail : tail.length = BLOCK_SIZE)
    {w : ℕ} : ∀ {ranges : List Range} {bytes : List UInt8}, (∀ r ∈ ranges, r.Fits ∧ w < r.extent.stop) →
      w + bytes.length < 2 ^ 32 →
        decryptRanges cipher head tail w ranges bytes = .ok ((ranges.takeWhile fun range =>
          range.extent.start < w + bytes.length).foldl (decryptRange cipher head tail w) bytes)
  | [], _, _, _ => rfl
  | range :: ranges, bytes, h, hlen => by
    obtain ⟨⟨hfits, hw⟩, hranges⟩ := List.forall_mem_cons.1 h
    have hsize : BLOCK_SIZE = 16 := rfl
    have hstop := Range.endOffset_toNat hfits
    have hmod : bytes.length % 2 ^ 32 = bytes.length := Nat.mod_eq_of_lt (by omega)
    have hfit : range.extent.stop < 2 ^ 32 := hfits
    rw [decryptRanges]
    dsimp only
    rw [hmod, add_of_lt hlen, ok_bind, List.takeWhile_cons]
    have hstart : range.startOffset.toNat = range.extent.start := rfl
    rw [hstart]
    by_cases hlimit : range.extent.start < w + bytes.length
    · rw [if_neg (by omega), decide_eq_true hlimit]
      have ih : decryptRanges cipher head tail w ranges (decryptRange cipher head tail w bytes range) = _ :=
        decryptRanges_eq hhead htail hranges (by rw [length_decryptRange hhead htail]; exact hlen)
      rw [length_decryptRange hhead htail] at ih
      refine Eq.trans ?_ ih
      have hend : range.extent.stop = range.extent.start + range.blockCount.toNat * 16 := rfl
      have hinto : range.into w < BLOCK_SIZE := Nat.mod_lt _ (by decide)
      rcases Nat.lt_or_ge w range.extent.start with hafter | hbefore
      · -- the range starts in the bytes
        have hcut : ¬ range.Cuts w := fun h => by
          have := h.1.1
          omega
        rw [if_neg (by omega), ok_bind, if_neg (by omega), ok_bind]
        dsimp only
        rw [hstop, sub_of_le (Nat.le_of_lt hw), ok_bind, decryptRange]
        dsimp only
        rw [if_neg hcut]
        split_ifs with hge
        · rfl
        · rw [decryptMid_eq htail (by omega) (by omega), ok_bind]
      · have hdiv := Nat.div_add_mod' (w - range.extent.start) BLOCK_SIZE
        have hmem : range.extent.Mem w := ⟨hbefore, hw⟩
        rw [if_pos hbefore, and_mask (by omega), add_of_lt (by omega), ok_bind]
        by_cases hzero : range.into w = 0
        · -- the bytes start with a block
          have hcut : ¬ range.Cuts w := fun h => h.2 hzero
          rw [Range.into] at hzero
          rw [if_neg (by omega), ok_bind]
          dsimp only
          rw [hstop, sub_of_le (Nat.le_of_lt hw), ok_bind, decryptRange]
          dsimp only
          rw [if_neg hcut, show range.extent.start + (w - range.extent.start) / BLOCK_SIZE * BLOCK_SIZE - w =
            range.extent.start - w by omega]
          split_ifs with hge
          · rfl
          · rw [decryptMid_eq htail (by omega) (by omega), ok_bind]
        · -- the bytes start inside of a block
          have hcut : range.Cuts w := ⟨hmem, hzero⟩
          have hleft : (w - (range.extent.start + (w - range.extent.start) / BLOCK_SIZE * BLOCK_SIZE)) %
              BLOCK_SIZE = range.into w := by
            rw [Range.into] at hinto ⊢
            rw [show w - (range.extent.start + (w - range.extent.start) / BLOCK_SIZE * BLOCK_SIZE) =
              (w - range.extent.start) % BLOCK_SIZE by omega, Nat.mod_mod]
          have hlt : range.extent.start + (w - range.extent.start) / BLOCK_SIZE * BLOCK_SIZE < w := by
            rw [Range.into] at hzero
            omega
          have hfirst : (firstBytes cipher head tail (range.into w) bytes ++
              bytes.drop (BLOCK_SIZE - range.into w)).length = bytes.length := by
            rw [List.length_append, length_firstBytes hhead htail hinto, List.length_drop]
            omega
          rw [if_pos hlt, hleft, decryptFirst_eq hhead htail hinto, ok_bind, ok_bind]
          dsimp only
          rw [hstop, sub_of_le (Nat.le_of_lt hw), ok_bind, decryptRange]
          dsimp only
          rw [if_pos hcut, hfirst]
          split_ifs with hge
          · rfl
          · rw [decryptMid_eq htail (by omega) (by rw [hfirst]; omega), ok_bind]
    · rw [if_pos (by omega), decide_eq_false hlimit]
      rfl

/-! ## What is left alone -/

theorem getElem?_midBytes (htail : tail.length = BLOCK_SIZE) {start stop i : ℕ} {bytes : List UInt8}
    (h : start ≤ stop) (hstop : stop ≤ bytes.length) (hi : i < start ∨ stop ≤ i) :
    (midBytes cipher tail start stop bytes)[i]? = bytes[i]? := by
  have hrun : (runBytes cipher tail ((bytes.take stop).drop start)).length = stop - start := by
    rw [length_runBytes htail, List.length_drop, List.length_take]
    omega
  have hstart : (bytes.take start).length = start := by
    rw [List.length_take]
    omega
  rw [midBytes]
  rcases hi with hi | hi
  · rw [List.append_assoc, List.getElem?_append_left (by omega), List.getElem?_take_of_lt hi]
  · have hlen : (bytes.take start ++ runBytes cipher tail ((bytes.take stop).drop start)).length =
        stop := by
      rw [List.length_append, hstart, hrun]
      omega
    rw [List.getElem?_append_right (by omega), hlen, List.getElem?_drop]
    congr 1
    omega

/-- **Bytes that a range does not touch are left alone.** -/
theorem getElem?_decryptRange (hhead : head.length = BLOCK_SIZE) (htail : tail.length = BLOCK_SIZE)
    {w i : ℕ} {bytes : List UInt8} {range : Range} (hw : w < range.extent.stop)
    (hi : ¬ range.Touches w (w + i)) :
    (decryptRange cipher head tail w bytes range)[i]? = bytes[i]? := by
  have hend : range.extent.stop = range.extent.start + range.blockCount.toNat * 16 := rfl
  have hsize : BLOCK_SIZE = 16 := rfl
  have hinto : range.into w < BLOCK_SIZE := Nat.mod_lt _ (by decide)
  rw [Range.Touches, Extent.Mem, not_and_not_right] at hi
  rw [decryptRange]
  dsimp only
  by_cases hcut : range.Cuts w
  · have hlen : (firstBytes cipher head tail (range.into w) bytes).length = _ :=
      length_firstBytes hhead htail hinto bytes
    have hstart := hcut.1.1
    -- the block that is cut lies in the range
    have hblock : w + (BLOCK_SIZE - range.into w) ≤ range.extent.stop := by
      rw [Range.into, hsize] at hinto ⊢
      have hne := hcut.2
      rw [Range.into, hsize] at hne
      omega
    have hfirst : (firstBytes cipher head tail (range.into w) bytes ++
        bytes.drop (BLOCK_SIZE - range.into w)).length = bytes.length := by
      rw [List.length_append, hlen, List.length_drop]
      omega
    have hafter : BLOCK_SIZE - range.into w ≤ i := by
      by_contra hlt
      have := (hi ⟨by omega, by omega⟩).2.1
      omega
    have hrest : (firstBytes cipher head tail (range.into w) bytes ++
        bytes.drop (BLOCK_SIZE - range.into w))[i]? = bytes[i]? := by
      rcases Nat.lt_or_ge i bytes.length with hilt | hige
      · rw [List.getElem?_append_right (by omega), hlen, List.getElem?_drop]
        congr 1
        omega
      · rw [List.getElem?_eq_none (by omega), List.getElem?_eq_none hige]
    rw [if_pos hcut]
    split_ifs with hge
    · exact hrest
    · rw [getElem?_midBytes htail (by omega) (by omega) ?_, hrest]
      by_contra hin
      have := (hi ⟨by omega, by omega⟩).2.2
      omega
  · rw [if_neg hcut]
    split_ifs with hge
    · rfl
    · refine getElem?_midBytes htail (by omega) (by omega) ?_
      by_contra hin
      exact hcut (hi ⟨by omega, by omega⟩).1

theorem length_foldl_decryptRange (hhead : head.length = BLOCK_SIZE) (htail : tail.length = BLOCK_SIZE)
    {w : ℕ} (ranges : List Range) (bytes : List UInt8) :
    (ranges.foldl (decryptRange cipher head tail w) bytes).length = bytes.length := by
  induction ranges generalizing bytes with
  | nil => rfl
  | cons range ranges ih => rw [List.foldl_cons, ih, length_decryptRange hhead htail]

theorem getElem?_foldl_decryptRange (hhead : head.length = BLOCK_SIZE)
    (htail : tail.length = BLOCK_SIZE) {w i : ℕ} {ranges : List Range} {bytes : List UInt8}
    (h : ∀ r ∈ ranges, w < r.extent.stop ∧ ¬ r.Touches w (w + i)) :
    (ranges.foldl (decryptRange cipher head tail w) bytes)[i]? = bytes[i]? := by
  induction ranges generalizing bytes with
  | nil => rfl
  | cons range ranges ih =>
    obtain ⟨⟨hw, hi⟩, hranges⟩ := List.forall_mem_cons.1 h
    rw [List.foldl_cons, ih hranges, getElem?_decryptRange hhead htail hw hi]

end

end Fsvfs.Dvdbnd
