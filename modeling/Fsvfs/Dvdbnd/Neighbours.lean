/-
  The neighbour bytes that decryption sees.

  `seesStored_iff`: they are the stored ones, unless a chunk is not the first one
  and the chunk before it decrypts one of the 16 bytes before it, or the last
  chunk is not the first one and has less than 16 bytes, and the file goes on.
-/
import Fsvfs.Dvdbnd.Rounds
import Fsvfs.Dvdbnd.Slices

namespace Fsvfs.Dvdbnd

open Lib Lib.Checked Traced Bhd5

/-! ## Bytes that are decrypted -/

/-- No decrypted byte is zero. -/
def BlockCipher.NoZeros (cipher : BlockCipher) : Prop := ∀ b, ∀ x ∈ cipher.decryptBlock b, x ≠ 0

theorem noZeros_zeroCipher : zeroCipher.NoZeros := by
  intro b x hx hzero
  subst hzero
  revert hx
  show (0 : UInt8) ∉ zeroCipher.decryptBlock []
  decide

section
variable {cipher : BlockCipher} {head tail : List UInt8} {w i : ℕ} {bytes : List UInt8}

theorem ne_zero_of_mem_firstBytes (hcipher : cipher.NoZeros) {left : ℕ} {x : UInt8}
    (hx : x ∈ firstBytes cipher head tail left bytes) : x ≠ 0 :=
  hcipher _ x (List.mem_of_mem_drop (List.mem_of_mem_take hx))

theorem ne_zero_of_mem_decryptBlocks (hcipher : cipher.NoZeros) {k : ℕ} {x : UInt8}
    (hx : x ∈ decryptBlocks cipher k bytes) (hlen : bytes.length = k * BLOCK_SIZE) : x ≠ 0 := by
  induction k generalizing bytes with
  | zero =>
    obtain rfl : bytes = [] := List.eq_nil_of_length_eq_zero (by omega)
    exact nomatch hx
  | succ k ih =>
    rw [Nat.succ_mul] at hlen
    rw [decryptBlocks] at hx
    rcases List.mem_append.1 hx with hx | hx
    · exact hcipher _ x hx
    · exact ih hx (by rw [List.length_drop]; omega)

theorem ne_zero_of_mem_runBytes (hcipher : cipher.NoZeros) {run : List UInt8} {x : UInt8}
    (hx : x ∈ runBytes cipher tail run) : x ≠ 0 := by
  rw [runBytes] at hx
  rcases List.mem_append.1 hx with hx | hx
  · refine ne_zero_of_mem_decryptBlocks hcipher hx ?_
    rw [List.length_take, Nat.min_eq_left (Nat.div_mul_le_self _ _)]
  · split_ifs at hx
    · cases hx
    · exact hcipher _ x (List.mem_of_mem_take hx)

theorem getElem?_midBytes_mem (htail : tail.length = BLOCK_SIZE) {start stop : ℕ} (hstart : start ≤ i)
    (hi : i < stop) (hstop : stop ≤ bytes.length) : (midBytes cipher tail start stop bytes)[i]? =
      (runBytes cipher tail ((bytes.take stop).drop start))[i - start]? := by
  have htake : (bytes.take start).length = start := by
    rw [List.length_take]
    omega
  have hrun : (runBytes cipher tail ((bytes.take stop).drop start)).length = stop - start := by
    rw [length_runBytes htail, List.length_drop, List.length_take]
    omega
  rw [midBytes, List.append_assoc, List.getElem?_append_right (by omega), htake,
    List.getElem?_append_left (by omega)]

/-- **A byte that a range touches is decrypted.** -/
theorem ne_zero_of_touches (hcipher : cipher.NoZeros) (hhead : head.length = BLOCK_SIZE)
    (htail : tail.length = BLOCK_SIZE) {range : Range} (hi : i < bytes.length)
    (htouch : range.Touches w (w + i)) {x : UInt8}
    (hx : (decryptRange cipher head tail w bytes range)[i]? = some x) : x ≠ 0 := by
  have hinto : range.into w < BLOCK_SIZE := Nat.mod_lt _ (by decide)
  obtain ⟨⟨hstart, hstop⟩, htouch⟩ := htouch
  rw [decryptRange] at hx
  dsimp only at hx
  by_cases hcut : range.Cuts w
  · have hlen : (firstBytes cipher head tail (range.into w) bytes).length = _ :=
      length_firstBytes hhead htail hinto bytes
    have hfirst : (firstBytes cipher head tail (range.into w) bytes ++
        bytes.drop (BLOCK_SIZE - range.into w)).length = bytes.length := by
      rw [List.length_append, hlen, List.length_drop]
      omega
    rw [if_pos hcut] at hx
    rcases Nat.lt_or_ge i (BLOCK_SIZE - range.into w) with hlt | hge
    · -- a byte of the block that is cut
      have hkept : (firstBytes cipher head tail (range.into w) bytes ++
          bytes.drop (BLOCK_SIZE - range.into w))[i]? = some x := by
        split_ifs at hx
        · exact hx
        · rwa [getElem?_midBytes htail (by omega) (by omega) (.inl (by omega))] at hx
      rw [List.getElem?_append_left (by omega)] at hkept
      exact ne_zero_of_mem_firstBytes hcipher (List.mem_of_getElem? hkept)
    · have hafter : w + (BLOCK_SIZE - range.into w) ≤ i := by
        by_contra hlt
        exact htouch ⟨hcut, by omega, by omega⟩
      rw [if_neg (by omega), getElem?_midBytes_mem htail hafter (by omega) (by omega)] at hx
      exact ne_zero_of_mem_runBytes hcipher (List.mem_of_getElem? hx)
  · rw [if_neg hcut, if_neg (by omega), getElem?_midBytes_mem htail (by omega) (by omega) (by omega)] at hx
    exact ne_zero_of_mem_runBytes hcipher (List.mem_of_getElem? hx)

theorem ne_zero_of_foldl (hcipher : cipher.NoZeros) (hhead : head.length = BLOCK_SIZE)
    (htail : tail.length = BLOCK_SIZE) {ranges : List Range} (hi : i < bytes.length)
    (hw : ∀ r ∈ ranges, w < r.extent.stop)
    (h : (∃ r ∈ ranges, r.Touches w (w + i)) ∨ ∀ x, bytes[i]? = some x → x ≠ 0) {x : UInt8}
    (hx : (ranges.foldl (decryptRange cipher head tail w) bytes)[i]? = some x) : x ≠ 0 := by
  induction ranges generalizing bytes with
  | nil =>
    rcases h with ⟨r, hr, -⟩ | h
    · exact nomatch hr
    · exact h x hx
  | cons r ranges ih =>
    obtain ⟨hr, hranges⟩ := List.forall_mem_cons.1 hw
    refine ih (by rwa [length_decryptRange hhead htail]) hranges ?_ hx
    by_cases htouch : r.Touches w (w + i)
    · exact .inr fun x hx => ne_zero_of_touches hcipher hhead htail hi htouch hx
    · rw [getElem?_decryptRange hhead htail hr htouch]
      rcases h with ⟨s, hs, hmem⟩ | h
      · rcases List.mem_cons.1 hs with rfl | hs
        · exact absurd hmem htouch
        · exact .inl ⟨s, hs, hmem⟩
      · exact .inr h

end

/-! ## Neighbours -/

/-- The head and the tail of a ciphertext have the stored bytes of a file of a
    size that are next to the body. -/
structure Ciphertext.SeesStored (ciphertext : Ciphertext) (F : ℕ → UInt8) (size : ℕ) : Prop where
  head : ciphertext.head.toList.drop (BLOCK_SIZE - min BLOCK_SIZE ciphertext.fileOffset.toNat) =
    window F (ciphertext.fileOffset.toNat - min BLOCK_SIZE ciphertext.fileOffset.toNat)
      (min BLOCK_SIZE ciphertext.fileOffset.toNat)
  tail : ciphertext.tail.toList.take
      (min BLOCK_SIZE (size - (ciphertext.fileOffset.toNat + ciphertext.body.length))) =
    window F (ciphertext.fileOffset.toNat + ciphertext.body.length)
      (min BLOCK_SIZE (size - (ciphertext.fileOffset.toNat + ciphertext.body.length)))

/-- No chunk decrypts one of the 16 bytes before the next chunk. -/
def HeadsKept (ranges : List Range) (o l : ℕ) : Prop :=
  ∀ k, o + (k + 1) * BUFFER_LEN < o + l →
    ∀ p, o + (k + 1) * BUFFER_LEN ≤ p + BLOCK_SIZE → p < o + (k + 1) * BUFFER_LEN →
      ∀ r ∈ reached (o + k * BUFFER_LEN) (o + (k + 1) * BUFFER_LEN) ranges, ¬ r.Touches (o + k * BUFFER_LEN) p

/-- The last chunk is not the first one and has less than 16 bytes, and the file
    goes on. -/
def ShortTail (size o l : ℕ) : Prop :=
  BUFFER_LEN < l ∧ 0 < l % BUFFER_LEN ∧ l % BUFFER_LEN < BLOCK_SIZE ∧ o + l < size

/-- The length of the last chunk. -/
theorem shortTail_iff {size o l : ℕ} : ShortTail size o l ↔ o + l < size ∧
    ∃ k n, l = (k + 1) * BUFFER_LEN + n ∧ 0 < n ∧ n < BLOCK_SIZE := by
  have hbuffer : BUFFER_LEN = 32768 := rfl
  have hblock : BLOCK_SIZE = 16 := rfl
  rw [ShortTail]
  constructor
  · rintro ⟨hlt, hpos, hshort, hsize⟩
    have hcount : l / BUFFER_LEN ≠ 0 := Nat.div_ne_zero_iff.2 ⟨by omega, Nat.le_of_lt hlt⟩
    obtain ⟨k, hk⟩ := Nat.exists_eq_succ_of_ne_zero hcount
    have hdiv := Nat.div_add_mod' l BUFFER_LEN
    rw [hk] at hdiv
    exact ⟨hsize, k, _, hdiv.symm, hpos, hshort⟩
  · rintro ⟨hsize, k, n, rfl, hpos, hshort⟩
    have hge : BUFFER_LEN ≤ (k + 1) * BUFFER_LEN := Nat.le_mul_of_pos_left _ (Nat.succ_pos k)
    have hmod : ((k + 1) * BUFFER_LEN + n) % BUFFER_LEN = n := by
      rw [Nat.add_comm, Nat.add_mul_mod_self_right, Nat.mod_eq_of_lt (by omega)]
    rw [hmod]
    exact ⟨by omega, hpos, hshort, hsize⟩

section
variable {F : ℕ → UInt8} {prev next : List UInt8} {o l size : ℕ} {cipher : BlockCipher}
  {ranges : List Range}

variable (F prev next o l size) in
/-- The bytes before and after the request are the stored ones. -/
structure EndsStored : Prop where
  head : (lastBlock prev).toList.drop (BLOCK_SIZE - min BLOCK_SIZE o) =
    window F (o - min BLOCK_SIZE o) (min BLOCK_SIZE o)
  tail : 0 < l → (firstBlock next).toList.take (min BLOCK_SIZE (size - (o + l))) =
    window F (o + l) (min BLOCK_SIZE (size - (o + l)))

theorem toNat_roundAt {D : Ciphertext → List UInt8} {stop c k : ℕ} (hstop : stop < 2 ^ 32)
    (hk : k < chunkCount c stop) :
    (roundAt F next D stop c prev k).fileOffset.toNat = c + k * BUFFER_LEN := by
  have hlt := lt_chunkCount.1 hk
  exact UInt32.toNat_ofNat_of_lt' (by show c + k * BUFFER_LEN < 2 ^ 32; omega)

theorem length_body_roundAt {D : Ciphertext → List UInt8} {stop c : ℕ} (k : ℕ) :
    (roundAt F next D stop c prev k).body.length = min (stop - (c + k * BUFFER_LEN)) BUFFER_LEN :=
  length_window _ _ _

/-- What the chunk before another one has become. -/
theorem prevOf_eq {stop c k : ℕ} (hstop : stop < 2 ^ 32) (hk : k + 1 < chunkCount c stop) :
    prevOf F next (decrypted cipher ranges) stop c prev (k + 1) =
      (reached (c + k * BUFFER_LEN) (c + (k + 1) * BUFFER_LEN) ranges).foldl (decryptRange cipher
        (lastBlock (prevOf F next (decrypted cipher ranges) stop c prev k)).toList
        (firstBlock (following F next stop (c + k * BUFFER_LEN))).toList (c + k * BUFFER_LEN))
          (window F (c + k * BUFFER_LEN) BUFFER_LEN) := by
  have hlt := lt_chunkCount.1 hk
  rw [Nat.succ_mul] at hlt
  have hfull : min (stop - (c + k * BUFFER_LEN)) BUFFER_LEN = BUFFER_LEN := by omega
  rw [prevOf, decrypted_round hstop (by omega), hfull, Nat.succ_mul, Nat.add_assoc]

/-- **Decryption sees the stored neighbour bytes**, if the ends of a request are
    the stored ones and no chunk spoils those of another. -/
theorem seesStored_rounds (hstop : o + l < 2 ^ 32)
    (hsorted : ranges.Pairwise fun a b => a.extent.stop ≤ b.extent.stop)
    (hends : EndsStored F prev next o l size) (hkept : HeadsKept ranges o l) (hshort : ¬ ShortTail size o l) :
    ∀ ciphertext ∈ ciphertexts (rounds F next (decrypted cipher ranges) (o + l) o prev),
      ciphertext.SeesStored F size := by
  have hblock : BLOCK_SIZE = 16 := rfl
  have hbuffer : BUFFER_LEN = 32768 := rfl
  intro ciphertext hmem
  rw [ciphertexts_rounds, List.mem_map] at hmem
  obtain ⟨k, hk, rfl⟩ := hmem
  rw [List.mem_range] at hk
  have hlt := lt_chunkCount.1 hk
  have hoffset : (roundAt F next (decrypted cipher ranges) (o + l) o prev k).fileOffset.toNat = _ :=
    toNat_roundAt hstop hk
  constructor
  · rw [hoffset]
    cases k with
    | zero =>
      rw [roundAt_zero, Nat.zero_mul, Nat.add_zero]
      exact hends.head
    | succ k =>
      have hprev : prevOf F next (decrypted cipher ranges) (o + l) o prev (k + 1) = _ :=
        prevOf_eq hstop hk
      have hge : BUFFER_LEN ≤ (k + 1) * BUFFER_LEN := Nat.le_mul_of_pos_left _ (Nat.succ_pos k)
      have hmin : min BLOCK_SIZE (o + (k + 1) * BUFFER_LEN) = BLOCK_SIZE := by omega
      have hlen : (prevOf F next (decrypted cipher ranges) (o + l) o prev (k + 1)).length = BUFFER_LEN := by
        rw [hprev, length_foldl_decryptRange (by simp [BLOCK_SIZE]) (by simp [BLOCK_SIZE]), length_window]
      show (lastBlock (prevOf F next (decrypted cipher ranges) (o + l) o prev (k + 1))).toList.drop _ = _
      rw [hmin, drop_lastBlock (Nat.le_refl _) (by omega), hlen]
      refine eq_window F (by rw [List.length_drop]; omega) fun i hi => ?_
      rw [List.getElem?_drop, hprev, getElem?_foldl_decryptRange (by simp [BLOCK_SIZE]) (by simp [BLOCK_SIZE]),
        getElem?_window F (by omega)]
      · congr 2
        rw [Nat.succ_mul]
        omega
      · intro r hr
        rw [Nat.succ_mul] at hlt
        refine ⟨lt_of_mem_reached hsorted hr, hkept k (by rw [Nat.succ_mul]; exact hlt) _ ?_ ?_ r hr⟩
        · rw [Nat.succ_mul]
          omega
        · rw [Nat.succ_mul]
          omega
  · rw [hoffset, length_body_roundAt]
    show (firstBlock (following F next (o + l) (o + k * BUFFER_LEN))).toList.take _ = _
    rw [following]
    split_ifs with hnext
    · -- a short chunk is the end of the file
      have hle : min BLOCK_SIZE (size - (o + k * BUFFER_LEN + BUFFER_LEN)) ≤
          min (o + l - (o + k * BUFFER_LEN + BUFFER_LEN)) BUFFER_LEN := by
        by_contra hgt
        refine hshort (shortTail_iff.2 ⟨?_, k, o + l - (o + k * BUFFER_LEN + BUFFER_LEN), ?_⟩)
        · omega
        · rw [Nat.succ_mul]
          omega
      have hmin : min (o + l - (o + k * BUFFER_LEN)) BUFFER_LEN = BUFFER_LEN := by omega
      rw [hmin, chunkBytes, take_firstBlock (Nat.min_le_left _ _) (by rwa [length_window]), take_window,
        Nat.min_eq_left hle]
    · have hmin : o + k * BUFFER_LEN + min (o + l - (o + k * BUFFER_LEN)) BUFFER_LEN = o + l := by omega
      rw [hmin]
      exact hends.tail (by omega)

/-- If decryption sees the stored neighbour bytes of a file of zeros, no chunk
    spoils those before another. -/
theorem headsKept_of_seesStored (hcipher : cipher.NoZeros) (hstop : o + l < 2 ^ 32)
    (hsorted : ranges.Pairwise fun a b => a.extent.stop ≤ b.extent.stop)
    (h : ∀ ciphertext ∈ ciphertexts (rounds (fun _ => 0) next (decrypted cipher ranges) (o + l) o prev),
      ciphertext.SeesStored (fun _ => 0) size) : HeadsKept ranges o l := by
  have hblock : BLOCK_SIZE = 16 := rfl
  have hbuffer : BUFFER_LEN = 32768 := rfl
  intro k hk p hle hp r hr htouch
  have hcount : k + 1 < chunkCount o (o + l) := lt_chunkCount.2 hk
  have hprev : prevOf (fun _ => 0) next (decrypted cipher ranges) (o + l) o prev (k + 1) = _ :=
    prevOf_eq hstop hcount
  have hoffset : (roundAt (fun _ => 0) next (decrypted cipher ranges) (o + l) o prev
      (k + 1)).fileOffset.toNat = _ := toNat_roundAt hstop hcount
  have hge : BUFFER_LEN ≤ (k + 1) * BUFFER_LEN := Nat.le_mul_of_pos_left _ (Nat.succ_pos k)
  have hmin : min BLOCK_SIZE (o + (k + 1) * BUFFER_LEN) = BLOCK_SIZE := by omega
  have hlen : (prevOf (fun _ => 0) next (decrypted cipher ranges) (o + l) o prev (k + 1)).length =
      BUFFER_LEN := by
    rw [hprev, length_foldl_decryptRange (by simp [BLOCK_SIZE]) (by simp [BLOCK_SIZE]), length_window]
  have hmem : roundAt (fun _ => 0) next (decrypted cipher ranges) (o + l) o prev (k + 1) ∈
      ciphertexts (rounds (fun _ => 0) next (decrypted cipher ranges) (o + l) o prev) := by
    rw [ciphertexts_rounds]
    exact List.mem_map_of_mem (List.mem_range.2 hcount)
  have hhead := (h _ hmem).head
  rw [hoffset, hmin] at hhead
  have hdrop : (prevOf (fun _ => 0) next (decrypted cipher ranges) (o + l) o prev (k + 1)).drop
      (BUFFER_LEN - BLOCK_SIZE) = window (fun _ => 0) (o + (k + 1) * BUFFER_LEN - BLOCK_SIZE) BLOCK_SIZE := by
    rw [← hhead, ← hlen]
    exact (drop_lastBlock (Nat.le_refl _) (by omega)).symm
  rw [Nat.succ_mul] at hle hp
  have hbyte := congrArg (·[p + BLOCK_SIZE - (o + (k + 1) * BUFFER_LEN)]?) hdrop
  rw [List.getElem?_drop, getElem?_window _ (by rw [Nat.succ_mul]; omega), hprev] at hbyte
  have hi : BUFFER_LEN - BLOCK_SIZE + (p + BLOCK_SIZE - (o + (k + 1) * BUFFER_LEN)) =
      p - (o + k * BUFFER_LEN) := by
    rw [Nat.succ_mul]
    omega
  have hpos : o + k * BUFFER_LEN + (p - (o + k * BUFFER_LEN)) = p := by omega
  rw [hi] at hbyte
  exact ne_zero_of_foldl hcipher (by simp [BLOCK_SIZE]) (by simp [BLOCK_SIZE])
    (by rw [length_window]; omega) (fun _ => lt_of_mem_reached hsorted)
    (.inl ⟨r, hr, by rwa [hpos]⟩) hbyte rfl

/-- If decryption sees the stored neighbour bytes of a file of ones, the last
    chunk does not hide those after it. -/
theorem not_shortTail_of_seesStored {D : Ciphertext → List UInt8} (hstop : o + l < 2 ^ 32)
    (h : ∀ ciphertext ∈ ciphertexts (rounds (fun _ => 1) next D (o + l) o prev),
      ciphertext.SeesStored (fun _ => 1) size) : ¬ ShortTail size o l := by
  rw [shortTail_iff]
  rintro ⟨hsize, k, n, hl, hpos, hshort⟩
  have hblock : BLOCK_SIZE = 16 := rfl
  have hbuffer : BUFFER_LEN = 32768 := rfl
  rw [Nat.succ_mul] at hl
  have hlast : min (o + l - (o + k * BUFFER_LEN + BUFFER_LEN)) BUFFER_LEN = n := by omega
  have hnext : following (fun _ => 1) next (o + l) (o + k * BUFFER_LEN) =
      window (fun _ => 1) (o + k * BUFFER_LEN + BUFFER_LEN) n := by
    rw [following, if_pos (by omega), chunkBytes, hlast]
  have hbound : n < min BLOCK_SIZE (size - (o + k * BUFFER_LEN + BUFFER_LEN)) := by omega
  have hk' : k < chunkCount o (o + l) := lt_chunkCount.2 (by omega)
  have hfull : min (o + l - (o + k * BUFFER_LEN)) BUFFER_LEN = BUFFER_LEN := by omega
  have hmem : roundAt (fun _ => 1) next D (o + l) o prev k ∈
      ciphertexts (rounds (fun _ => 1) next D (o + l) o prev) := by
    rw [ciphertexts_rounds]
    exact List.mem_map_of_mem (List.mem_range.2 hk')
  have htail := (h _ hmem).tail
  rw [toNat_roundAt hstop hk', length_body_roundAt, hfull] at htail
  have hbyte := congrArg (·[n]?) htail
  rw [getElem?_window _ hbound, List.getElem?_take_of_lt hbound] at hbyte
  have hzero : (roundAt (fun _ => 1) next D (o + l) o prev k).tail.toList[n]? = some 0 := by
    show (firstBlock (following (fun _ => 1) next (o + l) (o + k * BUFFER_LEN))).toList[_]? = _
    rw [hnext]
    show ((window (fun _ => 1) _ _).take BLOCK_SIZE ++ List.replicate _ 0)[_]? = _
    rw [List.take_of_length_le (by rw [length_window]; exact Nat.le_of_lt hshort),
      List.getElem?_append_right (by simp), length_window, Nat.sub_self,
      List.getElem?_replicate_of_lt (Nat.sub_pos_of_lt hshort)]
  rw [hzero] at hbyte
  exact absurd hbyte (by decide)

end

/-! ## Requests -/

namespace DvdbndMount
variable {mount : DvdbndMount} {inode fileOffset : UInt64} {len : UInt32} {file : DvdbndFile} {o l : ℕ}
  {E : Type} [FileEntry E] {entry : E} {encryption : Encryption}

/-- The bytes before and after a request are the stored ones. -/
theorem Neighbours.endsStored {bdt : ℕ → UInt8} {prev next : List UInt8}
    (h : Neighbours file bdt o l prev next) :
    EndsStored (fun i => bdt (file.dataOffset.toNat + i)) prev next o l file.len.toNat := by
  have hblock : BLOCK_SIZE = 16 := rfl
  have hshift : ∀ c n, window (fun i => bdt (file.dataOffset.toNat + i)) c n =
      window bdt (file.dataOffset.toNat + c) n := by
    intro c n
    refine List.map_congr_left fun i _ => ?_
    rw [Nat.add_assoc]
  constructor
  · obtain ⟨m, hm, hle, rfl⟩ := h.prev
    rw [drop_lastBlock (Nat.min_le_left _ _) (by rw [length_window]; omega), length_window, drop_window, hshift]
    congr 1 <;> omega
  · intro hl
    obtain ⟨m, hm, rfl⟩ := h.next hl
    rw [take_firstBlock (Nat.min_le_left _ _) (by rw [length_window]; omega), take_window, hshift,
      Nat.min_eq_left (by omega)]

/-- Only a request inside of the file, with room for its windows, decrypts. -/
theorem inBounds_of_mem_ciphertexts (hstop : o + l < 2 ^ 32) (hstored : Stored mount.fs file entry encryption)
    {ciphertext : Ciphertext} (hmem : ciphertext ∈ ciphertexts (mount.readAt file o l).events) :
    file.InBounds o l ∧ file.HasWindows mount.platform o l ∧
      ∃ reader, mount.bdts file.srcId = .ok reader := by
  rcases hreader : mount.bdts file.srcId with s | reader
  · obtain ⟨_, hrun⟩ := readAt_of_error (o := o) (l := l) hreader
    rw [hrun] at hmem
    exact nomatch hmem
  · obtain ⟨id, out, out', rest, hid, hget, -⟩ := hstored
    have hnot : ¬ (file.InBounds o l → file.encryptionId.isSome = true ∧
        ¬ file.HasWindows mount.platform o l) := by
      intro h
      rw [readAt_panic hstop hreader (fun _ _ => ⟨_, hget⟩) h] at hmem
      exact nomatch hmem
    rw [Classical.not_imp, not_and, not_not] at hnot
    exact ⟨hnot.1, hnot.2 (by rw [hid]; rfl), reader, rfl⟩

variable (mount inode fileOffset len file) in
/-- Decryption sees the stored neighbour bytes, whatever the BDT holds, and for
    any key. -/
def SeesStored : Prop :=
  ∀ (aes : Vector UInt8 16 → BlockCipher) (bdts : SrcId → Checked ReadManagedAt) (bdt : ℕ → UInt8),
    (∀ reader, bdts file.srcId = .ok reader → Exact reader bdt) →
      ∀ ciphertext ∈ ciphertexts ({ mount with bdts := bdts, aes := aes }.readFile inode fileOffset
        len).events, ciphertext.SeesStored (fun i => bdt (file.dataOffset.toNat + i)) file.len.toNat

/-- What a request for a file of equal bytes decrypts. -/
theorem SeesStored.rounds (h : mount.SeesStored inode fileOffset len file)
    (hfile : mount.IsFile inode file) (hstored : Stored mount.fs file entry encryption)
    (hin : file.InBounds (file.readOffset fileOffset) (file.readLen fileOffset len))
    (hwindows : file.HasWindows mount.platform (file.readOffset fileOffset) (file.readLen fileOffset len))
    (hlen : 0 < file.readLen fileOffset len) (cipher : BlockCipher) (x : UInt8) :
    ∃ prev next, ∀ ciphertext ∈ ciphertexts (Dvdbnd.rounds (fun _ => x) next
        (decrypted cipher (recordRanges encryption))
        (file.readOffset fileOffset + file.readLen fileOffset len) (file.readOffset fileOffset) prev),
      ciphertext.SeesStored (fun _ => x) file.len.toNat := by
  let reader : ReadManagedAt := fun len pos => .ok (some (window (fun _ => x) pos len))
  have hexact : Exact reader fun _ => x := fun _ _ _ => rfl
  have hsees := h (fun _ => cipher) (fun _ => .ok reader) (fun _ => x) fun reader' heq => by
    cases heq
    exact hexact
  have hfile' : { mount with bdts := fun _ => .ok reader, aes := fun _ => cipher }.IsFile inode file := hfile
  rw [readFile_eq hfile'] at hsees
  have hstop := file.readEnd_lt fileOffset len
  obtain ⟨prev, next, -, hrun⟩ := @readAt_stored { mount with
    bdts := fun _ => .ok reader, aes := fun _ => cipher } _ _ _ _ _ _ _ _ _ hstop hstored rfl hexact hin hwindows
  have hne : ¬ (file.len = 0 ∧ file.dataOffset.toNat < mount.platform.windowSize) := by
    rintro ⟨hzero, -⟩
    have hle := hin.2
    rw [hzero] at hle
    have : (0 : UInt32).toNat = 0 := rfl
    omega
  rw [hrun, if_neg hne] at hsees
  exact ⟨prev, next, hsees⟩

/-- If decryption sees the stored neighbour bytes, no chunk of the request
    spoils or hides those of another. -/
theorem SeesStored.kept (h : mount.SeesStored inode fileOffset len file)
    (hfile : mount.IsFile inode file) (hstored : Stored mount.fs file entry encryption)
    (hin : file.InBounds (file.readOffset fileOffset) (file.readLen fileOffset len))
    (hwindows : file.HasWindows mount.platform (file.readOffset fileOffset) (file.readLen fileOffset len)) :
    HeadsKept (recordRanges encryption) (file.readOffset fileOffset) (file.readLen fileOffset len) ∧
      ¬ ShortTail file.len.toNat (file.readOffset fileOffset) (file.readLen fileOffset len) := by
  have hstop := file.readEnd_lt fileOffset len
  have hrounds := h.rounds hfile hstored hin hwindows
  obtain ⟨-, hsorted⟩ := hstored.ranges
  generalize file.readOffset fileOffset = o at *
  generalize file.readLen fileOffset len = l at *
  rcases Nat.eq_zero_or_pos l with rfl | hl
  · refine ⟨fun k hk => absurd hk (by omega), fun hshort => absurd hshort.1 (Nat.not_lt_zero _)⟩
  · obtain ⟨prev, next, hzeros⟩ := hrounds hl zeroCipher 0
    obtain ⟨prev', next', hones⟩ := hrounds hl zeroCipher 1
    exact ⟨headsKept_of_seesStored noZeros_zeroCipher hstop hsorted hzeros,
      not_shortTail_of_seesStored hstop hones⟩

/-- **Decryption sees the stored neighbour bytes** if and only if no chunk of the
    request spoils or hides those of another. -/
theorem seesStored_iff (hfile : mount.IsFile inode file) (hstored : Stored mount.fs file entry encryption) :
    mount.SeesStored inode fileOffset len file ↔
      (file.InBounds (file.readOffset fileOffset) (file.readLen fileOffset len) →
        file.HasWindows mount.platform (file.readOffset fileOffset) (file.readLen fileOffset len) →
          HeadsKept (recordRanges encryption) (file.readOffset fileOffset) (file.readLen fileOffset len) ∧
            ¬ ShortTail file.len.toNat (file.readOffset fileOffset) (file.readLen fileOffset len)) := by
  constructor
  · exact fun h hin hwindows => h.kept hfile hstored hin hwindows
  · intro h aes bdts bdt hexact ciphertext hmem
    have hstop := file.readEnd_lt fileOffset len
    have hfile' : { mount with bdts := bdts, aes := aes }.IsFile inode file := hfile
    have hstored' : Stored { mount with bdts := bdts, aes := aes }.fs file entry encryption := hstored
    rw [readFile_eq hfile'] at hmem
    obtain ⟨hin, hwindows, reader, hreader⟩ := inBounds_of_mem_ciphertexts hstop hstored' hmem
    obtain ⟨hkept, hshort⟩ := h hin hwindows
    obtain ⟨prev, next, hneighbours, hrun⟩ :=
      readAt_stored hstop hstored' hreader (hexact reader hreader) hin hwindows
    rw [hrun] at hmem
    split_ifs at hmem
    · exact nomatch hmem
    · exact seesStored_rounds hstop hstored.ranges.2 hneighbours.endsStored hkept hshort _ hmem

theorem not_seesStored : ¬ ∀ (mount : DvdbndMount) (inode fileOffset : UInt64) (len : UInt32)
    (file : DvdbndFile) (entry : FileEntryDs2) (encryption : Encryption), mount.IsFile inode file →
      Stored mount.fs file entry encryption → mount.SeesStored inode fileOffset len file := by
  intro h
  let entry : FileEntryDs2 := ⟨7, 32784, 100, 0, 1⟩
  have hacc : ∀ r ∈ longEncryption.ranges, r.Accepted (FileEntry.fileSize entry).toNat := by
    intro r hr
    rw [List.mem_singleton.1 hr]
    exact .inr (.inl ⟨by decide, by decide, by decide⟩)
  obtain ⟨store, hstore⟩ := exists_store_firstId (by decide) hacc
  have hstored : Stored (ofZeros .unix longFile store).fs longFile entry longEncryption :=
    stored_ofZeros rfl hstore
  have hfile := isFile_ofZeros .unix longFile store
  have hsees := h _ 1 0 32784 longFile entry longEncryption hfile hstored
  have hwindows : longFile.HasWindows .unix (longFile.readOffset 0) (longFile.readLen 0 32784) := by decide
  have hkept := (hsees.kept hfile hstored (by decide) hwindows).1
  rw [recordRanges_longEncryption] at hkept
  refine hkept 0 (by decide) 32767 (by decide) (by decide) ⟨0, 2049⟩ (by decide) ⟨by decide, fun hcut => ?_⟩
  exact hcut.1.2 rfl

theorem seesStored_oneBlock :
    ∃ store, (ofZeros .unix oneBlockFile store).SeesStored 1 5 20 oneBlockFile := by
  have hacc : ∀ r ∈ zeroEncryption.ranges, r.Accepted
      (FileEntry.fileSize (⟨7, 48, 100, 0, 1⟩ : FileEntryDs2)).toNat := by
    intro r hr
    rw [List.mem_singleton.1 hr]
    exact .inr (.inl ⟨by decide, by decide, by decide⟩)
  obtain ⟨store, hstore⟩ := exists_store_firstId (by decide) hacc
  refine ⟨store, (seesStored_iff (isFile_ofZeros _ _ _) (stored_ofZeros rfl hstore)).2 fun _ _ => ?_⟩
  have hlen : oneBlockFile.readLen 5 20 = 20 := by decide
  rw [hlen]
  refine ⟨fun k hk => ?_, fun hshort => absurd hshort.1 (by decide)⟩
  have hge : BUFFER_LEN ≤ (k + 1) * BUFFER_LEN := Nat.le_mul_of_pos_left _ (Nat.succ_pos k)
  have hbuffer : BUFFER_LEN = 32768 := rfl
  omega

end DvdbndMount

end Fsvfs.Dvdbnd
