/-
  The decrypted file, and what decryption makes of a window of it.

  A file is a function of the position.  `plain cipher F ranges` is the file `F`
  where the blocks of the ranges are decrypted.

  * `foldl_decryptRange_eq`: the loop over the ranges makes of a window of the
    stored file that window of the decrypted one, if no range goes on after a
    block that the window begins inside of;
  * `decryptsWindow_iff`: that is the only way it goes wrong, but for a range
    after the window that hides one that is in it.
-/
import Fsvfs.Dvdbnd.Decrypt
import Mathlib.Data.List.TakeWhile

namespace Fsvfs.Dvdbnd

open Lib Lib.Checked

/-- The decrypted file. -/
def plain (cipher : BlockCipher) (F : ℕ → UInt8) (ranges : List Range) : ℕ → UInt8 :=
  patched cipher.decryptBlock BLOCK_SIZE F (ranges.map Range.extent)

namespace Range

/-- The head ends with the stored bytes of the block that is cut at `w`. -/
def HeadFits (range : Range) (F : ℕ → UInt8) (head : List UInt8) (w : ℕ) : Prop :=
  range.Cuts w → head.drop (BLOCK_SIZE - range.into w) = window F (w - range.into w) (range.into w)

/-- The tail begins with the stored bytes of the block that is cut at `e`. -/
def TailFits (range : Range) (F : ℕ → UInt8) (tail : List UInt8) (e : ℕ) : Prop :=
  range.Cuts e → tail.take (BLOCK_SIZE - range.into e) = window F e (BLOCK_SIZE - range.into e)

/-- The range does not go on in `[w, e)` after a block that is cut at `w`. -/
def OneBlock (range : Range) (w e : ℕ) : Prop :=
  range.Cuts w → min e range.extent.stop ≤ w + (BLOCK_SIZE - range.into w)

instance (range : Range) (w e : ℕ) : Decidable (range.OneBlock w e) := inferInstanceAs (Decidable (_ → _))

end Range

/-! ## Runs of blocks -/

section
variable {cipher : BlockCipher} {F : ℕ → UInt8} {head tail : List UInt8}

theorem decryptBlocks_window (k origin : ℕ) :
    decryptBlocks cipher k (window F origin (k * BLOCK_SIZE)) =
      window (mapBlocks cipher.decryptBlock BLOCK_SIZE F origin) origin (k * BLOCK_SIZE) := by
  induction k generalizing origin with
  | zero => simp [decryptBlocks]
  | succ k ih =>
    have hlen : (k + 1) * BLOCK_SIZE = BLOCK_SIZE + k * BLOCK_SIZE := by rw [Nat.succ_mul, Nat.add_comm]
    have hnext : window (mapBlocks cipher.decryptBlock BLOCK_SIZE F (origin + BLOCK_SIZE))
        (origin + BLOCK_SIZE) (k * BLOCK_SIZE) =
          window (mapBlocks cipher.decryptBlock BLOCK_SIZE F origin) (origin + BLOCK_SIZE)
            (k * BLOCK_SIZE) := by
      refine window_congr fun i hi _ => ?_
      have h1 : mapBlocks cipher.decryptBlock BLOCK_SIZE F (origin + 1 * BLOCK_SIZE) i =
          mapBlocks cipher.decryptBlock BLOCK_SIZE F origin i :=
        mapBlocks_of_dvd cipher.decryptBlock F (by omega)
      rwa [Nat.one_mul] at h1
    rw [hlen, window_add, decryptBlocks, List.take_left' (length_window F _ _),
      List.drop_left' (length_window F _ _), ih, hnext, window_add,
      window_mapBlocks F cipher.length_decryptBlock]

/-- A run of blocks is decrypted, if the tail has the rest of the last one. -/
theorem runBytes_window {origin len : ℕ} (htail : len % BLOCK_SIZE ≠ 0 →
    tail.take (BLOCK_SIZE - len % BLOCK_SIZE) =
      window F (origin + len) (BLOCK_SIZE - len % BLOCK_SIZE)) :
    runBytes cipher tail (window F origin len) =
      window (mapBlocks cipher.decryptBlock BLOCK_SIZE F origin) origin len := by
  have hdiv := Nat.div_add_mod' len BLOCK_SIZE
  have hmod := Nat.mod_lt len (by decide : 0 < BLOCK_SIZE)
  have hle : len / BLOCK_SIZE * BLOCK_SIZE ≤ len := Nat.div_mul_le_self _ _
  have hrest : (window F origin len).drop (len / BLOCK_SIZE * BLOCK_SIZE) =
      window F (origin + len / BLOCK_SIZE * BLOCK_SIZE) (len % BLOCK_SIZE) := by
    rw [drop_window]
    congr 1
    omega
  rw [runBytes, length_window, hrest, take_window, Nat.min_eq_left hle, decryptBlocks_window, length_window]
  by_cases hzero : len % BLOCK_SIZE = 0
  · have hlen : len / BLOCK_SIZE * BLOCK_SIZE = len := by omega
    rw [hzero, if_pos (window_zero F _), List.append_nil, hlen]
  · have hne : window F (origin + len / BLOCK_SIZE * BLOCK_SIZE) (len % BLOCK_SIZE) ≠ [] := fun h => by
      have := congrArg List.length h
      rw [length_window] at this
      exact hzero this
    -- the last block is made of the rest and of the tail
    have hblock : window F (origin + len / BLOCK_SIZE * BLOCK_SIZE) (len % BLOCK_SIZE) ++
        tail.take (BLOCK_SIZE - len % BLOCK_SIZE) =
          window F (origin + len / BLOCK_SIZE * BLOCK_SIZE) BLOCK_SIZE := by
      rw [htail hzero, show origin + len = origin + len / BLOCK_SIZE * BLOCK_SIZE + len % BLOCK_SIZE by omega,
        ← window_add, Nat.add_sub_cancel' (Nat.le_of_lt hmod)]
    have hshift : window (mapBlocks cipher.decryptBlock BLOCK_SIZE F
        (origin + len / BLOCK_SIZE * BLOCK_SIZE)) (origin + len / BLOCK_SIZE * BLOCK_SIZE)
          (len % BLOCK_SIZE) = window (mapBlocks cipher.decryptBlock BLOCK_SIZE F origin)
            (origin + len / BLOCK_SIZE * BLOCK_SIZE) (len % BLOCK_SIZE) :=
      window_congr fun i hi _ => mapBlocks_of_dvd cipher.decryptBlock F hi
    rw [if_neg hne, hblock, ← window_mapBlocks F cipher.length_decryptBlock, take_window,
      Nat.min_eq_left (Nat.le_of_lt hmod), hshift, ← window_add, hdiv]

/-! ## One range -/

/-- The first bytes are decrypted, if the head and the tail have the rest of
    their block. -/
theorem firstBytes_eq {w n : ℕ} {range : Range} {bytes : List UInt8} (hlen : bytes.length = n)
    (hcut : range.Cuts w) (hF : ∀ i < n, range.extent.Mem (w + i) → bytes[i]? = some (F (w + i)))
    (hhead : range.HeadFits F head w) (htail : range.TailFits F tail (w + n)) :
    firstBytes cipher head tail (range.into w) bytes =
      window (mapBlocks cipher.decryptBlock BLOCK_SIZE F range.extent.start) w
        (min (BLOCK_SIZE - range.into w) n) := by
  have hsize : BLOCK_SIZE = 16 := rfl
  have hend : range.extent.stop = range.extent.start + range.blockCount.toNat * 16 := rfl
  have hinto : range.into w < BLOCK_SIZE := Nat.mod_lt _ (by decide)
  have hdef : range.into w = (w - range.extent.start) % 16 := rfl
  obtain ⟨⟨hstart, hstop⟩, hne⟩ := hcut
  have hdiv := Nat.div_add_mod' (w - range.extent.start) 16
  -- the block lies in the range
  have hblock : w + (BLOCK_SIZE - range.into w) ≤ range.extent.stop := by omega
  have hmid : bytes.take (min (BLOCK_SIZE - range.into w) n) =
      window F w (min (BLOCK_SIZE - range.into w) n) := by
    refine eq_window F (by rw [List.length_take]; omega) fun i hi => ?_
    rw [List.getElem?_take_of_lt hi]
    exact hF i (by omega) ⟨by omega, by omega⟩
  have htake : tail.take (BLOCK_SIZE - (range.into w + min (BLOCK_SIZE - range.into w) n)) =
      window F (w + min (BLOCK_SIZE - range.into w) n)
        (BLOCK_SIZE - (range.into w + min (BLOCK_SIZE - range.into w) n)) := by
    rcases Nat.le_total (BLOCK_SIZE - range.into w) n with h | h
    · have hzero : BLOCK_SIZE - (range.into w + (BLOCK_SIZE - range.into w)) = 0 := by omega
      rw [Nat.min_eq_left h, hzero]
      rfl
    · rcases Nat.lt_or_ge n (BLOCK_SIZE - range.into w) with hlt | hge
      · have hinto' : range.into (w + n) = range.into w + n := by
          have : range.into (w + n) = (w + n - range.extent.start) % 16 := rfl
          omega
        have htail' := htail ⟨⟨by omega, by omega⟩, by omega⟩
        rw [hinto'] at htail'
        rw [Nat.min_eq_right h, htail']
      · have hzero : BLOCK_SIZE - (range.into w + n) = 0 := by omega
        rw [Nat.min_eq_right h, hzero]
        rfl
  have hwhole : window F (w - range.into w) BLOCK_SIZE =
      window F (w - range.into w) (range.into w) ++ window F w (min (BLOCK_SIZE - range.into w) n) ++
        window F (w + min (BLOCK_SIZE - range.into w) n)
          (BLOCK_SIZE - (range.into w + min (BLOCK_SIZE - range.into w) n)) := by
    have h1 := window_add F (w - range.into w) (range.into w) (min (BLOCK_SIZE - range.into w) n)
    have h2 := window_add F (w - range.into w) (range.into w + min (BLOCK_SIZE - range.into w) n)
      (BLOCK_SIZE - (range.into w + min (BLOCK_SIZE - range.into w) n))
    rw [Nat.sub_add_cancel (by omega)] at h1
    rw [h1, Nat.add_sub_cancel' (by omega), ← Nat.add_assoc, Nat.sub_add_cancel (by omega)] at h2
    exact h2
  have horigin : w - range.into w = range.extent.start + (w - range.extent.start) / 16 * 16 := by omega
  have hshift : window (mapBlocks cipher.decryptBlock BLOCK_SIZE F (w - range.into w)) w
      (min (BLOCK_SIZE - range.into w) n) = window (mapBlocks cipher.decryptBlock BLOCK_SIZE F
        range.extent.start) w (min (BLOCK_SIZE - range.into w) n) := by
    refine window_congr fun i hi _ => ?_
    rw [horigin]
    exact mapBlocks_of_dvd cipher.decryptBlock F (by rw [hsize]; omega)
  rw [firstBytes, hlen, hhead ⟨⟨hstart, hstop⟩, hne⟩, hmid, htake, ← hwhole,
    ← window_mapBlocks F cipher.length_decryptBlock, drop_window, take_window,
    Nat.sub_add_cancel (by omega), Nat.min_eq_left (Nat.min_le_left _ _), hshift]

/-- **What the loop makes of the bytes of a range.** -/
theorem getElem?_decryptRange_mem {w n i : ℕ} {range : Range} {bytes : List UInt8}
    (hlen : bytes.length = n) (hone : range.OneBlock w (w + n))
    (hF : ∀ i < n, range.extent.Mem (w + i) → bytes[i]? = some (F (w + i)))
    (hhead : range.HeadFits F head w) (htail : range.TailFits F tail (w + n)) (hi : i < n)
    (hmem : range.extent.Mem (w + i)) : (decryptRange cipher head tail w bytes range)[i]? =
      some (mapBlocks cipher.decryptBlock BLOCK_SIZE F range.extent.start (w + i)) := by
  have hsize : BLOCK_SIZE = 16 := rfl
  have hend : range.extent.stop = range.extent.start + range.blockCount.toNat * 16 := rfl
  have hdef : range.into w = (w - range.extent.start) % 16 := rfl
  obtain ⟨hstart, hstop⟩ := hmem
  rw [decryptRange]
  dsimp only
  by_cases hcut : range.Cuts w
  · have hinto : range.into w < BLOCK_SIZE := Nat.mod_lt _ (by decide)
    have hone := hone hcut
    have hfirst : firstBytes cipher head tail (range.into w) bytes = _ :=
      firstBytes_eq hlen hcut hF hhead htail
    have hfirstLen := congrArg List.length hfirst
    rw [length_window] at hfirstLen
    rw [if_pos hcut, if_pos (by omega), List.getElem?_append_left (by omega), hfirst,
      getElem?_window _ (by omega)]
  · have hstart' : range.extent.start - w ≤ i := by omega
    rw [if_neg hcut, if_neg (by omega), midBytes, hlen]
    have hrun : (bytes.take (min n (range.extent.stop - w))).drop (range.extent.start - w) =
        window F (w + (range.extent.start - w))
          (min n (range.extent.stop - w) - (range.extent.start - w)) := by
      refine eq_window F (by rw [List.length_drop, List.length_take]; omega) fun j hj => ?_
      rw [List.getElem?_drop, List.getElem?_take_of_lt (by omega), hF _ (by omega) ⟨by omega, by omega⟩,
        Nat.add_assoc]
    -- a run starts with a block
    have horigin : ∃ k, w + (range.extent.start - w) = range.extent.start + k * BLOCK_SIZE := by
      rcases Nat.lt_or_ge w range.extent.start with hlt | hge
      · exact ⟨0, by omega⟩
      · have hinto : range.into w = 0 := by
          by_contra hne
          exact hcut ⟨⟨hge, by omega⟩, hne⟩
        exact ⟨(w - range.extent.start) / 16, by rw [hsize]; omega⟩
    have hrest : (min n (range.extent.stop - w) - (range.extent.start - w)) % BLOCK_SIZE ≠ 0 →
        tail.take (BLOCK_SIZE - (min n (range.extent.stop - w) - (range.extent.start - w)) % BLOCK_SIZE) =
          window F (w + (range.extent.start - w) +
            (min n (range.extent.stop - w) - (range.extent.start - w)))
            (BLOCK_SIZE - (min n (range.extent.stop - w) - (range.extent.start - w)) % BLOCK_SIZE) := by
      obtain ⟨k, hk⟩ := horigin
      rw [hsize] at hk ⊢
      intro hne
      have hn : n ≤ range.extent.stop - w := by
        by_contra hgt
        rw [Nat.min_eq_right (by omega)] at hne
        omega
      rw [Nat.min_eq_left hn] at hne ⊢
      have hinto' : range.into (w + n) = (n - (range.extent.start - w)) % 16 := by
        have : range.into (w + n) = (w + n - range.extent.start) % 16 := rfl
        omega
      have hlt : w + n < range.extent.stop := by
        have : range.into (w + n) = (w + n - range.extent.start) % 16 := rfl
        omega
      have htail' := htail ⟨⟨by omega, hlt⟩, by rw [hinto']; exact hne⟩
      rw [hinto', hsize] at htail'
      rw [htail', Nat.add_assoc, Nat.add_sub_cancel' (by omega)]
    have htakeLen : (bytes.take (range.extent.start - w)).length = range.extent.start - w := by
      rw [List.length_take]
      omega
    obtain ⟨k, hk⟩ := horigin
    rw [hrun, runBytes_window hrest, List.append_assoc, List.getElem?_append_right (by omega), htakeLen,
      List.getElem?_append_left (by rw [length_window]; omega), getElem?_window _ (by omega), hk,
      mapBlocks_of_dvd cipher.decryptBlock F (by omega), ← hk]
    congr 2
    omega

/-! ## The loop -/

/-- **The loop decrypts a window**, if the head and the tail have the stored
    bytes and no range goes on after a block that the window begins inside of. -/
theorem getElem?_foldl_decryptRange_mem {w n i : ℕ} (hheadLen : head.length = BLOCK_SIZE)
    (htailLen : tail.length = BLOCK_SIZE) (hi : i < n) {ranges : List Range} {bytes : List UInt8}
    (hlen : bytes.length = n)
    (h : ∀ r ∈ ranges, w < r.extent.stop ∧ r.OneBlock w (w + n) ∧ r.HeadFits F head w ∧
      r.TailFits F tail (w + n))
    (hapart : ranges.Pairwise fun r s => r.extent.Apart s.extent)
    (hF : ∀ r ∈ ranges, ∀ i < n, r.extent.Mem (w + i) → bytes[i]? = some (F (w + i)))
    {range : Range} (hrange : range ∈ ranges) (hmem : range.extent.Mem (w + i)) :
    (ranges.foldl (decryptRange cipher head tail w) bytes)[i]? =
      some (mapBlocks cipher.decryptBlock BLOCK_SIZE F range.extent.start (w + i)) := by
  induction ranges generalizing bytes with
  | nil => exact nomatch hrange
  | cons r ranges ih =>
    obtain ⟨⟨hw, hone, hhead, htail⟩, hranges⟩ := List.forall_mem_cons.1 h
    obtain ⟨hr, hapart⟩ := List.pairwise_cons.1 hapart
    rw [List.foldl_cons]
    rcases List.mem_cons.1 hrange with rfl | hrange
    · -- the later ranges leave the bytes of this one alone
      rw [getElem?_foldl_decryptRange hheadLen htailLen fun s hs =>
        ⟨(hranges s hs).1, fun htouch => hr s hs _ ⟨hmem, htouch.1⟩⟩]
      exact getElem?_decryptRange_mem hlen hone (hF range List.mem_cons_self) hhead htail hi hmem
    · refine ih (by rw [length_decryptRange hheadLen htailLen, hlen]) hranges hapart
        (fun s hs j hj hmem => ?_) hrange
      rw [getElem?_decryptRange hheadLen htailLen hw fun htouch => hr s hs _ ⟨htouch.1, hmem⟩]
      exact hF s (List.mem_cons_of_mem _ hs) j hj hmem

/-! ## The ranges that the loop gets to -/

/-- The ranges that the loop gets to. -/
def reached (w e : ℕ) (ranges : List Range) : List Range :=
  (ranges.dropWhile fun range => w ≥ range.extent.stop).takeWhile fun range => range.extent.start < e

theorem reached_sublist (w e : ℕ) (ranges : List Range) : (reached w e ranges).Sublist ranges :=
  (List.takeWhile_sublist _).trans (List.dropWhile_sublist _)

/-- The ranges after the partition point end after the offset. -/
theorem lt_of_mem_dropWhile {w : ℕ} {ranges : List Range}
    (h : ranges.Pairwise fun a b => a.extent.stop ≤ b.extent.stop) :
    ∀ range ∈ ranges.dropWhile (fun range => w ≥ range.extent.stop), w < range.extent.stop := by
  induction ranges with
  | nil => exact fun range hrange => nomatch hrange
  | cons a ranges ih =>
    obtain ⟨ha, hranges⟩ := List.pairwise_cons.1 h
    intro range hrange
    by_cases hw : w ≥ a.extent.stop
    · rw [List.dropWhile_cons_of_pos (by simpa using hw)] at hrange
      exact ih hranges range hrange
    · rw [List.dropWhile_cons_of_neg (by simpa using hw)] at hrange
      rcases List.mem_cons.1 hrange with rfl | hmem
      · omega
      · have := ha range hmem
        omega

theorem lt_of_mem_reached {w e : ℕ} {ranges : List Range}
    (h : ranges.Pairwise fun a b => a.extent.stop ≤ b.extent.stop) {range : Range}
    (hrange : range ∈ reached w e ranges) : w < range.extent.stop :=
  lt_of_mem_dropWhile h range ((List.takeWhile_sublist _).subset hrange)

theorem drop_partitionPoint (p : Range → Bool) (ranges : List Range) :
    ranges.drop (partitionPoint p ranges) = ranges.dropWhile p := by
  have h := List.takeWhile_append_dropWhile (p := p) (l := ranges)
  calc ranges.drop (partitionPoint p ranges)
      = (ranges.takeWhile p ++ ranges.dropWhile p).drop (ranges.takeWhile p).length := by
        rw [h, partitionPoint]
    _ = ranges.dropWhile p := List.drop_left

/-- A list in the second part of another, if its first element is not in the
    first part. -/
theorem sublist_of_append {α : Type} {a : α} {l l₁ l₂ : List α} (h : (a :: l).Sublist (l₁ ++ l₂))
    (ha : a ∉ l₁) : (a :: l).Sublist l₂ := by
  induction l₁ with
  | nil => exact h
  | cons b l₁ ih =>
    rw [List.mem_cons, not_or] at ha
    rcases List.sublist_cons_iff.1 h with h | ⟨r, heq, -⟩
    · exact ih h ha.2
    · exact absurd (List.cons.inj heq).1 ha.1

/-- **What `Aes128::decrypt` makes of the body.** -/
theorem Aes128.decrypt_eq {header : Aes128} {data : List UInt8} {ranges : List Range}
    (hread : Range.codec.readMany header.rangeCount.get data = some ranges)
    (hfits : ∀ r ∈ ranges, r.Fits) (hsorted : ranges.Pairwise fun a b => a.extent.stop ≤ b.extent.stop)
    (ciphertext : Ciphertext) (hlen : ciphertext.fileOffset.toNat + ciphertext.body.length < 2 ^ 32) :
    header.decrypt cipher ciphertext data = .ok ((reached ciphertext.fileOffset.toNat
      (ciphertext.fileOffset.toNat + ciphertext.body.length) ranges).foldl (decryptRange cipher
        ciphertext.head.toList ciphertext.tail.toList ciphertext.fileOffset.toNat) ciphertext.body) := by
  have hdrop : (ranges.dropWhile fun range => ciphertext.fileOffset.toNat ≥ range.endOffset.toNat) =
      ranges.dropWhile fun range => ciphertext.fileOffset.toNat ≥ range.extent.stop := by
    clear hread hsorted
    induction ranges with
    | nil => rfl
    | cons r ranges ih =>
      obtain ⟨hr, hranges⟩ := List.forall_mem_cons.1 hfits
      rw [List.dropWhile_cons, List.dropWhile_cons, ih hranges, Range.endOffset_toNat hr]
  rw [Aes128.decrypt, hread]
  dsimp only
  rw [drop_partitionPoint, hdrop, decryptRanges_eq (by simp [BLOCK_SIZE]) (by simp [BLOCK_SIZE]) _ hlen]
  · rfl
  · exact fun r hr => ⟨hfits r ((List.dropWhile_sublist _).subset hr), lt_of_mem_dropWhile hsorted r hr⟩

/-- **The loop makes of a window of the stored file that window of the decrypted
    one**, if it gets to the ranges that meet the window. -/
theorem foldl_decryptRange_eq {w n : ℕ} {ranges : List Range} (hheadLen : head.length = BLOCK_SIZE)
    (htailLen : tail.length = BLOCK_SIZE) (hapart : ranges.Pairwise fun r s => r.extent.Apart s.extent)
    (hafter : ∀ r ∈ reached w (w + n) ranges, w < r.extent.stop)
    (h : ∀ r ∈ ranges, r.OneBlock w (w + n) ∧ r.HeadFits F head w ∧ r.TailFits F tail (w + n))
    (hreached : ∀ r ∈ ranges, ∀ i < n, r.extent.Mem (w + i) → r ∈ reached w (w + n) ranges) :
    (reached w (w + n) ranges).foldl (decryptRange cipher head tail w) (window F w n) =
      window (plain cipher F ranges) w n := by
  have hapart' : (ranges.map Range.extent).Pairwise Extent.Apart := List.pairwise_map.2 hapart
  have hsub := reached_sublist w (w + n) ranges
  refine eq_window _ (by rw [length_foldl_decryptRange hheadLen htailLen, length_window]) fun i hi => ?_
  by_cases hmem : ∃ r ∈ ranges, r.extent.Mem (w + i)
  · obtain ⟨r, hr, hmem⟩ := hmem
    rw [plain, patched_of_mem _ _ _ hapart' (List.mem_map_of_mem hr) hmem]
    refine getElem?_foldl_decryptRange_mem hheadLen htailLen hi (length_window F _ _) (fun s hs => ?_)
      (hapart.sublist hsub) (fun s _ j hj _ => getElem?_window F hj) (hreached r hr i hi hmem) hmem
    exact ⟨hafter s hs, h s (hsub.subset hs)⟩
  · have hnone : ∀ r ∈ ranges, ¬ r.extent.Mem (w + i) := fun r hr h => hmem ⟨r, hr, h⟩
    rw [plain, patched_of_notMem, getElem?_foldl_decryptRange hheadLen htailLen, getElem?_window F hi]
    · exact fun r hr => ⟨hafter r hr, fun htouch => hnone r (hsub.subset hr) htouch.1⟩
    · intro e he
      obtain ⟨r, hr, rfl⟩ := List.mem_map.1 he
      exact hnone r hr

/-! ## Windows of a file -/

variable (F) in
/-- A part of a file of a size, with its neighbour bytes. -/
structure Ciphertext.IsWindow (ciphertext : Ciphertext) (size w n : ℕ) : Prop where
  fileOffset : ciphertext.fileOffset.toNat = w
  body : ciphertext.body = window F w n
  head : ciphertext.head.toList.drop (BLOCK_SIZE - min BLOCK_SIZE w) =
    window F (w - min BLOCK_SIZE w) (min BLOCK_SIZE w)
  tail : ciphertext.tail.toList.take (min BLOCK_SIZE (size - (w + n))) =
    window F (w + n) (min BLOCK_SIZE (size - (w + n)))

/-- `Aes128::decrypt` decrypts a window of any file of a size, with any key. -/
def DecryptsWindow (header : Aes128) (data : List UInt8) (ranges : List Range) (size w n : ℕ) : Prop :=
  ∀ (cipher : BlockCipher) (F : ℕ → UInt8) (ciphertext : Ciphertext),
    ciphertext.IsWindow F size w n →
      header.decrypt cipher ciphertext data = .ok (window (plain cipher F ranges) w n)

/-- No range that starts after the window stands before one that meets it. -/
def InOrder (ranges : List Range) (w n : ℕ) : Prop :=
  ranges.Pairwise fun r s => w + n ≤ r.extent.start → ∀ i < n, ¬ s.extent.Mem (w + i)

theorem Range.headFits_of_stored {w : ℕ} {range : Range} (h : head.drop (BLOCK_SIZE - min BLOCK_SIZE w) =
    window F (w - min BLOCK_SIZE w) (min BLOCK_SIZE w)) : range.HeadFits F head w := by
  intro hcut
  have hsize : BLOCK_SIZE = 16 := rfl
  have hdef : range.into w = (w - range.extent.start) % 16 := rfl
  have hhead := congrArg (List.drop (min BLOCK_SIZE w - range.into w)) h
  rw [List.drop_drop, drop_window] at hhead
  rw [show BLOCK_SIZE - range.into w =
    BLOCK_SIZE - min BLOCK_SIZE w + (min BLOCK_SIZE w - range.into w) by omega, hhead]
  congr 1 <;> omega

theorem Range.tailFits_of_stored {size e : ℕ} {range : Range} (h : tail.take (min BLOCK_SIZE (size - e)) =
    window F e (min BLOCK_SIZE (size - e))) (hstop : range.extent.stop ≤ size) : range.TailFits F tail e := by
  rintro ⟨⟨hstart, hlt⟩, hne⟩
  have hsize : BLOCK_SIZE = 16 := rfl
  have hend : range.extent.stop = range.extent.start + range.blockCount.toNat * 16 := rfl
  have hdef : range.into e = (e - range.extent.start) % 16 := rfl
  have hle : BLOCK_SIZE - range.into e ≤ min BLOCK_SIZE (size - e) := by omega
  have htail := congrArg (List.take (BLOCK_SIZE - range.into e)) h
  rwa [List.take_take, take_window, Nat.min_eq_left hle] at htail

/-- The loop gets to every range that meets the window. -/
theorem mem_reached {ranges : List Range} {w n i : ℕ} (h : InOrder ranges w n) (hi : i < n) {range : Range}
    (hrange : range ∈ ranges) (hmem : range.extent.Mem (w + i)) : range ∈ reached w (w + n) ranges := by
  obtain ⟨hstart, hstop⟩ := hmem
  have hdrop : range ∈ ranges.dropWhile fun range => w ≥ range.extent.stop := by
    rw [← List.takeWhile_append_dropWhile (p := fun range => w ≥ range.extent.stop) (l := ranges)] at hrange
    rcases List.mem_append.1 hrange with hmem | hmem
    · have := List.mem_takeWhile_imp hmem
      rw [decide_eq_true_eq] at this
      omega
    · exact hmem
  have hsub := List.dropWhile_sublist (l := ranges) fun range => w ≥ range.extent.stop
  rw [reached]
  generalize ranges.dropWhile (fun range => w ≥ range.extent.stop) = rest at *
  have hsplit := List.takeWhile_append_dropWhile (p := fun range : Range => range.extent.start < w + n)
    (l := rest)
  rw [← hsplit] at hdrop
  rcases List.mem_append.1 hdrop with hmem | hmem
  · exact hmem
  · -- the loop breaks at a range that stands before this one
    exfalso
    have hsub' := (List.dropWhile_sublist (l := rest) fun range => range.extent.start < w + n).trans hsub
    rcases hrest : rest.dropWhile (fun range => range.extent.start < w + n) with _ | ⟨b, later⟩
    · rw [hrest] at hmem
      exact nomatch hmem
    · rw [hrest] at hmem hsub'
      have hb : ¬ b.extent.start < w + n := by
        have := List.head?_dropWhile_not (fun range : Range => decide (range.extent.start < w + n)) rest
        rw [hrest] at this
        simpa using this
      rcases List.mem_cons.1 hmem with rfl | hlater
      · omega
      · exact (List.pairwise_cons.1 (h.sublist hsub')).1 range hlater (by omega) i hi ⟨hstart, hstop⟩

/-- What makes every block a block of ones. -/
def onesCipher : BlockCipher := ⟨fun _ => .replicate BLOCK_SIZE 1, fun _ _ => List.length_replicate⟩

theorem window_zeros (start n : ℕ) : window (fun _ => (0 : UInt8)) start n = .replicate n 0 := by
  rw [window, List.map_const', List.length_range]

/-- A window of a file of zeros. -/
def zeros (w n : ℕ) : Ciphertext := ⟨.replicate n 0, .replicate 16 0, .replicate 16 0, w.toUInt32⟩

theorem isWindow_zeros {size w n : ℕ} (hw : w < 2 ^ 32) : (zeros w n).IsWindow (fun _ => 0) size w n where
  fileOffset := UInt32.toNat_ofNat_of_lt' hw
  body := (window_zeros w n).symm
  head := by
    rw [window_zeros]
    show (List.replicate BLOCK_SIZE 0).drop _ = _
    rw [List.drop_replicate, Nat.sub_sub_self (Nat.min_le_left _ _)]
  tail := by
    rw [window_zeros]
    show (List.replicate BLOCK_SIZE 0).take _ = _
    rw [List.take_replicate, Nat.min_eq_left (Nat.min_le_left _ _)]

/-- The decrypted file of zeros, if zeros become ones. -/
theorem plain_zeros (hcipher : cipher.decryptBlock (.replicate BLOCK_SIZE 0) = .replicate BLOCK_SIZE 1)
    {ranges : List Range} (hapart : ranges.Pairwise fun r s => r.extent.Apart s.extent)
    {range : Range} (hrange : range ∈ ranges) {i : ℕ} (hmem : range.extent.Mem i) :
    plain cipher (fun _ => 0) ranges i = 1 := by
  have hapart' : (ranges.map Range.extent).Pairwise Extent.Apart := List.pairwise_map.2 hapart
  rw [plain, patched_of_mem _ _ _ hapart' (List.mem_map_of_mem hrange) hmem, mapBlocks, window_zeros, hcipher,
    List.getD_eq_getElem?_getD, List.getElem?_replicate_of_lt (Nat.mod_lt _ (by decide))]
  rfl

section
variable {header : Aes128} {data : List UInt8} {ranges : List Range} {size w n : ℕ}

/-- If a window is decrypted, then every byte of a range is decrypted by the
    loop over the ranges. -/
theorem DecryptsWindow.touches (h : DecryptsWindow header data ranges size w n)
    (hread : Range.codec.readMany header.rangeCount.get data = some ranges)
    (hsize : size < 2 ^ 31) (hin : ∀ r ∈ ranges, r.extent.stop ≤ size)
    (hsorted : ranges.Pairwise fun a b => a.extent.stop ≤ b.extent.stop)
    (hapart : ranges.Pairwise fun r s => r.extent.Apart s.extent) (hwn : w + n ≤ size) {range : Range}
    (hrange : range ∈ ranges) {i : ℕ} (hi : i < n) (hmem : range.extent.Mem (w + i)) :
    range ∈ reached w (w + n) ranges ∧ range.Touches w (w + i) := by
  have hw : w < 2 ^ 32 := by omega
  have hfits : ∀ r ∈ ranges, r.Fits := fun r hr => by
    have := hin r hr
    show r.extent.stop < 2 ^ 32
    omega
  have hoffset : (zeros w n).fileOffset.toNat = w := UInt32.toNat_ofNat_of_lt' hw
  have hbody : (zeros w n).body.length = n := List.length_replicate
  have hdecrypt := h onesCipher (fun _ => 0) (zeros w n) (isWindow_zeros hw)
  rw [Aes128.decrypt_eq hread hfits hsorted _ (by omega), hoffset, hbody, Except.ok.injEq] at hdecrypt
  have hsymm : Std.Symm fun r s : Range => r.extent.Apart s.extent := ⟨fun _ _ h i hi => h i hi.symm⟩
  by_contra hno
  have hkept : ((reached w (w + n) ranges).foldl (decryptRange onesCipher (zeros w n).head.toList
      (zeros w n).tail.toList w) (zeros w n).body)[i]? = (zeros w n).body[i]? :=
    getElem?_foldl_decryptRange (by simp [BLOCK_SIZE]) (by simp [BLOCK_SIZE]) fun r hr =>
      ⟨lt_of_mem_reached hsorted hr, fun htouch => by
        have hr' := (reached_sublist _ _ _).subset hr
        by_cases heq : range = r
        · exact hno ⟨heq ▸ hr, heq ▸ htouch⟩
        · exact hapart.forall hrange hr' heq _ ⟨hmem, htouch.1⟩⟩
  rw [hdecrypt, getElem?_window _ hi, plain_zeros rfl hapart hrange hmem] at hkept
  rw [show (zeros w n).body = List.replicate n 0 from rfl, List.getElem?_replicate_of_lt hi] at hkept
  exact absurd hkept (by decide)

/-- **`Aes128::decrypt` decrypts a window** if and only if no range goes on in it
    after a block that it begins inside of, and no range after it stands before
    a range that meets it. -/
theorem decryptsWindow_iff (hread : Range.codec.readMany header.rangeCount.get data = some ranges)
    (hsize : size < 2 ^ 31) (hin : ∀ r ∈ ranges, r.extent.stop ≤ size)
    (hsorted : ranges.Pairwise fun a b => a.extent.stop ≤ b.extent.stop)
    (hapart : ranges.Pairwise fun r s => r.extent.Apart s.extent) (hwn : w + n ≤ size) :
    DecryptsWindow header data ranges size w n ↔
      (∀ r ∈ ranges, r.OneBlock w (w + n)) ∧ InOrder ranges w n := by
  have hfits : ∀ r ∈ ranges, r.Fits := fun r hr => by
    have := hin r hr
    show r.extent.stop < 2 ^ 32
    omega
  constructor
  · intro h
    have htouches : ∀ r ∈ ranges, ∀ i < n, r.extent.Mem (w + i) →
        r ∈ reached w (w + n) ranges ∧ r.Touches w (w + i) :=
      fun r hr i hi hmem => h.touches hread hsize hin hsorted hapart hwn hr hi hmem
    refine ⟨fun r hr hcut => ?_, List.pairwise_iff_forall_sublist.2 fun {r s} hsub hr i hi hmem => ?_⟩
    · -- the byte after the block is left alone
      have hinto : r.into w < BLOCK_SIZE := Nat.mod_lt _ (by decide)
      have hpos : r.into w ≠ 0 := hcut.2
      have hdef : r.into w = (w - r.extent.start) % BLOCK_SIZE := rfl
      obtain ⟨hstart, -⟩ := hcut.1
      by_contra hlt
      have htouch := (htouches r hr (BLOCK_SIZE - r.into w) (by omega) ⟨by omega, by omega⟩).2.2
      have hw : w ≠ 0 := by
        rintro rfl
        exact hpos (by rw [hdef, Nat.zero_sub, Nat.zero_mod])
      exact htouch ⟨hcut, by omega, by omega⟩
    · have hreached := (htouches s (hsub.subset (by simp)) i hi hmem).1
      have hend : r.extent.stop = r.extent.start + r.blockCount.toNat * 16 := rfl
      have hdrop := List.takeWhile_append_dropWhile (p := fun range : Range => w ≥ range.extent.stop)
        (l := ranges)
      have htake := List.takeWhile_append_dropWhile (p := fun range : Range => range.extent.start < w + n)
        (l := ranges.dropWhile fun range => w ≥ range.extent.stop)
      -- the loop breaks at `r` or before it, so that it does not get to `s`
      have hsub1 : [r, s].Sublist (ranges.dropWhile fun range => w ≥ range.extent.stop) := by
        refine sublist_of_append (hdrop ▸ hsub) fun hmem => ?_
        have := List.mem_takeWhile_imp hmem
        rw [decide_eq_true_eq] at this
        omega
      have hsub2 := sublist_of_append (htake ▸ hsub1) fun hmem => by
        have := List.mem_takeWhile_imp hmem
        rw [decide_eq_true_eq] at this
        omega
      have hpair := hapart.sublist (List.dropWhile_sublist (fun range : Range => w ≥ range.extent.stop))
      rw [← htake, List.pairwise_append] at hpair
      exact hpair.2.2 s hreached s (hsub2.subset (by simp)) _ ⟨hmem, hmem⟩
  · rintro ⟨hone, horder⟩ cipher F ciphertext hwindow
    have hlen : ciphertext.body.length = n := by rw [hwindow.body, length_window]
    have hoffset := hwindow.fileOffset
    rw [Aes128.decrypt_eq hread hfits hsorted _ (by omega), hoffset, hlen, hwindow.body,
      foldl_decryptRange_eq (by simp [BLOCK_SIZE]) (by simp [BLOCK_SIZE]) hapart]
    · exact fun r hr => lt_of_mem_reached hsorted hr
    · exact fun r hr => ⟨hone r hr, r.headFits_of_stored hwindow.head, Range.tailFits_of_stored hwindow.tail (hin r hr)⟩
    · exact fun r hr i hi hmem => mem_reached horder hi hr hmem

end

end

/-- A record of one range of four blocks. -/
def fourBlocks : Aes128 := ⟨.replicate 16 0, ⟨⟨#[1, 0, 0], rfl⟩⟩⟩

theorem not_decryptsWindow : ¬ ∀ (header : Aes128) (data : List UInt8) (ranges : List Range)
    (size w n : ℕ), Range.codec.readMany header.rangeCount.get data = some ranges → size < 2 ^ 31 →
      (∀ r ∈ ranges, r.extent.stop ≤ size) → (ranges.Pairwise fun a b => a.extent.stop ≤ b.extent.stop) →
      (ranges.Pairwise fun r s => r.extent.Apart s.extent) → w + n ≤ size →
        DecryptsWindow header data ranges size w n := by
  intro h
  have hdecrypt := h fourBlocks (Range.codec.write ⟨0, 4⟩) [⟨0, 4⟩] 64 8 40 (by decide) (by decide)
    (by decide) (List.pairwise_singleton _ _) (List.pairwise_singleton _ _) (by decide) zeroCipher
    (fun _ => 0) (zeros 8 40) (isWindow_zeros (by decide))
  have hbyte := congrArg (fun body => body.toOption.bind fun body => body[8]?) hdecrypt
  revert hbyte
  decide

theorem decryptsWindow_within_block :
    DecryptsWindow fourBlocks (Range.codec.write ⟨3, 4⟩) [⟨3, 4⟩] 80 8 6 :=
  (decryptsWindow_iff (by decide) (by decide) (by decide) (List.pairwise_singleton _ _)
    (List.pairwise_singleton _ _) (by decide)).2 ⟨by decide, List.pairwise_singleton _ _⟩

end Fsvfs.Dvdbnd
