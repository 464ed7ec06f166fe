/-
  What a decryptor reads at the start of a source, which may have more blocks.

  * `Starts`: the first bytes of some blocks, of which only so many as are needed
    have to be decrypted;
  * `readLoop_starts`: a read ends, and succeeds if and only if there are such
    bytes.
-/
import Fsvfs.Crypto.RsaRuns

namespace Fsvfs.Crypto.RsaDecryptor

open Lib

variable {R : Type} [IoRead IoError R] {rest : R → List UInt8} {key : RsaKey} {pending bytes w : List UInt8} {len : ℕ}

/-- The first bytes of some that are there already, and of what the first blocks of
    a source decrypt to. -/
def Starts (key : RsaKey) (pending bytes : List UInt8) (len : ℕ) (w : List UInt8) : Prop :=
  ∃ blocks outs more, bytes = blocks.flatten ++ more ∧ (∀ b ∈ blocks, b.length = key.inBlockLen) ∧
    key.blockwise blocks = .ok outs ∧ len ≤ (pending ++ outs.flatten).length ∧ w = (pending ++ outs.flatten).take len

theorem starts_zero : Starts key pending bytes 0 w ↔ w = [] := by
  constructor
  · rintro ⟨blocks, outs, more, -, -, -, -, rfl⟩
    exact List.take_zero
  · rintro rfl
    exact ⟨[], [], bytes, rfl, by simp, rfl, Nat.zero_le _, List.take_zero.symm⟩

/-- The first bytes are determined, by as many blocks as are needed. -/
theorem Starts.unique {w' : List UInt8} (h : Starts key pending bytes len w) (h' : Starts key pending bytes len w') :
    w = w' := by
  obtain ⟨blocks, outs, more, rfl, hblocks, houts, hle, rfl⟩ := h
  obtain ⟨blocks', outs', more', hbytes, hblocks', houts', hle', rfl⟩ := h'
  induction blocks generalizing pending outs blocks' outs' with
  | nil =>
    cases houts
    rw [List.flatten_nil, List.append_nil] at hle ⊢
    exact (List.take_append_of_le_length hle).symm
  | cons block blocks ih =>
    obtain ⟨hblock, hblocks⟩ := List.forall_mem_cons.1 hblocks
    rcases blocks' with _ | ⟨block', blocks'⟩
    · cases houts'
      rw [List.flatten_nil, List.append_nil] at hle' ⊢
      exact List.take_append_of_le_length hle'
    · obtain ⟨hblock', hmore⟩ := List.forall_mem_cons.1 hblocks'
      rw [List.flatten_cons, List.flatten_cons, List.append_assoc, List.append_assoc] at hbytes
      obtain ⟨rfl, hrest⟩ := List.append_inj hbytes (hblock.trans hblock'.symm)
      obtain ⟨out, outs, rfl, hdecrypt, hplain⟩ := RsaKey.blockwise_cons_eq_ok houts
      obtain ⟨out', outs', rfl, hdecrypt', hplain'⟩ := RsaKey.blockwise_cons_eq_ok houts'
      cases hdecrypt.symm.trans hdecrypt'
      rw [List.flatten_cons, ← List.append_assoc] at hle hle' ⊢
      rw [List.flatten_cons, ← List.append_assoc]
      exact ih outs hblocks hplain hle blocks' outs' hrest hmore hplain' hle'

/-- Bytes that are there already. -/
theorem starts_pending {amt : ℕ} (hlen : amt ≤ len) (hamt : amt ≤ pending.length) : Starts key pending bytes len w ↔
    ∃ w', w = pending.take amt ++ w' ∧ Starts key (pending.drop amt) bytes (len - amt) w' := by
  have hlength : ∀ l : List UInt8, len ≤ (pending ++ l).length ↔ len - amt ≤ (pending.drop amt ++ l).length := by
    intro l
    simp only [List.length_append, List.length_drop]
    omega
  have htake : ∀ l : List UInt8,
      (pending ++ l).take len = pending.take amt ++ (pending.drop amt ++ l).take (len - amt) := by
    intro l
    conv_lhs => rw [← Nat.add_sub_cancel' hlen, List.take_add]
    rw [List.take_append_of_le_length hamt, List.drop_append_of_le_length hamt]
  constructor
  · rintro ⟨blocks, outs, more, hbytes, hblocks, houts, hle, rfl⟩
    exact ⟨_, htake _, blocks, outs, more, hbytes, hblocks, houts, (hlength _).1 hle, rfl⟩
  · rintro ⟨w', rfl, blocks, outs, more, hbytes, hblocks, houts, hle, rfl⟩
    exact ⟨blocks, outs, more, hbytes, hblocks, houts, (hlength _).2 hle, (htake _).symm⟩

/-- The first block. -/
theorem starts_block (hlen : 0 < len) : Starts key [] bytes len w ↔ ∃ out,
    key.decryptBlockIn (bytes.take key.inBlockLen) key.outBlockLen = .ok out ∧
      Starts key out (bytes.drop key.inBlockLen) len w := by
  constructor
  · rintro ⟨blocks, outs, more, rfl, hblocks, houts, hle, rfl⟩
    rcases blocks with _ | ⟨block, blocks⟩
    · cases houts
      exact absurd hle (Nat.not_le.2 hlen)
    · obtain ⟨hblock, hblocks⟩ := List.forall_mem_cons.1 hblocks
      obtain ⟨out, outs, rfl, hdecrypt, houts⟩ := RsaKey.blockwise_cons_eq_ok houts
      rw [List.flatten_cons, List.append_assoc, List.take_left' hblock, List.drop_left' hblock]
      exact ⟨out, hdecrypt, blocks, outs, more, rfl, hblocks, houts, hle, rfl⟩
  · rintro ⟨out, hdecrypt, blocks, outs, more, hbytes, hblocks, houts, hle, rfl⟩
    have hblock := (Failing.decrypts_of_ok hdecrypt).1
    refine ⟨bytes.take key.inBlockLen :: blocks, out :: outs, more, ?_, ?_, ?_, hle, rfl⟩
    · rw [List.flatten_cons, List.append_assoc, ← hbytes, List.take_append_drop]
    · exact List.forall_mem_cons.2 ⟨hblock, hblocks⟩
    · rw [RsaKey.blockwise, hdecrypt, houts]
      rfl

/-- What is decrypted in place is that of whole blocks. -/
theorem blocks_of_decryptBlocksInPlace {inPlace : List UInt8} (h : key.decryptBlocksInPlace bytes = .ok (inPlace, len)) :
    ∃ blocks outs, bytes = blocks.flatten ∧ (∀ b ∈ blocks, b.length = key.inBlockLen) ∧
      key.blockwise blocks = .ok outs ∧ inPlace.take len = outs.flatten := by
  have hmod : bytes.length % key.inBlockLen = 0 := by
    by_contra hne
    rw [RsaKey.decryptBlocksInPlace, if_pos hne] at h
    cases h
  obtain ⟨blocks, rfl, hblocks⟩ := Failing.exists_blocks (Nat.div_mul_cancel (Nat.dvd_of_mod_eq_zero hmod)).symm
  rw [RsaKey.decryptBlocksInPlace_eq hblocks] at h
  rcases houts : key.blockwise blocks with e | outs
  · rw [houts] at h
    cases h
  · rw [houts] at h
    cases h
    exact ⟨blocks, outs, rfl, hblocks, houts, List.take_left' (RsaKey.length_flatten_outs houts)⟩

/-- **A read at the start of a source** fills its buffer, or fails since the first
    blocks cannot be decrypted. -/
theorem readLoop_starts (hfills : FillsReads rest) {fuel n : ℕ} {dec : RsaDecryptor R} {buf : List UInt8}
    (hcapacity : dec.reader.capacity = dec.key.inBlockLen) (hbuffer : dec.reader.buffer = [])
    (hout : dec.out.inner.length = dec.key.outBlockLen)
    (hfuel : 2 * len + (if dec.out.fillBuf = [] then 1 else 0) + (rest dec.reader.inner).length < fuel) :
    (∃ w dec', Starts dec.key dec.out.fillBuf (rest dec.reader.inner) len w ∧
      readLoop fuel dec len buf n = some (.ok (buf ++ w, n + len, dec'))) ∨
    (∃ e, readLoop fuel dec len buf n = some (.error e)) ∧
      ∀ w, ¬ Starts dec.key dec.out.fillBuf (rest dec.reader.inner) len w := by
  induction fuel generalizing dec len buf n with
  | zero => exact absurd hfuel (Nat.not_lt_zero _)
  | succ fuel ih =>
    obtain ⟨key, out, capacity, buffer, inner⟩ := dec
    dsimp only at hcapacity hbuffer hout hfuel ⊢
    subst hcapacity hbuffer
    rw [readLoop]
    by_cases hzero : len = 0
    · subst hzero
      rw [if_pos rfl]
      exact .inl ⟨[], _, starts_zero.2 rfl, by rw [List.append_nil]; rfl⟩
    rw [if_neg hzero]
    dsimp only
    by_cases hempty : out.fillBuf = []
    · have hpos := key.len_pos
      obtain ⟨r', hfill, hrest⟩ := hfills.fillBuf key.inBlockLen inner
      rw [if_neg (not_not.2 hempty), hfill, hempty, hout]
      dsimp only
      rcases hdecrypt : key.decryptBlockIn ((rest inner).take key.inBlockLen) key.outBlockLen with e | plain
      · have hnone : ∀ w, ¬ Starts key [] (rest inner) len w := by
          intro w hw
          obtain ⟨out, hok, -⟩ := (starts_block (Nat.pos_of_ne_zero hzero)).1 hw
          cases hdecrypt.symm.trans hok
        refine .inr ⟨⟨.InvalidInput e, ?_⟩, hnone⟩
        split_ifs <;> rfl
      · have hnext : ∀ w, Starts key [] (rest inner) len w ↔ Starts key plain (rest r') len w := by
          intro w
          rw [starts_block (Nat.pos_of_ne_zero hzero), hrest, hdecrypt]
          constructor
          · rintro ⟨_, heq, h⟩
            cases heq
            exact h
          · exact fun h => ⟨plain, rfl, h⟩
        have hblock := (Failing.decrypts_of_ok hdecrypt).1
        have hplain := RsaKey.length_of_decryptBlockIn hdecrypt
        have hconsumed : ((rest inner).take key.inBlockLen).drop key.inBlockLen = [] :=
          List.drop_of_length_le (Nat.le_of_eq hblock)
        have hless : (rest r').length < (rest inner).length := by
          rw [List.length_take] at hblock
          rw [hrest, List.length_drop]
          have hin : key.inBlockLen = key.len := rfl
          omega
        rw [if_pos hempty] at hfuel
        simp only [hnext]
        split_ifs with hfits
        · -- the block is decrypted into the buffer
          have hpending : ∀ w, Starts key plain (rest r') len w ↔
              ∃ w', w = plain ++ w' ∧ Starts key [] (rest r') (len - key.outBlockLen) w' := by
            intro w
            rw [starts_pending hfits (Nat.le_of_eq hplain.symm), List.take_of_length_le (Nat.le_of_eq hplain),
              List.drop_of_length_le (Nat.le_of_eq hplain)]
          have hrun := @ih (len - key.outBlockLen) (n + key.outBlockLen)
            ⟨key, out, ⟨key.inBlockLen, ((rest inner).take key.inBlockLen).drop key.inBlockLen, r'⟩⟩ (buf ++ plain)
            rfl hconsumed hout (by dsimp only; rw [if_pos hempty]; omega)
          dsimp only at hrun
          rw [hempty] at hrun
          rcases hrun with ⟨w, dec', hw, heq⟩ | ⟨herror, hnone⟩
          · refine .inl ⟨plain ++ w, dec', (hpending _).2 ⟨w, rfl, hw⟩, ?_⟩
            rw [← List.append_assoc, show n + len = n + key.outBlockLen + (len - key.outBlockLen) by omega]
            exact heq
          · refine .inr ⟨herror, fun w hw => ?_⟩
            obtain ⟨w', -, hw'⟩ := (hpending w).1 hw
            exact hnone w' hw'
        · -- or into the cursor, which is not empty then
          have hfull : plain ≠ [] := List.ne_nil_of_length_pos (by omega)
          exact @ih len n
            ⟨key, ⟨plain, 0⟩, ⟨key.inBlockLen, ((rest inner).take key.inBlockLen).drop key.inBlockLen, r'⟩⟩ buf
            rfl hconsumed hplain (by
              dsimp only
              rw [if_neg (show ¬ (⟨plain, 0⟩ : Cursor).fillBuf = [] from hfull)]
              omega)
    · rw [if_pos hempty]
      have hpos := List.length_pos_of_ne_nil hempty
      have hpending := fun w => @starts_pending key out.fillBuf (rest inner) w len (min len out.fillBuf.length)
        (Nat.min_le_left _ _) (Nat.min_le_right _ _)
      rw [if_neg hempty] at hfuel
      have hrun := @ih (len - min len out.fillBuf.length) (n + min len out.fillBuf.length)
        ⟨key, out.consume (min len out.fillBuf.length), ⟨key.inBlockLen, [], inner⟩⟩
        (buf ++ out.fillBuf.take (min len out.fillBuf.length)) rfl rfl hout (by
          dsimp only
          split_ifs <;> omega)
      rw [Cursor.fillBuf_consume] at hrun
      rcases hrun with ⟨w, dec', hw, heq⟩ | ⟨herror, hnone⟩
      · refine .inl ⟨out.fillBuf.take (min len out.fillBuf.length) ++ w, dec', (hpending _).2 ⟨w, rfl, hw⟩, ?_⟩
        rw [← List.append_assoc,
          show n + len = n + min len out.fillBuf.length + (len - min len out.fillBuf.length) by omega]
        exact heq
      · refine .inr ⟨herror, fun w hw => ?_⟩
        obtain ⟨w', -, hw'⟩ := (hpending w).1 hw
        exact hnone w' hw'

end Fsvfs.Crypto.RsaDecryptor
