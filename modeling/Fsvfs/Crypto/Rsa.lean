/-
  RSA decryption of blocks and of whole buffers (`src/crypto/rsa.rs`).

  A `Natural` is a `ℕ`, made of limbs of 64 bits.

  * `naturalFromBytesBe_eq`: the limbs are those of the big-endian number;
  * `decryptBlocksInPlace_eq`: what is written over a buffer is what its blocks
    decrypt to.
-/
import Fsvfs.Lib.Bytes
import Mathlib.Data.Nat.Digits.Defs
import Mathlib.Tactic.Ring

namespace Fsvfs.Crypto

open Lib

/-- `LIMB_SIZE`. -/
def LIMB_SIZE : ℕ := 8

/-- `RsaKey`. -/
structure RsaKey where
  n : ℕ
  e : ℕ
  len : ℕ
  len_pos : 0 < len
deriving DecidableEq

/-- `DecryptError`. -/
inductive DecryptError where
  | Size (len : ℕ)
  | Base
deriving DecidableEq

/-! ## Numbers -/

/-- The chunks of `rchunks_exact`, from the end. -/
def rchunksExact (size : ℕ) : ℕ → List UInt8 → List (List UInt8)
  | 0, _ => []
  | k + 1, bytes =>
    bytes.drop (bytes.length - size) :: rchunksExact size k (bytes.take (bytes.length - size))

/-- The limbs of a big-endian number, from the least one: those of the chunks,
    and one of the remainder. -/
def limbsOfBytesBe (bytes : List UInt8) : List UInt64 :=
  (rchunksExact LIMB_SIZE (bytes.length / LIMB_SIZE) bytes).map
    (fun chunk => (decode .BE chunk).toUInt64) ++
  [(bytes.take (bytes.length % LIMB_SIZE)).foldl (fun (limb : UInt64) b => limb <<< 8 ||| b.toUInt64) 0]

/-- `natural_from_bytes_be`. -/
def naturalFromBytesBe (bytes : List UInt8) : ℕ :=
  Nat.ofDigits (2 ^ 64) ((limbsOfBytesBe bytes).map UInt64.toNat)

/-- The loop of `natural_to_bytes_be_in` over some whole chunks, from the end,
    and one that is not whole. -/
def fillChunks : ℕ → ℕ → ℕ → List UInt8
  | 0, n, len => (encode .BE LIMB_SIZE (n % 2 ^ 64)).drop (LIMB_SIZE - len)
  | k + 1, n, len => fillChunks k (n / 2 ^ 64) (len - LIMB_SIZE) ++ encode .BE LIMB_SIZE (n % 2 ^ 64)

/-- `natural_to_bytes_be_in`: what an output of a length is filled with. -/
def naturalToBytesBe (n len : ℕ) : List UInt8 := fillChunks (len / LIMB_SIZE) n len

theorem length_fillChunks {k n len : ℕ} (h : len / LIMB_SIZE = k) : (fillChunks k n len).length = len := by
  have hsize : LIMB_SIZE = 8 := rfl
  have hlimb : ∀ m, (encode .BE LIMB_SIZE m).length = LIMB_SIZE := fun m => length_encode _ _ _
  induction k generalizing n len with
  | zero =>
    rw [hsize] at h
    rw [fillChunks, List.length_drop, hlimb, hsize]
    omega
  | succ k ih =>
    rw [hsize] at h
    rw [fillChunks, List.length_append, hlimb, ih (by rw [hsize]; omega), hsize]
    omega

@[simp] theorem length_naturalToBytesBe (n len : ℕ) : (naturalToBytesBe n len).length = len :=
  length_fillChunks rfl

/-- Shifting a byte in. -/
theorem toNat_shift_or (limb : UInt64) (b : UInt8) :
    (limb <<< 8 ||| b.toUInt64).toNat = (limb.toNat * 256 + b.toNat) % 2 ^ 64 := by
  have hb : b.toNat < 2 ^ 8 := b.toNat_lt
  have hshift : limb.toNat <<< 8 % 2 ^ 64 = 2 ^ 8 * (limb.toNat % 2 ^ 56) := by
    rw [Nat.shiftLeft_eq]
    omega
  rw [UInt64.toNat_or, UInt64.toNat_shiftLeft, UInt8.toNat_toUInt64]
  show limb.toNat <<< 8 % 2 ^ 64 ||| b.toNat = _
  rw [hshift, ← Nat.two_pow_add_eq_or_of_lt hb]
  omega

/-- **Bytes are shifted in** from the highest one, modulo `2 ^ 64`. -/
theorem toNat_foldl_shift (bytes : List UInt8) (limb : UInt64) :
    (bytes.foldl (fun (limb : UInt64) b => limb <<< 8 ||| b.toUInt64) limb).toNat =
      (limb.toNat * 256 ^ bytes.length + decode .BE bytes) % 2 ^ 64 := by
  induction bytes generalizing limb with
  | nil =>
    rw [List.foldl_nil, List.length_nil, pow_zero, Nat.mul_one, show decode .BE [] = 0 from rfl, Nat.add_zero,
      Nat.mod_eq_of_lt limb.toNat_lt]
  | cons b bytes ih =>
    have happend : decode .BE (b :: bytes) = b.toNat * 256 ^ bytes.length + decode .BE bytes := by
      rw [← List.singleton_append, decodeBE_append]
      rfl
    rw [List.foldl_cons, ih, toNat_shift_or, happend, List.length_cons, Nat.pow_succ, Nat.add_mod, Nat.mod_mul_mod,
      ← Nat.add_mod]
    congr 1
    ring

theorem toNat_decode_toUInt64 {bytes : List UInt8} (h : bytes.length ≤ 8) :
    (decode .BE bytes).toUInt64.toNat = decode .BE bytes := by
  have hlt := decode_lt .BE bytes
  have hle : 256 ^ bytes.length ≤ 256 ^ 8 := Nat.pow_le_pow_right (by decide) h
  rw [Nat.toUInt64_eq, UInt64.toNat_ofNat']
  exact Nat.mod_eq_of_lt (by omega)

/-- The chunks from the end, and the remainder. -/
theorem ofDigits_limbs {k : ℕ} {bytes : List UInt8} (hk : bytes.length / LIMB_SIZE = k) :
    Nat.ofDigits (2 ^ 64) (((rchunksExact LIMB_SIZE k bytes).map (fun chunk => (decode .BE chunk).toUInt64) ++
      [(bytes.take (bytes.length % LIMB_SIZE)).foldl (fun (limb : UInt64) b => limb <<< 8 ||| b.toUInt64) 0]).map
        UInt64.toNat) = decode .BE bytes := by
  have hsize : LIMB_SIZE = 8 := rfl
  induction k generalizing bytes with
  | zero =>
    rw [hsize] at hk ⊢
    have hlen : bytes.length < 8 := by omega
    have hlt := decode_lt .BE bytes
    have hle : 256 ^ bytes.length ≤ 256 ^ 8 := Nat.pow_le_pow_right (by decide) (by omega)
    rw [rchunksExact, Nat.mod_eq_of_lt hlen, List.take_length]
    simp only [List.map_nil, List.nil_append, List.map_cons, Nat.ofDigits_singleton]
    rw [toNat_foldl_shift, show (0 : UInt64).toNat = 0 from rfl, Nat.zero_mul, Nat.zero_add]
    exact Nat.mod_eq_of_lt (by omega)
  | succ k ih =>
    rw [hsize] at hk
    have hlen : (bytes.take (bytes.length - 8)).length = bytes.length - 8 := List.length_take_of_le (by omega)
    have hlast : (bytes.drop (bytes.length - 8)).length = 8 := by
      rw [List.length_drop]
      omega
    have hprefix := @ih (bytes.take (bytes.length - 8)) (by rw [hlen, hsize]; omega)
    have hmod : (bytes.length - 8) % 8 = bytes.length % 8 := by omega
    rw [hlen, hsize, hmod, List.take_take, Nat.min_eq_left (by omega)] at hprefix
    rw [rchunksExact, hsize, List.map_cons, List.cons_append, List.map_cons, Nat.ofDigits_cons, hprefix,
      toNat_decode_toUInt64 (Nat.le_of_eq hlast)]
    conv_rhs => rw [← List.take_append_drop (bytes.length - 8) bytes, decodeBE_append, hlast]
    ring

theorem naturalFromBytesBe_eq (bytes : List UInt8) : naturalFromBytesBe bytes = decode .BE bytes :=
  ofDigits_limbs rfl

example : naturalFromBytesBe [1, 2, 3, 4, 5, 6, 7, 8, 9, 10] = 0x0102030405060708090a := by
  decide +kernel

example : naturalToBytesBe 0x0102030405060708090a 9 = [2, 3, 4, 5, 6, 7, 8, 9, 10] := by decide

/-! ## Blocks -/

namespace RsaKey
variable (key : RsaKey)

/-- `RsaKey::in_block_len`. -/
def inBlockLen : ℕ := key.len

/-- `RsaKey::out_block_len`. -/
def outBlockLen : ℕ := key.len - 1

/-- `RsaKey::decrypt_block_in`: what an output of a length is filled with. -/
def decryptBlockIn (block : List UInt8) (outLen : ℕ) : Except DecryptError (List UInt8) :=
  if block.length ≠ key.inBlockLen then .error (.Size key.inBlockLen)
  else
    let c := naturalFromBytesBe block
    if c ≥ key.n then .error .Base
    else
      let m := c ^ key.e % key.n
      .ok (naturalToBytesBe m outLen)

/-- The loop of `decrypt_blocks_in_place` over some blocks, after `i` of them. -/
def decryptBlocks : ℕ → ℕ → List UInt8 → Except DecryptError (List UInt8)
  | 0, _, blocks => .ok blocks
  | k + 1, i, blocks =>
    let c := naturalFromBytesBe ((blocks.drop (i * key.inBlockLen)).take key.inBlockLen)
    if c ≥ key.n then .error .Base
    else
      let m := c ^ key.e % key.n
      decryptBlocks k (i + 1) (blocks.take (i * key.outBlockLen) ++
        naturalToBytesBe m key.outBlockLen ++ blocks.drop ((i + 1) * key.outBlockLen))

/-- `RsaKey::decrypt_blocks_in_place`: the buffer afterwards, and the length of
    what has been decrypted. -/
def decryptBlocksInPlace (blocks : List UInt8) : Except DecryptError (List UInt8 × ℕ) :=
  if blocks.length % key.inBlockLen ≠ 0 then .error (.Size key.inBlockLen)
  else
    let count := blocks.length / key.inBlockLen
    (key.decryptBlocks count 0 blocks).map fun blocks => (blocks, count * key.outBlockLen)

/-! ## In place -/

/-- Decrypting block by block. -/
def blockwise : List (List UInt8) → Except DecryptError (List (List UInt8))
  | [] => .ok []
  | block :: blocks => do
    let out ← key.decryptBlockIn block key.outBlockLen
    let outs ← blockwise blocks
    .ok (out :: outs)

variable {key} {block : List UInt8} {blocks outs : List (List UInt8)}

theorem decryptBlockIn_of_lt (hlen : block.length = key.inBlockLen) (hlt : naturalFromBytesBe block < key.n)
    (outLen : ℕ) : key.decryptBlockIn block outLen =
      .ok (naturalToBytesBe (naturalFromBytesBe block ^ key.e % key.n) outLen) := by
  rw [decryptBlockIn, if_neg (not_not.2 hlen)]
  exact if_neg (Nat.not_le.2 hlt)

theorem decryptBlockIn_of_ge (hlen : block.length = key.inBlockLen) (hge : key.n ≤ naturalFromBytesBe block)
    (outLen : ℕ) : key.decryptBlockIn block outLen = .error .Base := by
  rw [decryptBlockIn, if_neg (not_not.2 hlen)]
  exact if_pos hge

theorem blockwise_cons_of_lt (hlen : block.length = key.inBlockLen) (hlt : naturalFromBytesBe block < key.n) :
    key.blockwise (block :: blocks) = (key.blockwise blocks).map
      (naturalToBytesBe (naturalFromBytesBe block ^ key.e % key.n) key.outBlockLen :: ·) := by
  rw [blockwise, decryptBlockIn_of_lt hlen hlt]
  rcases key.blockwise blocks with err | outs
  · rfl
  · rfl

theorem blockwise_cons_of_ge (hlen : block.length = key.inBlockLen) (hge : key.n ≤ naturalFromBytesBe block) :
    key.blockwise (block :: blocks) = .error .Base := by
  rw [blockwise, decryptBlockIn_of_ge hlen hge]
  rfl

/-- **The loop in place.**  A block is written where blocks have been read already:
    after `i` blocks, there are `i` bytes left over between what is written and what
    is not read. -/
theorem decryptBlocks_eq (hblocks : ∀ b ∈ blocks, b.length = key.inBlockLen) {i : ℕ} {plain left : List UInt8}
    (hplain : plain.length = i * key.outBlockLen) (hleft : left.length = i) :
    key.decryptBlocks blocks.length i (plain ++ left ++ blocks.flatten) =
      (key.blockwise blocks).map fun outs =>
        plain ++ outs.flatten ++ (left ++ blocks.flatten).drop (blocks.length * key.outBlockLen) := by
  have hL : key.inBlockLen = key.outBlockLen + 1 := (Nat.sub_add_cancel key.len_pos).symm
  induction blocks generalizing i plain left with
  | nil =>
    rw [List.length_nil, decryptBlocks, blockwise]
    simp [Except.map]
  | cons b blocks ih =>
    obtain ⟨hb, hblocks⟩ := List.forall_mem_cons.1 hblocks
    have hread : ((plain ++ left ++ (b :: blocks).flatten).drop (i * key.inBlockLen)).take key.inBlockLen = b := by
      have hpos : (plain ++ left).length = i * key.inBlockLen := by
        rw [List.length_append, hplain, hleft, hL, Nat.mul_succ]
      rw [List.drop_left' hpos, List.flatten_cons, List.take_left' hb]
    rw [List.length_cons, decryptBlocks, hread]
    by_cases hlt : naturalFromBytesBe b < key.n
    · rw [blockwise_cons_of_lt hb hlt]
      dsimp only
      rw [if_neg (Nat.not_le.2 hlt)]
      generalize hout : naturalToBytesBe (naturalFromBytesBe b ^ key.e % key.n) key.outBlockLen = out
      have houtLen : out.length = key.outBlockLen := by rw [← hout, length_naturalToBytesBe]
      have hle : key.outBlockLen ≤ (left ++ b).length := by
        rw [List.length_append, hb, hL]
        omega
      have htake : (plain ++ left ++ (b :: blocks).flatten).take (i * key.outBlockLen) = plain := by
        rw [List.append_assoc, List.take_left' hplain]
      have hdrop : (plain ++ left ++ (b :: blocks).flatten).drop ((i + 1) * key.outBlockLen) =
          (left ++ b).drop key.outBlockLen ++ blocks.flatten := by
        rw [Nat.succ_mul, ← hplain, List.append_assoc, List.drop_append, List.drop_of_length_le
          (Nat.le_add_right _ _), Nat.add_sub_cancel_left, List.nil_append, List.flatten_cons,
          ← List.append_assoc, List.drop_append_of_le_length hle]
      have hnext : key.decryptBlocks blocks.length (i + 1)
          (plain ++ out ++ (left ++ b).drop key.outBlockLen ++ blocks.flatten) = _ :=
        ih hblocks (by rw [List.length_append, hplain, houtLen, Nat.succ_mul])
          (by rw [List.length_drop, List.length_append, hleft, hb, hL]; omega)
      have hrest : (left ++ (b :: blocks).flatten).drop ((blocks.length + 1) * key.outBlockLen) =
          ((left ++ b).drop key.outBlockLen ++ blocks.flatten).drop (blocks.length * key.outBlockLen) := by
        rw [← List.drop_append_of_le_length hle, List.drop_drop, List.flatten_cons, List.append_assoc, Nat.succ_mul,
          Nat.add_comm]
      rw [htake, hdrop, ← List.append_assoc, hnext, hrest]
      rcases key.blockwise blocks with err | outs
      · rfl
      · simp [Except.map]
    · rw [blockwise_cons_of_ge hb (Nat.not_lt.1 hlt)]
      exact if_pos (Nat.not_lt.1 hlt)

/-- Blocks of one length together. -/
theorem length_flatten_blocks {n : ℕ} (h : ∀ b ∈ blocks, b.length = n) :
    blocks.flatten.length = blocks.length * n := by
  rw [List.length_flatten, List.map_congr_left h, List.map_const', List.sum_replicate_nat]

/-- **Decrypting in place is decrypting block by block.** -/
theorem decryptBlocksInPlace_eq (h : ∀ b ∈ blocks, b.length = key.inBlockLen) :
    key.decryptBlocksInPlace blocks.flatten = (key.blockwise blocks).map fun outs =>
      (outs.flatten ++ blocks.flatten.drop (blocks.length * key.outBlockLen), blocks.length * key.outBlockLen) := by
  have hlen := length_flatten_blocks h
  have hmod : ¬ blocks.flatten.length % key.inBlockLen ≠ 0 := by
    rw [hlen, Nat.mul_mod_left]
    exact fun hne => hne rfl
  have hcount : blocks.flatten.length / key.inBlockLen = blocks.length := by
    rw [hlen]
    exact Nat.mul_div_cancel _ key.len_pos
  have hloop : key.decryptBlocks blocks.length 0 blocks.flatten = _ :=
    @decryptBlocks_eq key blocks h 0 [] [] (Nat.zero_mul _).symm rfl
  rw [decryptBlocksInPlace, if_neg hmod, hcount]
  dsimp only
  rw [hloop]
  rcases key.blockwise blocks with err | outs
  · rfl
  · rfl

theorem length_of_decryptBlockIn {out : List UInt8} {outLen : ℕ} (h : key.decryptBlockIn block outLen = .ok out) :
    out.length = outLen := by
  rw [decryptBlockIn] at h
  dsimp only at h
  split_ifs at h
  cases h
  exact length_naturalToBytesBe _ _

/-- The first block, and the others. -/
theorem blockwise_cons_eq_ok (h : key.blockwise (block :: blocks) = .ok outs) :
    ∃ out outs', outs = out :: outs' ∧ key.decryptBlockIn block key.outBlockLen = .ok out ∧
      key.blockwise blocks = .ok outs' := by
  rw [blockwise] at h
  rcases hblock : key.decryptBlockIn block key.outBlockLen with err | out
  · rw [hblock] at h
    cases h
  · rcases hrest : key.blockwise blocks with err | outs'
    · rw [hblock, hrest] at h
      cases h
    · rw [hblock, hrest] at h
      cases h
      exact ⟨out, outs', rfl, rfl, rfl⟩

/-- The blocks that are decrypted. -/
theorem blockwise_eq_ok (h : key.blockwise blocks = .ok outs) :
    List.Forall₂ (fun block out => key.decryptBlockIn block key.outBlockLen = .ok out) blocks outs := by
  induction blocks generalizing outs with
  | nil =>
    cases h
    exact .nil
  | cons block blocks ih =>
    obtain ⟨out, outs', rfl, hblock, hrest⟩ := blockwise_cons_eq_ok h
    exact .cons hblock (ih hrest)

theorem length_flatten_outs (h : key.blockwise blocks = .ok outs) :
    outs.flatten.length = blocks.length * key.outBlockLen := by
  induction blocks generalizing outs with
  | nil =>
    cases h
    exact (Nat.zero_mul _).symm
  | cons block blocks ih =>
    obtain ⟨out, outs', rfl, hblock, hrest⟩ := blockwise_cons_eq_ok h
    rw [List.flatten_cons, List.length_append, length_of_decryptBlockIn hblock, ih hrest, List.length_cons,
      Nat.succ_mul, Nat.add_comm]

/-- Blocks below `n` are decrypted. -/
theorem exists_blockwise (hlen : ∀ b ∈ blocks, b.length = key.inBlockLen)
    (hlt : ∀ b ∈ blocks, naturalFromBytesBe b < key.n) : ∃ outs, key.blockwise blocks = .ok outs := by
  induction blocks with
  | nil => exact ⟨[], rfl⟩
  | cons block blocks ih =>
    obtain ⟨hblock, hblocks⟩ := List.forall_mem_cons.1 hlen
    obtain ⟨hbase, hbases⟩ := List.forall_mem_cons.1 hlt
    obtain ⟨outs, houts⟩ := ih hblocks hbases
    rw [blockwise_cons_of_lt hblock hbase, houts]
    exact ⟨_, rfl⟩

/-- A block that is not below `n` is not decrypted. -/
theorem blockwise_of_ge (hlen : ∀ b ∈ blocks, b.length = key.inBlockLen)
    (hge : ∃ b ∈ blocks, key.n ≤ naturalFromBytesBe b) : key.blockwise blocks = .error .Base := by
  induction blocks with
  | nil =>
    obtain ⟨b, hb, -⟩ := hge
    exact nomatch hb
  | cons block blocks ih =>
    obtain ⟨hblock, hblocks⟩ := List.forall_mem_cons.1 hlen
    by_cases hbase : naturalFromBytesBe block < key.n
    · obtain ⟨b, hb, hle⟩ := hge
      have hmem : b ∈ blocks := by
        rcases List.mem_cons.1 hb with rfl | hmem
        · exact absurd hbase (Nat.not_lt.2 hle)
        · exact hmem
      rw [blockwise_cons_of_lt hblock hbase, ih hblocks ⟨b, hmem, hle⟩]
      rfl
    · exact blockwise_cons_of_ge hblock (Nat.not_lt.1 hbase)

end RsaKey

/-- A key with two bytes for a block. -/
example : (⟨3233, 17, 2, by decide⟩ : RsaKey).decryptBlocksInPlace [0, 65, 0, 66] =
    .ok ([230, 12, 0, 66], 2) := by decide +kernel

end Fsvfs.Crypto
