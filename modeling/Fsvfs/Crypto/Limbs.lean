/-
  The bytes of a `Natural`, in place (`src/crypto/rsa.rs`).

  A `Natural` is a `ℕ`; its limbs are its digits in base `2 ^ 64`, from the least
  one.  The bytes are taken in chunks of a limb from the end, of which the one in
  front may be shorter.

  * `naturalFromBytesBeIn_eq`: the number of some bytes, whatever was in its place;
  * `naturalToBytesBeIn_eq`: the last bytes of a number, over the whole output.
-/
import Fsvfs.Crypto.Rsa
import Fsvfs.Lib.Checked

namespace Fsvfs.Crypto

open Lib Lib.Checked

/-- `Natural::into_limbs_asc`, and `Natural::limbs`. -/
def limbsAsc (n : ℕ) : List UInt64 := (Nat.digits (2 ^ 64) n).map UInt64.ofNat

/-- `Natural::from_owned_limbs_asc`. -/
def fromOwnedLimbsAsc (limbs : List UInt64) : ℕ := Nat.ofDigits (2 ^ 64) (limbs.map UInt64.toNat)

/-- `Vec::clear`. -/
def clear (limbs : List UInt64) : List UInt64 := limbs.take 0

/-- `natural_from_bytes_be_in`: the number afterwards. -/
def naturalFromBytesBeIn (bytes : List UInt8) (out : ℕ) : ℕ :=
  let owned := clear (limbsAsc out)
  fromOwnedLimbsAsc (owned ++ limbsOfBytesBe bytes)

/-- The chunks of `rchunks_mut`, from the end. -/
def rchunks (size : ℕ) (bytes : List UInt8) : List (List UInt8) :=
  rchunksExact size ((bytes.length + (size - 1)) / size) bytes

/-- The body of the loop of `natural_to_bytes_be_in`: the chunk afterwards. -/
def writeChunk (chunk : List UInt8) (limb : UInt64) : Checked (List UInt8) := do
  let bytes := encode .BE LIMB_SIZE limb.toNat
  if LIMB_SIZE ≤ chunk.length then .ok (bytes ++ chunk.drop LIMB_SIZE)
  else copyFromSlice chunk 0 chunk.length (← slice bytes (← sub LIMB_SIZE chunk.length) LIMB_SIZE)

/-- The loop of `natural_to_bytes_be_in`: after the limbs there are zeros. -/
def writeChunks : List (List UInt8) → List UInt64 → Checked (List (List UInt8))
  | [], _ => .ok []
  | chunk :: chunks, limbs => do
    let chunk ← writeChunk chunk (limbs.headD 0)
    .ok (chunk :: (← writeChunks chunks limbs.tail))

/-- `natural_to_bytes_be_in`: the output afterwards. -/
def naturalToBytesBeIn (n : ℕ) (output : List UInt8) : Checked (List UInt8) := do
  let chunks ← writeChunks (rchunks LIMB_SIZE output) (limbsAsc n)
  .ok chunks.reverse.flatten

/-! ## Limbs -/

theorem fromOwnedLimbsAsc_limbsAsc (n : ℕ) : fromOwnedLimbsAsc (limbsAsc n) = n := by
  have hdigits : ((Nat.digits (2 ^ 64) n).map UInt64.ofNat).map UInt64.toNat = Nat.digits (2 ^ 64) n := by
    rw [List.map_map]
    conv_rhs => rw [← List.map_id (Nat.digits (2 ^ 64) n)]
    refine List.map_congr_left fun d hd => ?_
    have hlt : d < 2 ^ 64 := Nat.digits_lt_base (Nat.one_lt_two_pow (by omega)) hd
    exact UInt64.toNat_ofNat_of_lt' hlt
  rw [fromOwnedLimbsAsc, limbsAsc, hdigits, Nat.ofDigits_digits]

theorem limbsAsc_of_pos {n : ℕ} (h : 0 < n) :
    limbsAsc n = UInt64.ofNat (n % 2 ^ 64) :: limbsAsc (n / 2 ^ 64) := by
  rw [limbsAsc, Nat.digits_def' (Nat.one_lt_two_pow (by omega)) h, List.map_cons, limbsAsc]

/-- The least limb, or a zero after the limbs. -/
theorem toNat_headD_limbsAsc (n : ℕ) : ((limbsAsc n).headD 0).toNat = n % 2 ^ 64 := by
  rcases Nat.eq_zero_or_pos n with rfl | h
  · rw [limbsAsc, Nat.digits_zero]
    rfl
  · rw [limbsAsc_of_pos h, List.headD_cons]
    exact UInt64.toNat_ofNat_of_lt' (Nat.mod_lt n (Nat.two_pow_pos 64))

theorem tail_limbsAsc (n : ℕ) : (limbsAsc n).tail = limbsAsc (n / 2 ^ 64) := by
  rcases Nat.eq_zero_or_pos n with rfl | h
  · rw [Nat.zero_div, limbsAsc, Nat.digits_zero]
    rfl
  · rw [limbsAsc_of_pos h, List.tail_cons]

/-! ## From bytes -/

/-- **A number is that of the bytes, whatever was in its place.** -/
theorem naturalFromBytesBeIn_eq (bytes : List UInt8) (out : ℕ) :
    naturalFromBytesBeIn bytes out = decode .BE bytes := by
  rw [← naturalFromBytesBe_eq]
  rfl

/-- `natural_from_bytes_be` starts from zero. -/
theorem naturalFromBytesBe_eq_in (bytes : List UInt8) :
    naturalFromBytesBe bytes = naturalFromBytesBeIn bytes 0 := rfl

/-! ## To bytes -/

/-- A limb has the last bytes of a number. -/
theorem encode_limb {w : ℕ} (h : w ≤ 8) (n : ℕ) : encode .BE w (n % 2 ^ 64) = encode .BE w n := by
  have hpow : 2 ^ 64 = 256 ^ 8 := by decide
  rw [hpow, encode_mod .BE h]

/-- Writing a limb, and what is above it. -/
theorem encode_add_limb (v n : ℕ) :
    encode .BE (v + 8) n = encode .BE v (n / 2 ^ 64) ++ encode .BE 8 (n % 2 ^ 64) := by
  have hpow : 2 ^ 64 = 256 ^ 8 := by decide
  rw [encode_limb (Nat.le_refl 8), encodeBE_add, hpow]

theorem writeChunk_eq {chunk : List UInt8} (h : chunk.length ≤ LIMB_SIZE) (limb : UInt64) :
    writeChunk chunk limb = .ok (encode .BE chunk.length limb.toNat) := by
  have hlen : (encode .BE LIMB_SIZE limb.toNat).length = LIMB_SIZE := length_encode _ _ _
  rw [writeChunk]
  split_ifs with hfull
  · have heq : chunk.length = LIMB_SIZE := Nat.le_antisymm h hfull
    rw [List.drop_of_length_le h, List.append_nil, heq]
  · have hsplit := encodeBE_add (LIMB_SIZE - chunk.length) chunk.length limb.toNat
    rw [Nat.sub_add_cancel h] at hsplit
    have hslice : slice (encode .BE LIMB_SIZE limb.toNat) (LIMB_SIZE - chunk.length) LIMB_SIZE =
        .ok (encode .BE chunk.length limb.toNat) := by
      rw [slice_of_le (Nat.sub_le _ _) hlen.ge, List.take_of_length_le hlen.le, hsplit,
        List.drop_left' (length_encode _ _ _)]
    have hsrc : (encode .BE chunk.length limb.toNat).length = chunk.length - 0 := length_encode _ _ _
    rw [sub_of_le h, ok_bind, hslice, ok_bind, copyFromSlice_of_le (Nat.zero_le _) (Nat.le_refl _) hsrc,
      List.take_zero, List.nil_append, List.drop_length, List.append_nil]

/-- **The chunks are those of the last bytes of a number.** -/
theorem writeChunks_eq {k : ℕ} {output : List UInt8} (hk : (output.length + 7) / 8 = k) (n : ℕ) :
    ∃ chunks, writeChunks (rchunksExact LIMB_SIZE k output) (limbsAsc n) = .ok chunks ∧
      chunks.reverse.flatten = encode .BE output.length n := by
  have hsize : LIMB_SIZE = 8 := rfl
  induction k generalizing output n with
  | zero =>
    have hnil : output.length = 0 := by omega
    exact ⟨[], rfl, by rw [hnil]; rfl⟩
  | succ k ih =>
    have hrest : (output.take (output.length - 8)).length = output.length - 8 :=
      List.length_take_of_le (Nat.sub_le _ _)
    have hchunk : (output.drop (output.length - 8)).length = min output.length 8 := by
      rw [List.length_drop]
      omega
    obtain ⟨chunks, hchunks, hflatten⟩ := @ih (output.take (output.length - 8))
      (by rw [hrest]; omega) (n / 2 ^ 64)
    rw [hsize] at hchunks
    rw [hrest] at hflatten
    rw [rchunksExact, hsize, writeChunks, writeChunk_eq (by rw [hchunk, hsize]; exact Nat.min_le_right _ _),
      ok_bind, tail_limbsAsc, hchunks, ok_bind, toNat_headD_limbsAsc, hchunk]
    refine ⟨_, rfl, ?_⟩
    rw [List.reverse_cons, List.flatten_append, hflatten, List.flatten_singleton]
    -- a whole chunk, or all of the output
    rcases Nat.le_total 8 output.length with hle | hle
    · rw [Nat.min_eq_right hle, ← encode_add_limb, Nat.sub_add_cancel hle]
    · rw [Nat.min_eq_left hle, Nat.sub_eq_zero_of_le hle, encode_limb hle]
      rfl

/-- **The output is filled with the last bytes of a number.** -/
theorem naturalToBytesBeIn_eq (n : ℕ) (output : List UInt8) :
    naturalToBytesBeIn n output = .ok (encode .BE output.length n) := by
  obtain ⟨chunks, hchunks, hflatten⟩ := @writeChunks_eq _ output rfl n
  rw [naturalToBytesBeIn]
  have hrchunks : rchunks LIMB_SIZE output = rchunksExact LIMB_SIZE ((output.length + 7) / 8) output := rfl
  rw [hrchunks, hchunks, ok_bind, hflatten]

/-- What is written does not depend on what was there. -/
theorem naturalToBytesBe_eq (n len : ℕ) : naturalToBytesBe n len = encode .BE len n := by
  have hsize : LIMB_SIZE = 8 := rfl
  rw [naturalToBytesBe]
  generalize hk : len / LIMB_SIZE = k
  rw [hsize] at hk
  induction k generalizing n len with
  | zero =>
    have hle : len ≤ 8 := by omega
    have hsplit := encodeBE_add (8 - len) len n
    rw [Nat.sub_add_cancel hle] at hsplit
    rw [fillChunks, hsize, encode_limb (Nat.le_refl 8), hsplit, List.drop_left' (length_encode _ _ _)]
  | succ k ih =>
    have hle : 8 ≤ len := by omega
    rw [fillChunks, hsize, ih _ _ (by omega), ← encode_add_limb, Nat.sub_add_cancel hle]

theorem naturalToBytesBeIn_eq_ok (n : ℕ) (output : List UInt8) :
    naturalToBytesBeIn n output = .ok (naturalToBytesBe n output.length) := by
  rw [naturalToBytesBeIn_eq, naturalToBytesBe_eq]

/-- **Both ways are exact for every length.** -/
theorem bytes_of_natural (bytes output : List UInt8) (out m : ℕ) :
    naturalFromBytesBeIn bytes out = decode .BE bytes ∧
    naturalToBytesBeIn m output = .ok (encode .BE output.length (m % 256 ^ output.length)) ∧
    (output.length = bytes.length →
      naturalToBytesBeIn (naturalFromBytesBeIn bytes out) output = .ok bytes) := by
  refine ⟨naturalFromBytesBeIn_eq bytes out, ?_, fun hlen => ?_⟩
  · rw [naturalToBytesBeIn_eq, encode_mod .BE (Nat.le_refl _)]
  · rw [naturalToBytesBeIn_eq, naturalFromBytesBeIn_eq, hlen, encode_decode]

theorem bytes_of_natural_nine :
    naturalToBytesBeIn (naturalFromBytesBeIn [0, 2, 3, 4, 5, 6, 7, 8, 9] 10) (List.replicate 9 1) =
      .ok [0, 2, 3, 4, 5, 6, 7, 8, 9] :=
  (bytes_of_natural [0, 2, 3, 4, 5, 6, 7, 8, 9] (List.replicate 9 1) 10 0).2.2 rfl

end Fsvfs.Crypto
