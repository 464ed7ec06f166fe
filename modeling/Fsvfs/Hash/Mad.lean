/-
  Hashing in chunks (`src/hash/mad.rs`).

  The hash is Horner's rule in the integers modulo `2 ^ 32` or `2 ^ 64`
  (`Interprets`), and `mad_hash` takes `N` bytes at a time.

  * `chunked_eq`: it does the same as the loop over single bytes, if `POWERN` is
    the `N`-th power of the base;
  * `madHash_eq_iff`: it always is for 32 bits, and for 64 bits as long as `N` is
    not affected by the cast to `u32`.
-/
import Fsvfs.Hash
import Fsvfs.Lib.Horner
import Mathlib.RingTheory.ZMod.UnitsCyclic

namespace Fsvfs

open Lib

namespace MadHash
variable {T R : Type} [MadHash T] [CommRing R]

/-- Hashes stand for elements of a ring. -/
structure Interprets (φ : T → R) : Prop where
  injective : Function.Injective φ
  map_add : ∀ a b, φ (a + b) = φ a + φ b
  map_mul : ∀ a b, φ (a * b) = φ a * φ b
  map_zero : φ (ofU8 0) = 0
  map_one : φ (ofU8 1) = 1

/-- The digits of some bytes. -/
def digits (φ : T → R) (bytes : List UInt8) : List R := bytes.map fun b => φ (ofU8 (normalize b))

namespace Interprets
variable {φ : T → R} (h : Interprets φ)
include h

theorem map_plain (init : T) (bytes : List UInt8) :
    φ (plain init bytes) = horner (φ PRIME) (φ init) (digits φ bytes) := by
  induction bytes generalizing init with
  | nil => rfl
  | cons b bytes ih =>
    rw [digits, List.map_cons, horner_cons, ← digits, ← h.map_mul, ← h.map_add, ← ih]
    rfl

theorem map_wrappingPow (p : T) (n : ℕ) : φ (wrappingPow p n) = φ p ^ n := by
  induction n with
  | zero => rw [wrappingPow, h.map_one, pow_zero]
  | succ n ih => rw [wrappingPow, h.map_mul, ih, pow_succ]

/-- `POWERS` are the descending powers. -/
theorem map_powersLoop {i k : ℕ} {last : T} {powers : List T} (hlast : φ last = φ PRIME ^ k)
    (hpowers : powers.map φ = descending (φ PRIME) k) :
    (powersLoop i last powers).map φ = descending (φ PRIME) (k + i) := by
  induction i generalizing k last powers with
  | zero => exact hpowers
  | succ i ih =>
    have hnext : φ (PRIME * last) = φ PRIME ^ (k + 1) := by rw [h.map_mul, hlast, pow_succ']
    rw [powersLoop, ih hnext (by rw [List.map_cons, hnext, hpowers, descending]), Nat.add_right_comm,
      Nat.add_assoc]

theorem map_powers (n : ℕ) : (powers n : List T).map φ = descending (φ PRIME) (n - 1) := by
  rw [powers, h.map_powersLoop (k := 0) (by rw [h.map_one, pow_zero]), Nat.zero_add]
  rw [List.map_singleton, h.map_one, descending]

theorem map_dotProduct {n : ℕ} {chunk : List UInt8} (hlen : chunk.length = n) (hn : 0 < n) :
    φ (dotProduct chunk (powers n)) = horner (φ PRIME) 0 (digits φ chunk) := by
  have hfold : ∀ (chunk : List UInt8) (powers : List T) (dot : T),
      φ ((chunk.zip powers).foldl (fun dot e => dot + ofU8 (normalize e.1) * e.2) dot) =
        ((digits φ chunk).zip (powers.map φ)).foldl (fun dot e => dot + e.1 * e.2) (φ dot) := by
    intro chunk
    induction chunk with
    | nil => intro powers dot; rfl
    | cons b chunk ih =>
      intro powers dot
      cases powers with
      | nil => rfl
      | cons power powers =>
        rw [List.zip_cons_cons, List.foldl_cons, ih, h.map_add, h.map_mul]
        rfl
  have hdigits : (digits φ chunk).length = n - 1 + 1 := by
    rw [digits, List.length_map, hlen, Nat.sub_add_cancel hn]
  have hdot : dotProduct chunk (powers n) =
      (chunk.zip (powers n)).foldl (fun dot (e : UInt8 × T) => dot + ofU8 (normalize e.1) * e.2) (ofU8 0) := rfl
  rw [hdot, hfold, h.map_powers, dot_descending _ hdigits, h.map_zero, zero_add]

/-- **The loop over the chunks.**  Each chunk is moved up by `POWERN`. -/
theorem map_chunked {n : ℕ} (hn : 0 < n) (hpowern : φ (powern n) = φ PRIME ^ n) {chunks : ℕ} {init : T}
    {bytes : List UInt8} (hlen : chunks * n ≤ bytes.length) :
    φ (chunked n chunks init bytes) = φ (plain init bytes) := by
  induction chunks generalizing init bytes with
  | zero => rfl
  | succ chunks ih =>
    have hle : n ≤ bytes.length := by
      rw [Nat.succ_mul] at hlen
      omega
    have htake : (bytes.take n).length = n := List.length_take_of_le hle
    have hrest : chunks * n ≤ (bytes.drop n).length := by
      rw [Nat.succ_mul] at hlen
      rw [List.length_drop]
      omega
    have hchunk : φ (init * powern n + dotProduct (bytes.take n) (powers n)) =
        horner (φ PRIME) (φ init) (digits φ (bytes.take n)) := by
      rw [h.map_add, h.map_mul, hpowern, h.map_dotProduct htake hn, horner_eq (φ PRIME) (φ init),
        digits, List.length_map, htake]
    rw [chunked, ih hrest, h.map_plain, hchunk, ← horner_append, digits, digits, ← List.map_append,
      List.take_append_drop, h.map_plain]
    rfl

/-- **In chunks, or byte by byte.** -/
theorem madHash_eq {n : ℕ} (hn : 0 < n) (hpowern : φ (powern n) = φ PRIME ^ n) (init : T)
    (bytes : List UInt8) : madHash n init bytes = plain init bytes :=
  h.injective (h.map_chunked hn hpowern (Nat.div_mul_le_self _ _))

/-- With zeros for bytes, the hash is a power of the base. -/
theorem map_chunked_zeros {n : ℕ} (hn : 0 < n) (init : T) :
    φ (madHash n init (List.replicate n 0)) = φ init * φ PRIME ^ (n % 2 ^ 32) := by
  have hdigits : digits φ (List.replicate n 0) = List.replicate n 0 := by
    rw [digits, List.map_replicate, show normalize 0 = 0 from rfl, h.map_zero]
  have hlen : (List.replicate n (0 : UInt8)).length = n := List.length_replicate
  rw [madHash, hlen, Nat.div_self hn, chunked, chunked, List.drop_of_length_le (Nat.le_of_eq hlen),
    List.take_of_length_le (Nat.le_of_eq hlen)]
  show φ (init * powern n + dotProduct _ _) = _
  rw [h.map_add, h.map_mul, h.map_dotProduct hlen hn, hdigits, horner_replicate_zero, zero_mul, add_zero,
    powern, h.map_wrappingPow]

end Interprets

/-! ## 32 and 64 bits -/

theorem interprets32 : Interprets fun a : UInt32 => (a.toNat : ZMod (2 ^ 32)) where
  injective a b hab := by
    have hmod := (ZMod.natCast_eq_natCast_iff' _ _ _).1 hab
    rwa [Nat.mod_eq_of_lt a.toNat_lt, Nat.mod_eq_of_lt b.toNat_lt, UInt32.toNat_inj] at hmod
  map_add a b := by rw [UInt32.toNat_add, ZMod.natCast_mod, Nat.cast_add]
  map_mul a b := by rw [UInt32.toNat_mul, ZMod.natCast_mod, Nat.cast_mul]
  map_zero := Nat.cast_zero
  map_one := Nat.cast_one

theorem interprets64 : Interprets fun a : UInt64 => (a.toNat : ZMod (2 ^ 64)) where
  injective a b hab := by
    have hmod := (ZMod.natCast_eq_natCast_iff' _ _ _).1 hab
    rwa [Nat.mod_eq_of_lt a.toNat_lt, Nat.mod_eq_of_lt b.toNat_lt, UInt64.toNat_inj] at hmod
  map_add a b := by rw [UInt64.toNat_add, ZMod.natCast_mod, Nat.cast_add]
  map_mul a b := by rw [UInt64.toNat_mul, ZMod.natCast_mod, Nat.cast_mul]
  map_zero := Nat.cast_zero
  map_one := Nat.cast_one

/-- The order of `PRIME` for 32 bits. -/
theorem orderOf_prime32 : orderOf ((37 : UInt32).toNat : ZMod (2 ^ 32)) = 2 ^ 30 := by
  have horder := ZMod.orderOf_one_add_four_mul 9 (by decide) 30
  have hbase : ((37 : UInt32).toNat : ZMod (2 ^ 32)) = 1 + 4 * ((9 : ℤ) : ZMod (2 ^ 32)) := by
    rw [show (37 : UInt32).toNat = 37 from rfl]
    norm_num
  rw [hbase]
  exact horder

/-- The order of `PRIME` for 64 bits. -/
theorem orderOf_prime64 : orderOf ((133 : UInt64).toNat : ZMod (2 ^ 64)) = 2 ^ 62 := by
  have horder := ZMod.orderOf_one_add_four_mul 33 (by decide) 62
  have hbase : ((133 : UInt64).toNat : ZMod (2 ^ 64)) = 1 + 4 * ((33 : ℤ) : ZMod (2 ^ 64)) := by
    rw [show (133 : UInt64).toNat = 133 from rfl]
    norm_num
  rw [hbase]
  exact horder

/-- The cast of the exponent is not seen in 32 bits. -/
theorem powern32 (n : ℕ) : ((powern n : UInt32).toNat : ZMod (2 ^ 32)) =
    ((37 : UInt32).toNat : ZMod (2 ^ 32)) ^ n := by
  have hmod : n % 2 ^ 32 ≡ n [MOD 2 ^ 30] := by
    show n % 2 ^ 32 % 2 ^ 30 = n % 2 ^ 30
    exact Nat.mod_mod_of_dvd n (pow_dvd_pow 2 (by decide))
  have hfin : IsOfFinOrder ((37 : UInt32).toNat : ZMod (2 ^ 32)) :=
    orderOf_pos_iff.1 (by rw [orderOf_prime32]; decide)
  rw [← orderOf_prime32] at hmod
  rw [powern, interprets32.map_wrappingPow]
  exact hfin.pow_eq_pow_iff_modEq.2 hmod

/-- In 64 bits it is, by sizes from `2 ^ 32` on. -/
theorem powern64_iff (n : ℕ) : ((powern n : UInt64).toNat : ZMod (2 ^ 64)) =
    ((133 : UInt64).toNat : ZMod (2 ^ 64)) ^ n ↔ n % 2 ^ 62 < 2 ^ 32 := by
  have hmod : n % 2 ^ 32 ≡ n [MOD 2 ^ 62] ↔ n % 2 ^ 62 < 2 ^ 32 := by
    show n % 2 ^ 32 % 2 ^ 62 = n % 2 ^ 62 ↔ n % 2 ^ 62 < 2 ^ 32
    omega
  have hfin : IsOfFinOrder ((133 : UInt64).toNat : ZMod (2 ^ 64)) :=
    orderOf_pos_iff.1 (by rw [orderOf_prime64]; decide)
  rw [powern, interprets64.map_wrappingPow, ← hmod, ← orderOf_prime64]
  exact hfin.pow_eq_pow_iff_modEq

end MadHash

open MadHash

/-- For 32 bits, hashing in chunks is hashing byte by byte. -/
theorem madHash_eq_madHash32 {n : ℕ} (hn : 0 < n) (init : UInt32) (bytes : List UInt8) :
    madHash n init bytes = madHash32 init bytes :=
  interprets32.madHash_eq hn (powern32 n) init bytes

/-- For 64 bits, it is if the cast of the exponent is not seen. -/
theorem madHash_eq_madHash64 {n : ℕ} (hn : 0 < n) (hcast : n % 2 ^ 62 < 2 ^ 32) (init : UInt64)
    (bytes : List UInt8) : madHash n init bytes = madHash64 init bytes :=
  interprets64.madHash_eq hn ((powern64_iff n).2 hcast) init bytes

/-- A chunk of zeros shows the cast of the exponent. -/
theorem of_madHash_eq_madHash64 {n : ℕ} (hn : 0 < n)
    (h : madHash n (1 : UInt64) (List.replicate n 0) = madHash64 1 (List.replicate n 0)) :
    n % 2 ^ 62 < 2 ^ 32 := by
  have hone : ((1 : UInt64).toNat : ZMod (2 ^ 64)) = 1 := Nat.cast_one
  have hfast := interprets64.map_chunked_zeros hn 1
  have hplain := interprets64.map_plain 1 (List.replicate n 0)
  have hdigits : digits (fun a : UInt64 => (a.toNat : ZMod (2 ^ 64))) (List.replicate n 0) =
      List.replicate n 0 := by
    rw [digits, List.map_replicate]
    exact congrArg _ Nat.cast_zero
  rw [hone, one_mul, ← interprets64.map_wrappingPow] at hfast
  rw [hone, hdigits, horner_replicate_zero, one_mul] at hplain
  refine (powern64_iff n).1 ?_
  rw [powern, ← hfast, h]
  exact hplain

/-- **Hashing in chunks is hashing byte by byte** for 32 bits, and for 64 bits
    exactly if `N` is not affected by the cast to `u32`, or not reached. -/
theorem madHash_eq_iff {n : ℕ} (hn : 0 < n) :
    (∀ (init : UInt32) (bytes : List UInt8), madHash n init bytes = madHash32 init bytes) ∧
    (∀ (init : UInt64) (bytes : List UInt8), bytes.length < n →
      madHash n init bytes = madHash64 init bytes) ∧
    ((∀ (init : UInt64) (bytes : List UInt8), madHash n init bytes = madHash64 init bytes) ↔
      n % 2 ^ 62 < 2 ^ 32) ∧
    ∀ s : Str,
      hashPath32 s = (normalizeSuffixAsBytes s).map (fun bytes => madHash32 0 (0x2f :: bytes)) ∧
      hashPath64 s = (normalizeSuffixAsBytes s).map fun bytes => madHash64 0 (0x2f :: bytes) := by
  refine ⟨madHash_eq_madHash32 hn, ?_, ⟨?_, ?_⟩, ?_⟩
  · intro init bytes hlen
    rw [madHash, Nat.div_eq_of_lt hlen]
    rfl
  · intro h
    exact of_madHash_eq_madHash64 hn (h 1 _)
  · intro hcast init bytes
    exact madHash_eq_madHash64 hn hcast init bytes
  · intro s
    have h32 : ∀ bytes, madHash 4 (madHash32 0 [0x2f]) bytes = madHash32 0 (0x2f :: bytes) := by
      intro bytes
      rw [madHash_eq_madHash32 (by decide)]
      rfl
    have h64 : ∀ bytes, madHash 4 (madHash64 0 [0x2f]) bytes = madHash64 0 (0x2f :: bytes) := by
      intro bytes
      rw [madHash_eq_madHash64 (by decide) (by decide)]
      rfl
    exact ⟨Option.map_congr fun bytes _ => h32 bytes, Option.map_congr fun bytes _ => h64 bytes⟩

theorem madHash_eq_iff_four :
    madHash 4 (0x2f : UInt64) [0x63, 0x2f, 0x61, 0x2e, 0x62] =
      madHash64 0x2f [0x63, 0x2f, 0x61, 0x2e, 0x62] := by
  have hcast : 4 % 2 ^ 62 < 2 ^ 32 := by decide
  exact (madHash_eq_iff (by decide)).2.2.1.2 hcast _ _

/-- With chunks of `2 ^ 32` bytes, `POWERN` is the power for `0`. -/
theorem madHash_ne_madHash64 : madHash (2 ^ 32) (1 : UInt64) (List.replicate (2 ^ 32) 0) ≠
    madHash64 1 (List.replicate (2 ^ 32) 0) := by
  intro h
  exact absurd (of_madHash_eq_madHash64 (by decide) h) (by decide)

end Fsvfs
