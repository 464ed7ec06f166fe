/-
  Path hashes (`src/hash.rs`, `src/hash/mad.rs`).
-/
import Fsvfs.Filesystem.Path

namespace Fsvfs

/-- `MadHash`, with the additions and multiplications of `MulAdd`, which wrap,
    and `From<u8>`. -/
class MadHash (T : Type) extends Add T, Mul T where
  PRIME : T
  ofU8 : UInt8 → T

instance : MadHash UInt32 where
  PRIME := 37
  ofU8 := UInt8.toUInt32

instance : MadHash UInt64 where
  PRIME := 133
  ofU8 := UInt8.toUInt64

namespace MadHash
variable {T : Type} [MadHash T]

/-- `normalize`. -/
def normalize (c : UInt8) : UInt8 :=
  if 0x41 ≤ c ∧ c ≤ 0x5a then c ||| 32 else if c = 0x5c then 0x2f else c

/-- The loop of `impl_powers!`. -/
def powersLoop : ℕ → T → List T → List T
  | 0, _, powers => powers
  | i + 1, last, powers => powersLoop i (PRIME * last) (PRIME * last :: powers)

/-- `POWERS`. -/
def powers (n : ℕ) : List T := powersLoop (n - 1) (ofU8 1) [ofU8 1]

/-- `wrapping_pow`. -/
def wrappingPow (p : T) : ℕ → T
  | 0 => ofU8 1
  | n + 1 => wrappingPow p n * p

/-- `POWERN`; the exponent is `N as u32`. -/
def powern (n : ℕ) : T := wrappingPow PRIME (n % 2 ^ 32)

/-- The dot product of a chunk with the powers. -/
def dotProduct (chunk : List UInt8) (powers : List T) : T :=
  (chunk.zip powers).foldl (fun dot (b, power) => dot + ofU8 (normalize b) * power) (ofU8 0)

/-- The loop over the bytes one by one. -/
def plain (init : T) (bytes : List UInt8) : T :=
  bytes.foldl (fun hash b => hash * PRIME + ofU8 (normalize b)) init

/-- The loop over the chunks, then over the remainder. -/
def chunked (n : ℕ) : ℕ → T → List UInt8 → T
  | 0, hash, bytes => plain hash bytes
  | chunks + 1, hash, bytes =>
    chunked n chunks (hash * powern n + dotProduct (bytes.take n) (powers n)) (bytes.drop n)

end MadHash

/-- `mad_hash`. -/
def madHash {T : Type} [MadHash T] (n : ℕ) (init : T) (bytes : List UInt8) : T :=
  MadHash.chunked n (bytes.length / n) init bytes

/-- `mad_hash32`. -/
def madHash32 (init : UInt32) (bytes : List UInt8) : UInt32 := MadHash.plain init bytes

/-- `mad_hash64`. -/
def madHash64 (init : UInt64) (bytes : List UInt8) : UInt64 := MadHash.plain init bytes

/-- `str::split_once(':')`, with the whole string if there is no colon. -/
def withoutRoot (s : Str) : Str := if ':' ∈ s then (s.dropWhile (· ≠ ':')).tail else s

/-- `normalize_suffix_as_bytes`. -/
def normalizeSuffixAsBytes (s : Str) : Option (List UInt8) :=
  match (withoutRoot s).bytes with
  | [] => none
  | first :: rest =>
    if rest = [] then none
    else some (if first = 0x2f ∨ first = 0x5c then rest else first :: rest)

/-- `hash_path32`. -/
def hashPath32 (s : Str) : Option UInt32 :=
  (normalizeSuffixAsBytes s).map (madHash 4 (madHash32 0 ['/'.toNat.toUInt8]))

/-- `hash_path64`. -/
def hashPath64 (s : Str) : Option UInt64 :=
  (normalizeSuffixAsBytes s).map (madHash 4 (madHash64 0 ['/'.toNat.toUInt8]))

example : hashPath32 "/data3:\\action\\EventNameId.TXT".toList = some 0xec09d5de := by
  decide +kernel

example : hashPath64 "/action/eventnameid.txt".toList = some 0x800c9074f004323e := by
  decide +kernel

end Fsvfs
