/-
  Keys that are read from DER (`src/crypto/rsa.rs`).

  * `decodeFromDer_encodeKey`: a key is read from its canonical encoding;
  * `decodeFromDer_exact_iff`: other inputs are read exactly, unless a sign byte is
    taken from a length of zero (`ZeroLength`) or a length of an accepted input
    does not fit in a `usize` (`Wrapped`).
-/
import Fsvfs.Crypto.Der
import Mathlib.Data.Nat.Digits.Lemmas

namespace Fsvfs.Crypto

open Lib

/-! ## Canonical encodings -/

/-- A number in as many bytes as it needs. -/
def bytesBe (n : ℕ) : List UInt8 := encode .BE (Nat.digits 256 n).length n

/-- The length octets of a length. -/
def encodeLength (length : ℕ) : List UInt8 :=
  if length < 0x80 then [UInt8.ofNat length]
  else UInt8.ofNat (0x80 + (bytesBe length).length) :: bytesBe length

/-- The content of an integer, with a sign byte if the top bit is set. -/
def encodeContent (n : ℕ) : List UInt8 := match bytesBe n with
  | [] => [0]
  | b :: bytes => if 0x80 ≤ b then 0 :: b :: bytes else b :: bytes

def encodeInteger (n : ℕ) : List UInt8 :=
  DER_INT :: (encodeLength (encodeContent n).length ++ encodeContent n)

/-- The canonical encoding of the sequence of a modulus and an exponent. -/
def encodeKey (n e : ℕ) : List UInt8 :=
  let body := encodeInteger n ++ encodeInteger e
  DER_SEQ :: (encodeLength body.length ++ body)

example : encodeKey 0x8f01 0x11 = [0x30, 0x08, 0x02, 0x03, 0x00, 0x8f, 0x01, 0x02, 0x01, 0x11] := by
  decide +kernel

theorem decode_bytesBe (n : ℕ) : decode .BE (bytesBe n) = n :=
  decode_encode .BE (Nat.lt_base_pow_length_digits (by decide))

theorem length_bytesBe (n : ℕ) : (bytesBe n).length = (Nat.digits 256 n).length := length_encode _ _ _

theorem length_bytesBe_le {n k : ℕ} (h : n < 256 ^ k) : (bytesBe n).length ≤ k := by
  rw [length_bytesBe]
  exact (Nat.digits_length_le_iff (by decide) n).2 h

/-- The first byte is not zero. -/
theorem ne_zero_of_bytesBe_eq {n : ℕ} {b : UInt8} {bytes : List UInt8} (h : bytesBe n = b :: bytes) : b ≠ 0 := by
  rintro rfl
  have hn : decode .BE bytes = n := by rw [← decodeBE_zero_cons, ← h, decode_bytesBe]
  have hlen : (Nat.digits 256 n).length = bytes.length + 1 := by rw [← length_bytesBe, h, List.length_cons]
  have hle : (Nat.digits 256 n).length ≤ bytes.length :=
    (Nat.digits_length_le_iff (by decide) n).2 (hn ▸ decode_lt .BE bytes)
  omega

theorem lengthOctets_encodeLength {length : ℕ} (h : length < 2 ^ 64) :
    LengthOctets (encodeLength length) length := by
  rw [encodeLength]
  split_ifs with hshort
  · have hnat : (UInt8.ofNat length).toNat = length := by
      rw [UInt8.toNat_ofNat', Nat.mod_eq_of_lt (by omega)]
    have hlt : UInt8.ofNat length < 0x80 := by
      rw [UInt8.lt_iff_toNat_lt, hnat]
      exact hshort
    have hoctets := LengthOctets.short hlt
    rwa [hnat] at hoctets
  · have hle : (bytesBe length).length ≤ 8 := length_bytesBe_le (by omega)
    generalize hcount : (bytesBe length).length = count at hle ⊢
    have hbyte : ∀ count : Fin 9, ¬ UInt8.ofNat (0x80 + count) < 0x80 ∧
        (UInt8.ofNat (0x80 + count) &&& 0x7f).toNat = count := by decide
    obtain ⟨hlong, hand⟩ := hbyte ⟨count, by omega⟩
    have hoctets := LengthOctets.long hlong (hcount.trans hand.symm)
    rwa [decode_bytesBe] at hoctets

/-- What is left of a content is the number. -/
theorem withoutSign_encodeContent (n : ℕ) :
    encodeContent n ≠ [] ∧ withoutSign (encodeContent n) = bytesBe n := by
  rw [encodeContent]
  split
  · rename_i hnil
    rw [hnil]
    decide
  · rename_i b bytes hbytes
    rw [hbytes]
    split_ifs with htop
    · refine ⟨List.cons_ne_nil _ _, ?_⟩
      rw [withoutSign, if_pos rfl]
    · refine ⟨List.cons_ne_nil _ _, ?_⟩
      rw [withoutSign, if_neg (ne_zero_of_bytesBe_eq hbytes)]

theorem readAs_encodeInteger {n : ℕ} (h : (encodeContent n).length < 2 ^ 64) :
    ReadAs (encodeInteger n) (encodeContent n) :=
  ⟨_, ⟨_, lengthOctets_encodeLength h, rfl⟩, (Nat.mod_eq_of_lt h).symm⟩

theorem length_encodeInteger_le (n : ℕ) : (encodeContent n).length ≤ (encodeInteger n).length := by
  rw [encodeInteger, List.length_cons, List.length_append]
  omega

/-- **A key is read from its canonical encoding**, if that is not longer than a
    slice can be. -/
theorem decodeFromDer_encodeKey {n e : ℕ} {trailing : List UInt8} (hn : 1 ≤ n)
    (hslice : (encodeKey n e ++ trailing).length < 2 ^ 64) :
    ∃ key, RsaKey.decodeFromDer (encodeKey n e ++ trailing) = .ok key ∧ key.n = n ∧ key.e = e ∧
      key.inBlockLen = (Nat.digits 256 n).length := by
  have hkey : encodeKey n e ++ trailing = DER_SEQ ::
      (encodeLength (encodeInteger n ++ encodeInteger e).length ++
        (encodeInteger n ++ (encodeInteger e ++ trailing))) := by
    rw [encodeKey, List.cons_append, List.append_assoc, List.append_assoc]
  have hlen : (encodeInteger n ++ encodeInteger e).length < 2 ^ 64 := by
    simp only [hkey, List.length_cons, List.length_append] at hslice
    rw [List.length_append]
    omega
  have hle := length_encodeInteger_le n
  have hle' := length_encodeInteger_le e
  rw [List.length_append] at hlen
  have hbody : SequenceBytes (encodeKey n e ++ trailing) (encodeInteger n ++ (encodeInteger e ++ trailing)) :=
    ⟨_, _, lengthOctets_encodeLength (by rwa [List.length_append]), hkey⟩
  obtain ⟨hne, hsign⟩ := withoutSign_encodeContent e
  obtain ⟨-, hmodulus⟩ := withoutSign_encodeContent n
  have hpos : 0 < (withoutSign (encodeContent n)).length := by
    rw [hmodulus, length_bytesBe]
    exact List.length_pos_of_ne_nil (Nat.digits_ne_nil_iff_ne_zero.2 (Nat.ne_of_gt hn))
  have hread := @decodeDerKey_append _ _ _ _ trailing (@readAs_encodeInteger n (by omega)) (@readAs_encodeInteger e (by omega))
    (fun hnil => absurd hnil hne) hpos
  refine ⟨_, (decodeFromDer_of_sequence hbody).trans hread, ?_, ?_, ?_⟩
  · show decode .BE (encodeContent n) = n
    rw [← decode_withoutSign, hmodulus, decode_bytesBe]
  · show decode .BE (encodeContent e) = e
    rw [← decode_withoutSign, hsign, decode_bytesBe]
  · show (withoutSign (encodeContent n)).length = _
    rw [hmodulus, length_bytesBe]

theorem decodeFromDer_encodeKey_one : ∃ key,
    RsaKey.decodeFromDer (encodeKey 0x8f01 0x11 ++ [1, 2]) = .ok key ∧ key.n = 0x8f01 ∧ key.e = 0x11 ∧
      key.inBlockLen = (Nat.digits 256 0x8f01).length :=
  decodeFromDer_encodeKey (by decide) (by decide +kernel)

/-! ## Other inputs -/

/-- The integers of the key have as many octets of content as their length octets
    say. -/
def Exact (der : List UInt8) (key : RsaKey) : Prop :=
  ∃ nBytes n eBytes e rest, SequenceBytes der (nBytes ++ (eBytes ++ rest)) ∧
    IntegerBytes nBytes n n.length ∧ IntegerBytes eBytes e e.length ∧
    key.n = decode .BE n ∧ key.e = decode .BE e ∧ key.len = (withoutSign n).length

/-- An integer with a length of zero, in a `usize`, is followed by a zero. -/
def ZeroLength (der : List UInt8) : Prop :=
  ∃ body, SequenceBytes der body ∧ ∃ bytes rest, ReadAs bytes [] ∧ (body = bytes ++ 0 :: rest ∨
    ∃ nBytes n, ReadAs nBytes n ∧ body = nBytes ++ (bytes ++ 0 :: rest))

/-- There are two integers with the octets of content that their lengths say in a
    `usize`, and one of these lengths does not fit in it. -/
def Wrapped (der : List UInt8) : Prop :=
  ∃ nBytes n nLength eBytes e eLength rest, SequenceBytes der (nBytes ++ (eBytes ++ rest)) ∧
    IntegerBytes nBytes n nLength ∧ n.length = nLength % 2 ^ 64 ∧ withoutSign n ≠ [] ∧
    IntegerBytes eBytes e eLength ∧ e.length = eLength % 2 ^ 64 ∧ (2 ^ 64 ≤ nLength ∨ 2 ^ 64 ≤ eLength)

variable {der : List UInt8}

theorem SequenceBytes.unique {body body' : List UInt8} (h : SequenceBytes der body) (h' : SequenceBytes der body') :
    body = body' := by
  obtain ⟨octets, value, hoctets, rfl⟩ := h
  obtain ⟨octets', value', hoctets', heq⟩ := h'
  exact (hoctets.unique hoctets' (List.cons.inj heq).2).2.2

/-- Integers of the same bytes have the same length octets. -/
theorem IntegerBytes.unique {bytes bytes' content content' rest rest' : List UInt8} {value value' : ℕ}
    (h : IntegerBytes bytes content value) (h' : IntegerBytes bytes' content' value')
    (heq : bytes ++ rest = bytes' ++ rest') : value = value' ∧ content ++ rest = content' ++ rest' := by
  obtain ⟨octets, hoctets, rfl⟩ := h
  obtain ⟨octets', hoctets', rfl⟩ := h'
  rw [List.cons_append, List.append_assoc, List.cons_append, List.append_assoc] at heq
  exact (hoctets.unique hoctets' (List.cons.inj heq).2).2

theorem IntegerBytes.length_le {bytes content : List UInt8} {value : ℕ} (h : IntegerBytes bytes content value) :
    content.length ≤ bytes.length := by
  obtain ⟨octets, hoctets, rfl⟩ := h
  rw [List.length_cons, List.length_append]
  omega

/-- The sign byte is taken from a length of zero for such inputs. -/
theorem decodeFromDer_eq_panic_iff : RsaKey.decodeFromDer der = .error .panic ↔ ZeroLength der := by
  constructor
  · intro h
    have hne : RsaKey.decodeFromDer der ≠ .error .error := by
      rw [h]
      decide
    obtain ⟨body, hbody⟩ := exists_sequence hne
    rw [decodeFromDer_of_sequence hbody] at h
    exact ⟨body, hbody, decodeDerKey_eq_panic_iff.1 h⟩
  · rintro ⟨body, hbody, hzero⟩
    rw [decodeFromDer_of_sequence hbody]
    exact decodeDerKey_eq_panic_iff.2 hzero

/-- An input whose lengths fit is read exactly. -/
theorem exact_of_decodeFromDer {key : RsaKey} (hwrapped : ¬ Wrapped der)
    (h : RsaKey.decodeFromDer der = .ok key) : Exact der key := by
  have hne : RsaKey.decodeFromDer der ≠ .error .error := by
    intro herr
    cases h.symm.trans herr
  obtain ⟨body, hbody⟩ := exists_sequence hne
  rw [decodeFromDer_of_sequence hbody] at h
  obtain ⟨nBytes, n, eBytes, e, rest, ⟨nLength, hn, hnLen⟩, ⟨eLength, he, heLen⟩, rfl, hpos, rfl⟩ :=
    exists_of_decodeDerKey h
  have hfit : nLength < 2 ^ 64 ∧ eLength < 2 ^ 64 := by
    refine not_or.1 (fun hor => hwrapped ?_) |>.imp Nat.not_le.1 Nat.not_le.1
    exact ⟨nBytes, n, nLength, eBytes, e, eLength, rest, hbody, hn, hnLen, List.ne_nil_of_length_pos hpos,
      he, heLen, hor⟩
  rw [Nat.mod_eq_of_lt hfit.1] at hnLen
  rw [Nat.mod_eq_of_lt hfit.2] at heLen
  exact ⟨nBytes, n, eBytes, e, rest, hbody, hnLen ▸ hn, heLen ▸ he, rfl, rfl, rfl⟩

/-- An input with a length that does not fit is not read exactly. -/
theorem not_exact_of_wrapped (hslice : der.length < 2 ^ 64) (hzero : ¬ ZeroLength der) (h : Wrapped der) :
    ∃ key, RsaKey.decodeFromDer der = .ok key ∧ ¬ Exact der key := by
  obtain ⟨nBytes, n, nLength, eBytes, e, eLength, rest, hbody, hn, hnLen, hnil, he, heLen, hlong⟩ := h
  have hsign : e = [] → rest.head? ≠ some 0 := by
    rintro rfl hhead
    obtain ⟨rest, rfl⟩ := List.head?_eq_some_iff.1 hhead
    exact hzero ⟨_, hbody, eBytes, rest, ⟨eLength, he, heLen⟩, Or.inr ⟨nBytes, n, ⟨nLength, hn, hnLen⟩, rfl⟩⟩
  have hread := decodeDerKey_append ⟨nLength, hn, hnLen⟩ ⟨eLength, he, heLen⟩ hsign
    (List.length_pos_of_ne_nil hnil)
  refine ⟨_, (decodeFromDer_of_sequence hbody).trans hread, ?_⟩
  rintro ⟨nBytes', n', eBytes', e', rest', hbody', hn', he', -⟩
  have hle : nBytes'.length + eBytes'.length ≤ der.length := by
    obtain ⟨octets, value, hoctets, rfl⟩ := hbody'
    simp only [List.length_cons, List.length_append]
    omega
  have hnle := hn'.length_le
  have hele := he'.length_le
  obtain ⟨hnValue, hnRest⟩ := hn.unique hn' (hbody.unique hbody')
  have hnLen' : n.length = n'.length := by rw [hnLen, hnValue, Nat.mod_eq_of_lt (by omega)]
  obtain ⟨rfl, hrest⟩ := List.append_inj hnRest hnLen'
  obtain ⟨heValue, -⟩ := he.unique he' hrest
  omega

/-- **Inputs are read exactly or rejected**, apart from those two kinds. -/
theorem decodeFromDer_exact_iff (hslice : der.length < 2 ^ 64) :
    (RsaKey.decodeFromDer der ≠ .error .panic ∧
      ∀ key, RsaKey.decodeFromDer der = .ok key → Exact der key) ↔
    ¬ ZeroLength der ∧ ¬ Wrapped der := by
  constructor
  · rintro ⟨hpanic, hexact⟩
    have hzero : ¬ ZeroLength der := fun h => hpanic (decodeFromDer_eq_panic_iff.2 h)
    refine ⟨hzero, fun hwrapped => ?_⟩
    obtain ⟨key, hkey, hnot⟩ := not_exact_of_wrapped hslice hzero hwrapped
    exact hnot (hexact key hkey)
  · rintro ⟨hzero, hwrapped⟩
    exact ⟨fun h => hzero (decodeFromDer_eq_panic_iff.1 h), fun key => exact_of_decodeFromDer hwrapped⟩

/-- A modulus of no octets before a zero. -/
def zeroLengthKey : List UInt8 := [0x30, 0x00, 0x02, 0x00, 0x00]

/-- A modulus of one octet with a length of `2 ^ 64 + 1`. -/
def wrappedKey : List UInt8 :=
  [0x30, 0x00, 0x02, 0x89, 0x01, 0x00, 0x00, 0x00, 0x00, 0x00, 0x00, 0x00, 0x01, 0x05, 0x02, 0x01, 0x03]

theorem decodeFromDer_exact_iff_zeroLengthKey : ¬ (¬ ZeroLength zeroLengthKey ∧ ¬ Wrapped zeroLengthKey) :=
  fun h => ((decodeFromDer_exact_iff (by decide)).2 h).1 (by decide)

theorem not_decodeFromDer_exact : RsaKey.decodeFromDer zeroLengthKey = .error .panic ∧
    ∃ key, RsaKey.decodeFromDer wrappedKey = .ok key ∧ ¬ Exact wrappedKey key := by
  constructor
  · decide
  · have hzero : ¬ ZeroLength wrappedKey := by
      rw [← decodeFromDer_eq_panic_iff]
      decide +kernel
    have hn : LengthOctets [0x89, 0x01, 0x00, 0x00, 0x00, 0x00, 0x00, 0x00, 0x00, 0x01] (2 ^ 64 + 1) :=
      .long (by decide) (by decide)
    have he : LengthOctets [0x01] 1 := .short (by decide)
    refine not_exact_of_wrapped (by decide) hzero ⟨_, [0x05], _, _, [0x03], _, [], ?_, ⟨_, hn, rfl⟩, rfl,
      List.cons_ne_nil _ _, ⟨_, he, rfl⟩, rfl, Or.inl (by decide)⟩
    exact ⟨[0x00], 0, .short (by decide), rfl⟩

end Fsvfs.Crypto
