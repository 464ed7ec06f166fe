/-
  Keys in DER (`src/crypto/rsa.rs`).

  `None` of the functions that read a field, like `DecodeError::Der`, is
  `Stop.error`.  `LengthOctets` are the length octets of a number.

  * `decodeDerLength_eq_some_iff`: lengths are read modulo `2 ^ 64`;
  * `decodeDerInteger_eq_ok_iff`, `decodeDerInteger_eq_panic_iff`: what an integer
    is read from, and when its sign byte is taken from a length of zero.
-/
import Fsvfs.Crypto.Rsa
import Fsvfs.Lib.Checked

namespace Fsvfs.Crypto

open Lib

def DER_INT : UInt8 := 0x02

def DER_SEQ : UInt8 := 0x10 ||| 0x20

/-- `decode_der_length`, with what is left of the input. -/
def decodeDerLength : List UInt8 → Option (UInt64 × List UInt8)
  | [] => none
  | first :: der =>
    if first < 0x80 then some (first.toUInt64, der)
    else
      let count := (first &&& 0x7f).toNat
      if der.length < count then none
      else some ((der.take count).foldl (fun length b => length <<< 8 ||| b.toUInt64) 0, der.drop count)

/-- `split_off(..length)`. -/
def splitOff (length : ℕ) (der : List UInt8) : Checked (List UInt8 × List UInt8) :=
  if der.length < length then .error .error else .ok (der.take length, der.drop length)

/-- `decode_der_integer` after the length. -/
def decodeDerContent (length : UInt64) (der : List UInt8) : Checked (List UInt8 × List UInt8) :=
  if der.head? = some 0 then do
    let length ← Checked.sub length.toNat 1
    splitOff length der.tail
  else splitOff length.toNat der

/-- `decode_der_integer`, with what is left of the input. -/
def decodeDerInteger : List UInt8 → Checked (List UInt8 × List UInt8)
  | [] => .error .error
  | first :: der =>
    if first ≠ DER_INT then .error .error
    else match decodeDerLength der with
      | none => .error .error
      | some (length, der) => decodeDerContent length der

/-- `decode_from_der` after the length of the sequence. -/
def decodeDerKey (der : List UInt8) : Checked RsaKey := do
  let (nBytes, der) ← decodeDerInteger der
  let (eBytes, _) ← decodeDerInteger der
  if h : 0 < nBytes.length then
    .ok ⟨naturalFromBytesBe nBytes, naturalFromBytesBe eBytes, nBytes.length, h⟩
  else .error .error

/-- `RsaKey::decode_from_der`. -/
def RsaKey.decodeFromDer : List UInt8 → Checked RsaKey
  | [] => .error .error
  | first :: der =>
    if first ≠ DER_SEQ then .error .error
    else match decodeDerLength der with
      | none => .error .error
      | some (_, der) => decodeDerKey der

example : RsaKey.decodeFromDer [0x30, 0x08, 0x02, 0x03, 0x00, 0x8f, 0x01, 0x02, 0x01, 0x11] =
    .ok ⟨0x8f01, 0x11, 2, by decide⟩ := by
  decide +kernel

/-! ## Lengths -/

/-- The length octets of a number: one below `0x80`, or as many as the first one
    says. -/
inductive LengthOctets : List UInt8 → ℕ → Prop where
  | short {b : UInt8} (h : b < 0x80) : LengthOctets [b] b.toNat
  | long {b : UInt8} {octets : List UInt8} (h : ¬ b < 0x80) (hcount : octets.length = (b &&& 0x7f).toNat) :
    LengthOctets (b :: octets) (decode .BE octets)

/-- Length octets end where they say. -/
theorem LengthOctets.unique {octets octets' rest rest' : List UInt8} {value value' : ℕ}
    (h : LengthOctets octets value) (h' : LengthOctets octets' value')
    (heq : octets ++ rest = octets' ++ rest') : octets = octets' ∧ value = value' ∧ rest = rest' := by
  cases h with
  | short h =>
    cases h' with
    | short h' =>
      obtain ⟨rfl, rfl⟩ := List.cons.inj heq
      exact ⟨rfl, rfl, rfl⟩
    | long h' => exact absurd ((List.cons.inj heq).1 ▸ h) h'
  | long h hcount =>
    cases h' with
    | short h' => exact absurd ((List.cons.inj heq).1 ▸ h') h
    | long h' hcount' =>
      obtain ⟨rfl, happend⟩ := List.cons.inj heq
      obtain ⟨rfl, rfl⟩ := List.append_inj happend (hcount.trans hcount'.symm)
      exact ⟨rfl, rfl, rfl⟩

/-- **Lengths are read modulo `2 ^ 64`.** -/
theorem decodeDerLength_append {octets : List UInt8} {value : ℕ} (h : LengthOctets octets value)
    (rest : List UInt8) : decodeDerLength (octets ++ rest) = some (value.toUInt64, rest) := by
  cases h with
  | @short b h =>
    have hb : b.toUInt64 = b.toNat.toUInt64 := by
      rw [← UInt64.toNat_inj, UInt8.toNat_toUInt64, Nat.toUInt64_eq, UInt64.toNat_ofNat',
        Nat.mod_eq_of_lt (b.toNat_lt.trans (by decide))]
    rw [List.singleton_append, decodeDerLength, if_pos h, hb]
  | @long b octets h hcount =>
    have hlen : ¬ (octets ++ rest).length < (b &&& 0x7f).toNat := by
      rw [List.length_append]
      omega
    have hvalue : octets.foldl (fun (length : UInt64) b => length <<< 8 ||| b.toUInt64) 0 =
        (decode .BE octets).toUInt64 := by
      rw [← UInt64.toNat_inj, toNat_foldl_shift, Nat.toUInt64_eq, UInt64.toNat_ofNat',
        show (0 : UInt64).toNat = 0 from rfl, Nat.zero_mul, Nat.zero_add]
    rw [List.cons_append, decodeDerLength, if_neg h]
    dsimp only
    rw [if_neg hlen, List.take_left' hcount, List.drop_left' hcount, hvalue]

/-- A length that is read has its octets. -/
theorem exists_lengthOctets {der : List UInt8} (h : decodeDerLength der ≠ none) :
    ∃ octets value rest, LengthOctets octets value ∧ der = octets ++ rest := by
  cases der with
  | nil => exact absurd rfl h
  | cons first der =>
    by_cases hfirst : first < 0x80
    · exact ⟨[first], _, der, .short hfirst, rfl⟩
    · rw [decodeDerLength, if_neg hfirst] at h
      dsimp only at h
      split_ifs at h with hlt
      · exact absurd rfl h
      · have hcount := List.length_take_of_le (Nat.not_lt.1 hlt)
        refine ⟨_, _, der.drop (first &&& 0x7f).toNat, .long hfirst hcount, ?_⟩
        rw [List.cons_append, List.take_append_drop]

/-! ## Integers -/

/-- The content of an integer without its sign byte. -/
def withoutSign : List UInt8 → List UInt8
  | [] => []
  | b :: content => if b = 0 then content else b :: content

theorem decode_withoutSign (content : List UInt8) :
    decode .BE (withoutSign content) = decode .BE content := by
  cases content with
  | nil => rfl
  | cons b content =>
    rw [withoutSign]
    split_ifs with hb
    · rw [hb, decodeBE_zero_cons]
    · rfl

theorem splitOff_append {length : ℕ} {content : List UInt8} (hlen : content.length = length)
    (rest : List UInt8) : splitOff length (content ++ rest) = .ok (content, rest) := by
  rw [splitOff, if_neg (by rw [List.length_append]; omega), List.take_left' hlen, List.drop_left' hlen]

/-- The content is read up to its length. -/
theorem decodeDerContent_append {length : UInt64} {content rest : List UInt8}
    (hlen : content.length = length.toNat) (hsign : content = [] → rest.head? ≠ some 0) :
    decodeDerContent length (content ++ rest) = .ok (withoutSign content, rest) := by
  rw [decodeDerContent]
  cases content with
  | nil =>
    rw [List.nil_append, if_neg (hsign rfl)]
    exact splitOff_append hlen rest
  | cons b content =>
    rw [List.length_cons] at hlen
    have hhead : ((b :: content) ++ rest).head? = some 0 ↔ b = 0 := Option.some_inj
    rw [withoutSign]
    split_ifs with h0 hb hb
    · rw [Checked.sub_of_le (by omega), Checked.ok_bind]
      exact splitOff_append (by omega) rest
    · exact absurd (hhead.1 h0) hb
    · exact absurd (hhead.2 hb) h0
    · exact @splitOff_append _ (b :: content) hlen rest

theorem le_of_splitOff {length : ℕ} {der : List UInt8} {result : List UInt8 × List UInt8}
    (h : splitOff length der = .ok result) : length ≤ der.length := by
  rw [splitOff] at h
  split_ifs at h with hlt
  exact Nat.not_lt.1 hlt

/-- A content that is read is there, and has its sign byte. -/
theorem exists_content {length : UInt64} {der : List UInt8} {result : List UInt8 × List UInt8}
    (h : decodeDerContent length der = .ok result) : ∃ content rest, der = content ++ rest ∧
      content.length = length.toNat ∧ (content = [] → rest.head? ≠ some 0) := by
  have hle : length.toNat ≤ der.length ∧ (length.toNat = 0 → der.head? ≠ some 0) := by
    rw [decodeDerContent] at h
    split_ifs at h with h0
    · obtain ⟨n, hsub, hsplit⟩ := Checked.bind_eq_ok.1 h
      rw [Checked.sub] at hsub
      split_ifs at hsub with hpos
      cases hsub
      have hlen := le_of_splitOff hsplit
      rw [List.length_tail] at hlen
      have hne : 0 < der.length := List.length_pos_of_ne_nil (by rintro rfl; simp at h0)
      exact ⟨by omega, fun hzero => by omega⟩
    · exact ⟨le_of_splitOff h, fun _ => h0⟩
  refine ⟨der.take length.toNat, der.drop length.toNat, (List.take_append_drop _ _).symm,
    List.length_take_of_le hle.1, ?_⟩
  intro hnil
  have hzero : length.toNat = 0 := by
    rw [← List.length_take_of_le hle.1, hnil, List.length_nil]
  rw [hzero]
  exact hle.2 hzero

theorem decodeDerContent_eq_panic_iff {length : UInt64} {der : List UInt8} :
    decodeDerContent length der = .error .panic ↔ length.toNat = 0 ∧ der.head? = some 0 := by
  have hsplit : ∀ n bytes, splitOff n bytes ≠ .error .panic := by
    intro n bytes
    rw [splitOff]
    split_ifs <;> simp
  rw [decodeDerContent, Checked.sub]
  split_ifs with h0 hle
  · exact iff_of_false (hsplit _ _) (by omega)
  · exact iff_of_true rfl ⟨by omega, h0⟩
  · exact iff_of_false (hsplit _ _) fun h => h0 h.2

/-- The octets of an integer with some content, whose length octets are those of
    a number. -/
def IntegerBytes (bytes content : List UInt8) (value : ℕ) : Prop :=
  ∃ octets, LengthOctets octets value ∧ bytes = DER_INT :: (octets ++ content)

/-- The octets that are read for an integer with some content. -/
def ReadAs (bytes content : List UInt8) : Prop :=
  ∃ value, IntegerBytes bytes content value ∧ content.length = value % 2 ^ 64

theorem decodeDerInteger_octets {octets : List UInt8} {value : ℕ} (h : LengthOctets octets value)
    (rest : List UInt8) :
    decodeDerInteger (DER_INT :: (octets ++ rest)) = decodeDerContent value.toUInt64 rest := by
  rw [decodeDerInteger, if_neg (not_not.2 rfl), decodeDerLength_append h]

/-- An integer has length octets, unless it is not read at all. -/
theorem exists_octets {der : List UInt8} (h : decodeDerInteger der ≠ .error .error) :
    ∃ octets value rest, LengthOctets octets value ∧ der = DER_INT :: (octets ++ rest) := by
  cases der with
  | nil => exact absurd rfl h
  | cons first der =>
    rw [decodeDerInteger] at h
    split_ifs at h with hfirst
    · exact absurd rfl h
    · have hlength : decodeDerLength der ≠ none := by
        intro hnone
        rw [hnone] at h
        exact h rfl
      obtain ⟨octets, value, rest, hoctets, rfl⟩ := exists_lengthOctets hlength
      exact ⟨octets, value, rest, hoctets, by rw [not_not.1 hfirst]⟩

theorem toNat_toUInt64 (value : ℕ) : value.toUInt64.toNat = value % 2 ^ 64 := by
  rw [Nat.toUInt64_eq, UInt64.toNat_ofNat']

/-- **An integer is read.** -/
theorem decodeDerInteger_append {bytes content rest : List UInt8} (h : ReadAs bytes content)
    (hsign : content = [] → rest.head? ≠ some 0) :
    decodeDerInteger (bytes ++ rest) = .ok (withoutSign content, rest) := by
  obtain ⟨value, ⟨octets, hoctets, rfl⟩, hlen⟩ := h
  rw [List.cons_append, List.append_assoc, decodeDerInteger_octets hoctets]
  exact decodeDerContent_append (hlen.trans (toNat_toUInt64 value).symm) hsign

/-- **Where an integer is read from.** -/
theorem exists_readAs {der : List UInt8} {result : List UInt8 × List UInt8}
    (h : decodeDerInteger der = .ok result) : ∃ bytes content rest, ReadAs bytes content ∧
      der = bytes ++ rest ∧ (content = [] → rest.head? ≠ some 0) := by
  have hne : decodeDerInteger der ≠ .error .error := by
    intro herr
    cases h.symm.trans herr
  obtain ⟨octets, value, rest, hoctets, rfl⟩ := exists_octets hne
  rw [decodeDerInteger_octets hoctets] at h
  obtain ⟨content, rest, rfl, hlen, hsign⟩ := exists_content h
  refine ⟨DER_INT :: (octets ++ content), content, rest, ?_, ?_, hsign⟩
  · exact ⟨value, ⟨octets, hoctets, rfl⟩, hlen.trans (toNat_toUInt64 value)⟩
  · rw [List.cons_append, List.append_assoc]

/-- **When the sign byte is taken from a length of zero.** -/
theorem decodeDerInteger_eq_panic_iff {der : List UInt8} : decodeDerInteger der = .error .panic ↔
    ∃ bytes rest, ReadAs bytes [] ∧ der = bytes ++ 0 :: rest := by
  constructor
  · intro h
    have hne : decodeDerInteger der ≠ .error .error := by
      rw [h]
      decide
    obtain ⟨octets, value, rest, hoctets, rfl⟩ := exists_octets hne
    rw [decodeDerInteger_octets hoctets] at h
    obtain ⟨hzero, hhead⟩ := decodeDerContent_eq_panic_iff.1 h
    obtain ⟨rest, rfl⟩ := List.head?_eq_some_iff.1 hhead
    refine ⟨DER_INT :: (octets ++ []), rest, ?_, ?_⟩
    · exact ⟨value, ⟨octets, hoctets, rfl⟩, hzero.symm.trans (toNat_toUInt64 value)⟩
    · rw [List.append_nil, List.cons_append]
  · rintro ⟨bytes, rest, ⟨value, ⟨octets, hoctets, rfl⟩, hlen⟩, rfl⟩
    rw [List.append_nil, List.cons_append, decodeDerInteger_octets hoctets]
    exact decodeDerContent_eq_panic_iff.2 ⟨(toNat_toUInt64 value).trans hlen.symm, rfl⟩

/-! ## Keys -/

/-- What follows the start of a sequence. -/
def SequenceBytes (der body : List UInt8) : Prop :=
  ∃ octets value, LengthOctets octets value ∧ der = DER_SEQ :: (octets ++ body)

theorem decodeFromDer_of_sequence {der body : List UInt8} (h : SequenceBytes der body) :
    RsaKey.decodeFromDer der = decodeDerKey body := by
  obtain ⟨octets, value, hoctets, rfl⟩ := h
  rw [RsaKey.decodeFromDer, if_neg (not_not.2 rfl), decodeDerLength_append hoctets]

/-- There is a sequence, unless the key is not read at all. -/
theorem exists_sequence {der : List UInt8} (h : RsaKey.decodeFromDer der ≠ .error .error) :
    ∃ body, SequenceBytes der body := by
  cases der with
  | nil => exact absurd rfl h
  | cons first der =>
    rw [RsaKey.decodeFromDer] at h
    split_ifs at h with hfirst
    · exact absurd rfl h
    · have hlength : decodeDerLength der ≠ none := by
        intro hnone
        rw [hnone] at h
        exact h rfl
      obtain ⟨octets, value, body, hoctets, rfl⟩ := exists_lengthOctets hlength
      exact ⟨body, octets, value, hoctets, by rw [not_not.1 hfirst]⟩

theorem head?_of_readAs {bytes content : List UInt8} (h : ReadAs bytes content) (rest : List UInt8) :
    (bytes ++ rest).head? = some DER_INT := by
  obtain ⟨value, ⟨octets, hoctets, rfl⟩, hlen⟩ := h
  rfl

/-- **A key is read.** -/
theorem decodeDerKey_append {nBytes n eBytes e rest : List UInt8} (hn : ReadAs nBytes n)
    (he : ReadAs eBytes e) (hsign : e = [] → rest.head? ≠ some 0) (hlen : 0 < (withoutSign n).length) :
    decodeDerKey (nBytes ++ (eBytes ++ rest)) =
      .ok ⟨decode .BE n, decode .BE e, (withoutSign n).length, hlen⟩ := by
  have hnext : n = [] → (eBytes ++ rest).head? ≠ some 0 := by
    intro _
    rw [head?_of_readAs he]
    decide
  rw [decodeDerKey, decodeDerInteger_append hn hnext, Checked.ok_bind]
  dsimp only
  rw [decodeDerInteger_append he hsign, Checked.ok_bind]
  dsimp only
  rw [dif_pos hlen]
  simp only [naturalFromBytesBe_eq, decode_withoutSign]

/-- **Where a key is read from.** -/
theorem exists_of_decodeDerKey {body : List UInt8} {key : RsaKey} (h : decodeDerKey body = .ok key) :
    ∃ nBytes n eBytes e rest, ReadAs nBytes n ∧ ReadAs eBytes e ∧ body = nBytes ++ (eBytes ++ rest) ∧
      ∃ hlen : 0 < (withoutSign n).length,
        key = ⟨decode .BE n, decode .BE e, (withoutSign n).length, hlen⟩ := by
  have h' := h
  rw [decodeDerKey] at h'
  obtain ⟨⟨nContent, der⟩, hn, hrest⟩ := Checked.bind_eq_ok.1 h'
  obtain ⟨⟨eContent, der'⟩, he, hkey⟩ := Checked.bind_eq_ok.1 hrest
  obtain ⟨nBytes, n, rest, hreadN, rfl, hsignN⟩ := exists_readAs hn
  cases hn.symm.trans (decodeDerInteger_append hreadN hsignN)
  obtain ⟨eBytes, e, rest, hreadE, rfl, hsignE⟩ := exists_readAs he
  dsimp only at hkey
  split_ifs at hkey with hlen
  have hkey := decodeDerKey_append hreadN hreadE hsignE hlen
  exact ⟨nBytes, n, eBytes, e, rest, hreadN, hreadE, rfl, hlen, Except.ok.inj (h.symm.trans hkey)⟩

/-- **When a sign byte is taken from a length of zero**: from that of the modulus,
    or from that of the exponent. -/
theorem decodeDerKey_eq_panic_iff {body : List UInt8} : decodeDerKey body = .error .panic ↔
    ∃ bytes rest, ReadAs bytes [] ∧ (body = bytes ++ 0 :: rest ∨
      ∃ nBytes n, ReadAs nBytes n ∧ body = nBytes ++ (bytes ++ 0 :: rest)) := by
  constructor
  · intro h
    rw [decodeDerKey] at h
    match hn : decodeDerInteger body with
    | .error stop =>
      rw [hn, Checked.error_bind] at h
      cases h
      obtain ⟨bytes, rest, hread, hbody⟩ := decodeDerInteger_eq_panic_iff.1 hn
      exact ⟨bytes, rest, hread, Or.inl hbody⟩
    | .ok (nContent, der) =>
      obtain ⟨nBytes, n, rest, hreadN, rfl, hsignN⟩ := exists_readAs hn
      cases hn.symm.trans (decodeDerInteger_append hreadN hsignN)
      rw [hn, Checked.ok_bind] at h
      dsimp only at h
      match he : decodeDerInteger der with
      | .error stop =>
        rw [he, Checked.error_bind] at h
        cases h
        obtain ⟨bytes, rest, hread, rfl⟩ := decodeDerInteger_eq_panic_iff.1 he
        exact ⟨bytes, rest, hread, Or.inr ⟨nBytes, n, hreadN, rfl⟩⟩
      | .ok (eContent, der) =>
        rw [he, Checked.ok_bind] at h
        dsimp only at h
        split_ifs at h with hlen
        cases h
  · rintro ⟨bytes, rest, hread, hbody⟩
    have hpanic : decodeDerInteger (bytes ++ 0 :: rest) = .error .panic :=
      decodeDerInteger_eq_panic_iff.2 ⟨bytes, rest, hread, rfl⟩
    rcases hbody with rfl | ⟨nBytes, n, hreadN, rfl⟩
    · rw [decodeDerKey, hpanic, Checked.error_bind]
    · have hnext : n = [] → (bytes ++ 0 :: rest).head? ≠ some 0 := by
        intro _
        rw [head?_of_readAs hread]
        decide
      rw [decodeDerKey, decodeDerInteger_append hreadN hnext, Checked.ok_bind]
      dsimp only
      rw [hpanic, Checked.error_bind]

end Fsvfs.Crypto
