/-
  What path hashes depend on (`src/hash.rs`).

  `nf` is the normal form of a path: without its device and one leading
  separator, in lowercase and with `'/'` for `'\\'`.  The bytes that are hashed
  are those of the normal form (`map_normalize_bytes`), but a path of one ASCII
  character is taken for an empty one if it has no leading separator (`Lone`).

  * `hashPath_eq`: any other path has the hash of its normal form;
  * `hashPath_congr_iff`: paths with one normal form have the same hashes, unless
    one of them is such a path and the other is not.
-/
import Fsvfs.Hash.Mad

namespace Fsvfs

open MadHash

/-- How a character is hashed. -/
def hashChar (c : Char) : Char := if c = '\\' then '/' else c.toLower

/-- A path without one leading separator. -/
def withoutSeparator : Str → Str
  | [] => []
  | c :: rest => if c = '/' ∨ c = '\\' then rest else c :: rest

/-- The normal form of a path. -/
def nf (s : Str) : Str := (withoutSeparator (withoutRoot s)).map hashChar

/-- Without its device, the path is one ASCII character that is not a
    separator. -/
def Lone (s : Str) : Prop := match withoutRoot s with
  | [c] => c.toNat ≤ 0x7f ∧ c ≠ '/' ∧ c ≠ '\\'
  | _ => False

instance (s : Str) : Decidable (Lone s) := by
  unfold Lone
  split <;> infer_instance

/-! ## UTF-8 -/

theorem encode_of_ascii {c : Char} (hc : c.toNat ≤ 0x7f) :
    String.utf8EncodeChar c = [UInt8.ofNat c.toNat] := if_pos hc

/-- Other characters have bytes from `0x80` on, and at least two. -/
theorem encode_of_not_ascii {c : Char} (hc : ¬ c.toNat ≤ 0x7f) :
    (∀ b ∈ String.utf8EncodeChar c, 0x80 ≤ b) ∧ 2 ≤ (String.utf8EncodeChar c).length := by
  have hbyte : ∀ n : ℕ, 0x80 ≤ n → n < 0x100 → (0x80 : UInt8) ≤ UInt8.ofNat n := by
    intro n hle hlt
    rw [UInt8.le_iff_toNat_le, UInt8.toNat_ofNat', Nat.mod_eq_of_lt hlt]
    exact hle
  have hval : ¬ c.val.toNat ≤ 0x7f := hc
  rw [String.utf8EncodeChar, if_neg hval]
  split_ifs
  all_goals
    refine ⟨fun b hb => ?_, by simp⟩
    simp only [List.mem_cons, List.not_mem_nil, or_false] at hb
  · rcases hb with rfl | rfl <;> exact hbyte _ (by omega) (by omega)
  · rcases hb with rfl | rfl | rfl <;> exact hbyte _ (by omega) (by omega)
  · rcases hb with rfl | rfl | rfl | rfl <;> exact hbyte _ (by omega) (by omega)

theorem hashChar_of_not_ascii {c : Char} (hc : ¬ c.toNat ≤ 0x7f) : hashChar c = c := by
  have hne : c ≠ '\\' := by
    rintro rfl
    exact hc (by decide)
  have hupper : c.isUpper = false := by
    refine decide_eq_false fun hle => hc ?_
    have hle' : c.toNat ≤ 'Z'.toNat := hle.2
    exact hle'.trans (by decide)
  rw [hashChar, if_neg hne, toLower_of_not_isUpper hupper]

/-- The normal form of a character is in normal form. -/
theorem hashChar_hashChar (c : Char) : hashChar (hashChar c) = hashChar c := by
  by_cases hc : c.toNat ≤ 0x7f
  · have hall : ∀ v : Fin 128, hashChar (hashChar (Char.ofNat v)) = hashChar (Char.ofNat v) := by
      decide
    have hv := hall ⟨c.toNat, Nat.lt_succ_of_le hc⟩
    rwa [Char.ofNat_toNat] at hv
  · rw [hashChar_of_not_ascii hc, hashChar_of_not_ascii hc]

/-- Bytes are put in normal form as characters are. -/
theorem map_normalize_encode (c : Char) :
    (String.utf8EncodeChar c).map MadHash.normalize = String.utf8EncodeChar (hashChar c) := by
  by_cases hc : c.toNat ≤ 0x7f
  · have hall : ∀ v : Fin 128, (String.utf8EncodeChar (Char.ofNat v)).map MadHash.normalize =
        String.utf8EncodeChar (hashChar (Char.ofNat v)) := by decide
    have hv := hall ⟨c.toNat, Nat.lt_succ_of_le hc⟩
    rwa [Char.ofNat_toNat] at hv
  · rw [hashChar_of_not_ascii hc]
    refine (List.map_congr_left fun b hb => ?_).trans (List.map_id _)
    have hle := (encode_of_not_ascii hc).1 b hb
    rw [UInt8.le_iff_toNat_le, show (0x80 : UInt8).toNat = 128 from rfl] at hle
    have hupper : ¬ (0x41 ≤ b ∧ b ≤ 0x5a) := by
      rintro ⟨-, h⟩
      rw [UInt8.le_iff_toNat_le, show (0x5a : UInt8).toNat = 90 from rfl] at h
      omega
    have hback : b ≠ 0x5c := by
      rintro rfl
      exact absurd hle (by decide)
    rw [MadHash.normalize, if_neg hupper, if_neg hback]
    rfl

theorem map_normalize_bytes (s : Str) : s.bytes.map MadHash.normalize = Str.bytes (s.map hashChar) := by
  induction s with
  | nil => rfl
  | cons c s ih =>
    show ((String.utf8EncodeChar c) ++ Str.bytes s).map MadHash.normalize =
      String.utf8EncodeChar (hashChar c) ++ Str.bytes (s.map hashChar)
    rw [List.map_append, map_normalize_encode, ih]

/-! ## Hashes -/

section
variable {T : Type} [MadHash T]

/-- The hash depends on the bytes in normal form. -/
theorem plain_congr {a b : List UInt8} (h : a.map MadHash.normalize = b.map MadHash.normalize) (init : T) :
    plain init a = plain init b := by
  have hplain : ∀ bytes : List UInt8, plain init bytes =
      (bytes.map MadHash.normalize).foldl (fun hash b => hash * PRIME + ofU8 b) init := fun bytes => by
    rw [List.foldl_map]
    rfl
  rw [hplain, hplain, h]

end

/-- Every character has a byte. -/
theorem bytes_eq_nil_iff (s : Str) : s.bytes = [] ↔ s = [] := by
  constructor
  · intro h
    cases s with
    | nil => rfl
    | cons c s =>
      have hnil : String.utf8EncodeChar c = [] := (List.append_eq_nil_iff.1 h).1
      have hlen : (String.utf8EncodeChar c).length = 0 := List.length_eq_zero_iff.2 hnil
      rw [String.length_utf8EncodeChar] at hlen
      exact absurd (Char.utf8Size_pos c) (hlen ▸ Nat.lt_irrefl 0)
  · rintro rfl
    rfl

/-- ASCII characters are told apart by their bytes. -/
theorem ofNat_eq_iff {c d : Char} (hc : c.toNat ≤ 0x7f) (hd : d.toNat ≤ 0x7f) :
    UInt8.ofNat c.toNat = UInt8.ofNat d.toNat ↔ c = d := by
  constructor
  · intro h
    have hnat := congrArg UInt8.toNat h
    rw [UInt8.toNat_ofNat', UInt8.toNat_ofNat', Nat.mod_eq_of_lt (by omega),
      Nat.mod_eq_of_lt (by omega)] at hnat
    exact Char.toNat_inj.1 hnat
  · rintro rfl
    rfl

/-- One byte is not enough if it is not a separator. -/
theorem suffix_of_ascii {c : Char} (hc : c.toNat ≤ 0x7f) (rest : Str) :
    Str.bytes (c :: rest) = UInt8.ofNat c.toNat :: Str.bytes rest ∧
      (UInt8.ofNat c.toNat = 0x2f ∨ UInt8.ofNat c.toNat = 0x5c ↔ c = '/' ∨ c = '\\') := by
  constructor
  · show String.utf8EncodeChar c ++ Str.bytes rest = _
    rw [encode_of_ascii hc, List.singleton_append]
  · exact or_congr (ofNat_eq_iff (d := '/') hc (by decide)) (ofNat_eq_iff (d := '\\') hc (by decide))

theorem suffix_of_not_ascii {c : Char} (hc : ¬ c.toNat ≤ 0x7f) (rest : Str) :
    (∃ first next more, Str.bytes (c :: rest) = first :: next :: more ∧
      ¬ (first = 0x2f ∨ first = 0x5c)) ∧ ¬ (c = '/' ∨ c = '\\') := by
  obtain ⟨hhigh, hlen⟩ := encode_of_not_ascii hc
  have hbytes : Str.bytes (c :: rest) = String.utf8EncodeChar c ++ Str.bytes rest := rfl
  constructor
  · match he : String.utf8EncodeChar c with
    | [] | [_] =>
      rw [he] at hlen
      simp at hlen
    | first :: next :: more =>
      have hfirst : 0x80 ≤ first := hhigh first (by rw [he]; exact List.mem_cons_self ..)
      refine ⟨first, next, more ++ Str.bytes rest, by rw [hbytes, he]; rfl, ?_⟩
      rintro (rfl | rfl) <;> exact absurd hfirst (by decide)
  · rintro (rfl | rfl) <;> exact hc (by decide)

theorem lone_iff (s : Str) :
    Lone s ↔ ∃ c, withoutRoot s = [c] ∧ c.toNat ≤ 0x7f ∧ ¬ (c = '/' ∨ c = '\\') := by
  unfold Lone
  constructor
  · intro h
    split at h
    · rename_i c hc
      exact ⟨c, hc, h.1, not_or.2 h.2⟩
    · exact h.elim
  · rintro ⟨c, hc, hle, hne⟩
    rw [hc]
    exact ⟨hle, not_or.1 hne⟩

/-- A path of one character that is not a separator has a normal form. -/
theorem nf_ne_nil_of_lone {s : Str} (h : Lone s) : nf s ≠ [] := by
  obtain ⟨c, hc, -, hne⟩ := (lone_iff s).1 h
  rw [nf, hc, withoutSeparator, if_neg hne]
  exact List.cons_ne_nil _ _

/-- **The bytes that are hashed**: those of the path without its device and its
    separator, unless it is empty or `Lone`. -/
theorem normalizeSuffixAsBytes_eq (s : Str) : normalizeSuffixAsBytes s =
    if nf s = [] ∨ Lone s then none else some (Str.bytes (withoutSeparator (withoutRoot s))) := by
  have hnil : nf s = [] ↔ withoutSeparator (withoutRoot s) = [] := List.map_eq_nil_iff
  have hlone := lone_iff s
  rw [normalizeSuffixAsBytes]
  match hw : withoutRoot s with
  | [] =>
    rw [hw] at hnil
    exact (if_pos (Or.inl (hnil.2 rfl))).symm
  | c :: rest =>
    rw [hw] at hnil hlone
    by_cases hc : c.toNat ≤ 0x7f
    · obtain ⟨hbytes, hsep⟩ := suffix_of_ascii hc rest
      rw [hbytes]
      simp only [hsep, withoutSeparator, bytes_eq_nil_iff]
      by_cases hs : c = '/' ∨ c = '\\'
      · rw [withoutSeparator, if_pos hs] at hnil
        rw [if_pos hs, if_pos hs]
        refine if_congr ⟨fun hr => Or.inl (hnil.2 hr), ?_⟩ rfl rfl
        rintro (hr | h)
        · exact hnil.1 hr
        · obtain ⟨d, hd, -, hne⟩ := hlone.1 h
          exact absurd ((List.cons.inj hd).1 ▸ hs) hne
      · rw [withoutSeparator, if_neg hs] at hnil
        rw [if_neg hs, if_neg hs, hbytes]
        refine if_congr ⟨fun hr => Or.inr (hlone.2 ⟨c, by rw [hr], hc, hs⟩), ?_⟩ rfl rfl
        rintro (hr | h)
        · exact absurd (hnil.1 hr) (List.cons_ne_nil _ _)
        · obtain ⟨d, hd, -⟩ := hlone.1 h
          exact (List.cons.inj hd).2
    · obtain ⟨⟨first, next, more, hbytes, hsep⟩, hs⟩ := suffix_of_not_ascii hc rest
      rw [withoutSeparator, if_neg hs] at hnil
      rw [hbytes]
      dsimp only
      rw [if_neg (List.cons_ne_nil _ _), if_neg hsep, withoutSeparator, if_neg hs, hbytes, if_neg]
      rintro (hr | h)
      · exact absurd (hnil.1 hr) (List.cons_ne_nil _ _)
      · obtain ⟨d, hd, hle, -⟩ := hlone.1 h
        exact hc ((List.cons.inj hd).1 ▸ hle)

/-- The hash of any other path is that of its normal form. -/
theorem hashPath_eq (s : Str) :
    hashPath32 s = (if nf s = [] ∨ Lone s then none
      else some (madHash32 (madHash32 0 [0x2f]) (Str.bytes (nf s)))) ∧
    hashPath64 s = if nf s = [] ∨ Lone s then none
      else some (madHash64 (madHash64 0 [0x2f]) (Str.bytes (nf s))) := by
  have hbytes : (Str.bytes (withoutSeparator (withoutRoot s))).map MadHash.normalize =
      (Str.bytes (nf s)).map MadHash.normalize := by
    rw [map_normalize_bytes, map_normalize_bytes, nf, List.map_map]
    refine congrArg _ (List.map_congr_left fun c _ => ?_)
    exact (hashChar_hashChar c).symm
  rw [hashPath32, hashPath64, normalizeSuffixAsBytes_eq]
  split_ifs
  · exact ⟨rfl, rfl⟩
  · rw [Option.map_some, Option.map_some, madHash_eq_madHash32 (by decide),
      madHash_eq_madHash64 (by decide) (by decide)]
    exact ⟨congrArg some (plain_congr hbytes _), congrArg some (plain_congr hbytes _)⟩

/-- A path that is `Lone` has no hash, nor has an empty one. -/
theorem hashPath_eq_none_iff (s : Str) : (hashPath32 s = none ↔ nf s = [] ∨ Lone s) ∧
    (hashPath64 s = none ↔ nf s = [] ∨ Lone s) := by
  obtain ⟨h32, h64⟩ := hashPath_eq s
  rw [h32, h64]
  by_cases h : nf s = [] ∨ Lone s
  · rw [if_pos h, if_pos h]
    exact ⟨iff_of_true rfl h, iff_of_true rfl h⟩
  · rw [if_neg h, if_neg h]
    exact ⟨iff_of_false (Option.some_ne_none _) h, iff_of_false (Option.some_ne_none _) h⟩

/-- Of two paths with one normal form and one hash, both are `Lone` or neither is. -/
theorem lone_of_hashPath_eq {s t : Str} (hnf : nf s = nf t) (h : hashPath32 s = hashPath32 t)
    (hs : Lone s) : Lone t := by
  have hnone : hashPath32 t = none := h ▸ (hashPath_eq_none_iff s).1.2 (Or.inr hs)
  rcases (hashPath_eq_none_iff t).1.1 hnone with hnil | ht
  · exact absurd (hnf.trans hnil) (nf_ne_nil_of_lone hs)
  · exact ht

/-- **Path hashes depend on the normal form.**  Paths with one normal form have
    the same hashes exactly if both or neither of them are `Lone`; a path has no
    hash exactly if its normal form is empty, unless it is `Lone`. -/
theorem hashPath_congr_iff (s t : Str) :
    ((nf s = nf t → hashPath32 s = hashPath32 t ∧ hashPath64 s = hashPath64 t) ↔
      (nf s = nf t → (Lone s ↔ Lone t))) ∧
    ((hashPath32 s = none ↔ nf s = []) ∧ (hashPath64 s = none ↔ nf s = []) ↔ ¬ Lone s) := by
  constructor
  · refine forall_congr' fun hnf => ⟨?_, ?_⟩
    · rintro ⟨h32, -⟩
      exact ⟨lone_of_hashPath_eq hnf h32, lone_of_hashPath_eq hnf.symm h32.symm⟩
    · intro hlone
      obtain ⟨hs32, hs64⟩ := hashPath_eq s
      obtain ⟨ht32, ht64⟩ := hashPath_eq t
      have hcond : nf s = [] ∨ Lone s ↔ nf t = [] ∨ Lone t := or_congr (by rw [hnf]) hlone
      rw [hs32, hs64, ht32, ht64, hnf]
      rw [hnf] at hcond
      exact ⟨if_congr hcond rfl rfl, if_congr hcond rfl rfl⟩
  · obtain ⟨h32, h64⟩ := hashPath_eq_none_iff s
    rw [h32, h64]
    constructor
    · rintro ⟨h, -⟩ hlone
      exact nf_ne_nil_of_lone hlone (h.1 (Or.inr hlone))
    · intro hlone
      have hiff : nf s = [] ∨ Lone s ↔ nf s = [] := or_iff_left hlone
      exact ⟨hiff, hiff⟩

/-- The path `a` is `Lone`, and `/a` is not. -/
theorem not_hashPath_congr : nf "a".toList = nf "/a".toList ∧
    hashPath32 "a".toList = none ∧ hashPath32 "/a".toList ≠ none ∧
    hashPath64 "a".toList = none ∧ hashPath64 "/a".toList ≠ none := by
  decide +kernel

end Fsvfs
