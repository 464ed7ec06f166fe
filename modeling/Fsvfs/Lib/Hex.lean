/-
  Hexadecimal numbers with padding.

  * `unhex_pad`: a padded number can be read back, whatever the padding;
  * `parseHex_padLeft`: padded with zeros, it is a number in hexadecimal itself,
    and padded with spaces it is not (`parseHex_spaces`).
-/
import Mathlib.Algebra.Order.Ring.Nat
import Mathlib.Data.List.Basic
import Mathlib.Tactic.Common

namespace Fsvfs.Lib

/-- A number in lowercase hexadecimal. -/
def hex (n : ℕ) : List Char := Nat.toDigits 16 n

/-- `s` on the right of a field of width `w`. -/
def padLeft (w : ℕ) (c : Char) (s : List Char) : List Char := List.replicate (w - s.length) c ++ s

/-- The value of a digit; a space counts as zero. -/
def hexValue (c : Char) : ℕ :=
  if 'a' ≤ c ∧ c ≤ 'f' then c.toNat - 'a'.toNat + 10
  else if '0' ≤ c ∧ c ≤ '9' then c.toNat - '0'.toNat else 0

def unhex (s : List Char) : ℕ := s.foldl (fun n c => 16 * n + hexValue c) 0

theorem hexValue_digitChar {d : ℕ} (h : d < 16) : hexValue (Nat.digitChar d) = d := by
  revert h
  revert d
  decide

theorem unhex_append (s t : List Char) :
    unhex (s ++ t) = t.foldl (fun n c => 16 * n + hexValue c) (unhex s) := by
  rw [unhex, List.foldl_append]
  rfl

/-- **A number is read back.** -/
theorem unhex_hex (n : ℕ) : unhex (hex n) = n := by
  induction n using Nat.strongRecOn with
  | ind n ih =>
    rw [hex, Nat.toDigits_eq_if (by omega)]
    split_ifs with h
    · rw [unhex, List.foldl_cons, List.foldl_nil, hexValue_digitChar h]
      omega
    · have hdiv := ih (n / 16) (by omega)
      rw [hex] at hdiv
      rw [unhex_append, hdiv, List.foldl_cons, List.foldl_nil,
        hexValue_digitChar (Nat.mod_lt _ (by omega))]
      omega

/-- **Padding is ignored.** -/
theorem unhex_pad {c : Char} (hc : hexValue c = 0) (w n : ℕ) : unhex (padLeft w c (hex n)) = n := by
  have hpad : ∀ k, unhex (List.replicate k c) = 0 := by
    intro k
    induction k with
    | zero => rfl
    | succ k ih => rw [List.replicate_succ', unhex_append, ih, List.foldl_cons, List.foldl_nil, hc]
  have h := unhex_hex n
  rw [unhex] at h
  rw [padLeft, unhex_append, hpad]
  exact h

theorem length_padLeft {w : ℕ} {c : Char} {s : List Char} :
    (padLeft w c s).length = max w s.length := by
  rw [padLeft, List.length_append, List.length_replicate]
  omega

/-- The characters of a number. -/
theorem mem_hex {n : ℕ} {x : Char} (h : x ∈ hex n) : ∃ d < 16, x = Nat.digitChar d := by
  induction n using Nat.strongRecOn with
  | ind n ih =>
    rw [hex, Nat.toDigits_eq_if (by omega)] at h
    split_ifs at h with hn
    · rw [List.mem_singleton] at h
      exact ⟨n, hn, h⟩
    · rcases List.mem_append.1 h with h | h
      · exact ih (n / 16) (by omega) h
      · exact ⟨n % 16, Nat.mod_lt _ (by omega), List.mem_singleton.1 h⟩

theorem mem_padLeft {w n : ℕ} {c x : Char} (h : x ∈ padLeft w c (hex n)) :
    x = c ∨ ∃ d < 16, x = Nat.digitChar d := by
  rcases List.mem_append.1 h with h | h
  · exact .inl (List.eq_of_mem_replicate h)
  · exact .inr (mem_hex h)

theorem length_hex_le_iff {n k : ℕ} (hk : 0 < k) : (hex n).length ≤ k ↔ n < 16 ^ k :=
  Nat.length_toDigits_le_iff (by omega) hk

theorem hex_ne_nil (n : ℕ) : hex n ≠ [] := by
  intro h
  have hlen := (length_hex_le_iff (n := n) Nat.one_pos).1 (by simp [h])
  rw [hex, Nat.toDigits_eq_if (by omega), if_pos (by omega)] at h
  cases h

/-! ## Strict reading -/

def isHexDigit (c : Char) : Bool := decide ('a' ≤ c ∧ c ≤ 'f' ∨ '0' ≤ c ∧ c ≤ '9')

/-- A number in lowercase hexadecimal digits, and nothing else. -/
def parseHex (s : List Char) : Option ℕ :=
  if s ≠ [] ∧ s.all isHexDigit then some (unhex s) else none

theorem isHexDigit_digitChar {d : ℕ} (h : d < 16) : isHexDigit (Nat.digitChar d) = true := by
  revert h
  revert d
  decide

/-- **Padded with zeros, a number is in hexadecimal.** -/
theorem parseHex_padLeft (w n : ℕ) : parseHex (padLeft w '0' (hex n)) = some n := by
  have hne : padLeft w '0' (hex n) ≠ [] := by
    intro h
    exact hex_ne_nil n (List.append_eq_nil_iff.1 h).2
  have hall : (padLeft w '0' (hex n)).all isHexDigit = true := by
    rw [List.all_eq_true]
    intro x hx
    rcases mem_padLeft hx with rfl | ⟨d, hd, rfl⟩
    · decide
    · exact isHexDigit_digitChar hd
  rw [parseHex, if_pos ⟨hne, hall⟩, unhex_pad (by decide)]

/-- Padded with a space, it is not. -/
theorem parseHex_spaces {w n : ℕ} (h : (hex n).length < w) :
    parseHex (padLeft w ' ' (hex n)) = none := by
  refine if_neg fun hall => ?_
  have hmem : ' ' ∈ padLeft w ' ' (hex n) :=
    List.mem_append_left _ (List.mem_replicate.2 ⟨by omega, rfl⟩)
  have hdigit := List.all_eq_true.1 hall.2 ' ' hmem
  revert hdigit
  decide

/-! ## The first digits -/

theorem padLeft_of_le {w : ℕ} {c : Char} {s : List Char} (h : w ≤ s.length) : padLeft w c s = s := by
  rw [padLeft, Nat.sub_eq_zero_of_le h]
  rfl

/-- The last digit behind the padded others. -/
theorem padLeft_succ {w : ℕ} (hw : 0 < w) (n : ℕ) : padLeft (w + 1) '0' (hex n) =
    padLeft w '0' (hex (n / 16)) ++ [Nat.digitChar (n % 16)] := by
  rw [hex, Nat.toDigits_eq_if (by omega)]
  by_cases hn : n < 16
  · obtain ⟨v, rfl⟩ := Nat.exists_eq_succ_of_ne_zero (Nat.ne_of_gt hw)
    rw [if_pos hn, Nat.div_eq_of_lt hn, Nat.mod_eq_of_lt hn]
    have hzero : hex 0 = ['0'] := rfl
    simp only [padLeft, hzero, List.length_singleton, Nat.add_sub_cancel, Nat.succ_eq_add_one]
    rw [← List.replicate_succ']
  · rw [if_neg hn, padLeft, List.length_append, List.length_singleton, Nat.add_sub_add_right,
      ← List.append_assoc]
    rfl

/-- **The first two digits** of a number in a field that it fits in. -/
theorem take_two_padLeft : ∀ (k : ℕ) {n : ℕ}, n < 16 ^ (k + 2) →
    (padLeft (k + 2) '0' (hex n)).take 2 = padLeft 2 '0' (hex (n / 16 ^ k))
  | 0, n, h => by
    rw [Nat.pow_zero, Nat.div_one, List.take_of_length_le]
    rw [length_padLeft]
    have := (length_hex_le_iff (n := n) (k := 2) (by omega)).2 h
    omega
  | k + 1, n, h => by
    have hdiv : n / 16 < 16 ^ (k + 2) := by
      rw [Nat.div_lt_iff_lt_mul (by omega), ← Nat.pow_succ]
      exact h
    rw [padLeft_succ (by omega), List.take_append_of_le_length, take_two_padLeft k hdiv,
      Nat.div_div_eq_div_mul, Nat.pow_succ, Nat.mul_comm]
    rw [length_padLeft]
    omega

end Fsvfs.Lib
