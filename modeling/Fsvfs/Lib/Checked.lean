/-
  Programs that may stop.

  A program returns a value, or stops: because of an error it returns
  (`Stop.error`), or because it panics (`Stop.panic`), as checked arithmetic and
  slices do outside of their bounds.
-/
import Mathlib.Algebra.Order.Ring.Nat
import Mathlib.Data.Nat.Notation
import Mathlib.Tactic.Common

namespace Fsvfs.Lib

/-- How a program stops. -/
inductive Stop where
  | error
  | panic
deriving DecidableEq, Repr

abbrev Checked (α : Type) := Except Stop α

namespace Checked
variable {α β : Type}

/-- `a + b` in `w` bits. -/
def add (w a b : ℕ) : Checked ℕ := if a + b < 2 ^ w then .ok (a + b) else .error .panic

/-- `a - b`, which must not be negative. -/
def sub (a b : ℕ) : Checked ℕ := if b ≤ a then .ok (a - b) else .error .panic

/-- `assert!`. -/
def assert (p : Prop) [Decidable p] : Checked Unit := if p then .ok () else .error .panic

/-- `Option::expect`. -/
def expect : Option α → Checked α
  | some a => .ok a
  | none => .error .panic

/-- `&l[i..j]`. -/
def slice (l : List α) (i j : ℕ) : Checked (List α) :=
  if i ≤ j ∧ j ≤ l.length then .ok ((l.take j).drop i) else .error .panic

/-- `l[i..j].copy_from_slice(src)`: the slice `l` afterwards. -/
def copyFromSlice (l : List α) (i j : ℕ) (src : List α) : Checked (List α) :=
  if i ≤ j ∧ j ≤ l.length ∧ src.length = j - i then .ok (l.take i ++ src ++ l.drop j)
  else .error .panic

theorem add_of_lt {w a b : ℕ} (h : a + b < 2 ^ w) : add w a b = .ok (a + b) := if_pos h

theorem add_of_not_lt {w a b : ℕ} (h : ¬ a + b < 2 ^ w) : add w a b = .error .panic := if_neg h

theorem sub_of_le {a b : ℕ} (h : b ≤ a) : sub a b = .ok (a - b) := if_pos h

theorem assert_of {p : Prop} [Decidable p] (h : p) : assert p = .ok () := if_pos h

theorem slice_of_le {l : List α} {i j : ℕ} (hij : i ≤ j) (hj : j ≤ l.length) :
    slice l i j = .ok ((l.take j).drop i) := if_pos ⟨hij, hj⟩

theorem copyFromSlice_of_le {l src : List α} {i j : ℕ} (hij : i ≤ j) (hj : j ≤ l.length)
    (hsrc : src.length = j - i) : copyFromSlice l i j src = .ok (l.take i ++ src ++ l.drop j) :=
  if_pos ⟨hij, hj, hsrc⟩

/-- Filling a buffer from the left. -/
theorem copyFromSlice_replicate {xs src : List α} {i j n : ℕ} {a : α} (hxs : xs.length = i)
    (hij : i ≤ j) (hj : j ≤ i + n) (hsrc : src.length = j - i) :
    copyFromSlice (xs ++ List.replicate n a) i j src =
      .ok (xs ++ src ++ List.replicate (i + n - j) a) := by
  rw [copyFromSlice_of_le hij (by simp; omega) hsrc, List.take_left' hxs, List.drop_append,
    List.drop_of_length_le (by omega), List.drop_replicate, List.nil_append, hxs]
  congr 3
  omega

@[simp] theorem ok_bind (a : α) (f : α → Checked β) : (Except.ok a >>= f) = f a := rfl

@[simp] theorem error_bind (s : Stop) (f : α → Checked β) : (Except.error s >>= f) = .error s := rfl

theorem bind_eq_ok {x : Checked α} {f : α → Checked β} {b : β} :
    (x >>= f) = .ok b ↔ ∃ a, x = .ok a ∧ f a = .ok b := by
  rcases x with s | a <;> simp

theorem length_of_copyFromSlice {l l' src : List α} {i j : ℕ} (h : copyFromSlice l i j src = .ok l') :
    l'.length = l.length := by
  rw [copyFromSlice] at h
  split_ifs at h with hij
  cases h
  simp only [List.length_append, List.length_take, List.length_drop]
  omega

@[simp] theorem pure_eq (a : α) : (pure a : Checked α) = .ok a := rfl

end Checked

end Fsvfs.Lib
