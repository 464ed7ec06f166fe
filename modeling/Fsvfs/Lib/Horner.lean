/-
  Horner's rule, in chunks.

  `horner` evaluates digits one by one.  A chunk of `n` digits can be taken at
  once: the value so far times the `n`-th power of the base, and the dot product
  of the digits with the descending powers (`dot_descending`).
-/
import Mathlib.Algebra.Ring.Defs
import Mathlib.Tactic.Ring

namespace Fsvfs.Lib

variable {R : Type*} [CommSemiring R] (p : R)

/-- The digits, one by one, after some initial value. -/
def horner (init : R) (digits : List R) : R := digits.foldl (fun value a => value * p + a) init

@[simp] theorem horner_nil (init : R) : horner p init [] = init := rfl

@[simp] theorem horner_cons (init a : R) (digits : List R) :
    horner p init (a :: digits) = horner p (init * p + a) digits := rfl

theorem horner_append (init : R) (digits more : List R) :
    horner p init (digits ++ more) = horner p (horner p init digits) more :=
  List.foldl_append

/-- The initial value is moved up by all digits. -/
theorem horner_eq (init : R) (digits : List R) :
    horner p init digits = init * p ^ digits.length + horner p 0 digits := by
  induction digits generalizing init with
  | nil => simp
  | cons a digits ih =>
    rw [horner_cons, horner_cons, ih, ih (0 * p + a), List.length_cons]
    ring

theorem horner_replicate_zero (init : R) (n : ℕ) :
    horner p init (List.replicate n 0) = init * p ^ n := by
  induction n generalizing init with
  | zero => simp
  | succ n ih =>
    rw [List.replicate_succ, horner_cons, ih]
    ring

/-- The powers from the `k`-th one down. -/
def descending : ℕ → List R
  | 0 => [1]
  | k + 1 => p ^ (k + 1) :: descending k

/-- **A chunk at once.** -/
theorem dot_descending {k : ℕ} {digits : List R} (h : digits.length = k + 1) (init : R) :
    ((digits.zip (descending p k)).foldl (fun dot e => dot + e.1 * e.2) init) =
      init + horner p 0 digits := by
  induction k generalizing digits init with
  | zero =>
    obtain ⟨a, rfl⟩ := List.length_eq_one_iff.1 h
    simp [descending]
  | succ k ih =>
    obtain ⟨a, digits, rfl⟩ := List.exists_cons_of_length_eq_add_one h
    have hlen : digits.length = k + 1 := Nat.succ.inj h
    rw [descending, List.zip_cons_cons, List.foldl_cons, ih hlen, horner_cons, horner_eq p (0 * p + a),
      hlen]
    ring

end Fsvfs.Lib
