/-
  Memo tables.

  A table keeps computed values under keys of their inputs.  As long as it only
  holds values of inputs that have been seen (`Sound`), and inputs with one key
  have one value (`Coherent`), a hit is what would have been computed (`hit`).
-/
import Mathlib.Data.Set.Basic
import Mathlib.Logic.Function.Basic

namespace Fsvfs.Lib

/-- A table that holds at most one value under a key. -/
abbrev Memo (K V : Type) := K → Option V

namespace Memo
variable {K V I : Type} {key : I → K} {compute : I → Option V} {seen seen' : Set I}
  {memo : Memo K V}

def empty : Memo K V := fun _ => none

variable (key compute) in
/-- Every value in the table is the one of an input that has been seen. -/
def Sound (seen : Set I) (memo : Memo K V) : Prop :=
  ∀ k v, memo k = some v → ∃ i ∈ seen, key i = k ∧ compute i = some v

variable (key compute) in
/-- Inputs with one key have one value. -/
def Coherent (inputs : Set I) : Prop :=
  ∀ i ∈ inputs, ∀ j ∈ inputs, key i = key j → compute i = compute j

theorem sound_empty : Sound key compute seen empty := fun _ _ h => nomatch h

theorem Sound.mono (h : Sound key compute seen memo) (hsub : seen ⊆ seen') :
    Sound key compute seen' memo := by
  intro k v hv
  obtain ⟨i, hi, hik⟩ := h k v hv
  exact ⟨i, hsub hi, hik⟩

/-- **A hit is the value that would have been computed.** -/
theorem Sound.hit (h : Sound key compute seen memo) (hc : Coherent key compute seen) {i : I}
    (hi : i ∈ seen) {v : V} (hv : memo (key i) = some v) : compute i = some v := by
  obtain ⟨j, hj, hk, hj'⟩ := h _ v hv
  rw [hc i hi j hj hk.symm, hj']

variable [DecidableEq K]

/-- Putting a value under a key, in place of the one that was there. -/
def put (memo : Memo K V) (e : K × V) : Memo K V := Function.update memo e.1 (some e.2)

def puts (memo : Memo K V) (l : List (K × V)) : Memo K V := l.foldl put memo

theorem puts_eq_some {l : List (K × V)} {k : K} {v : V} (h : memo.puts l k = some v) :
    (k, v) ∈ l ∨ memo k = some v := by
  induction l generalizing memo with
  | nil => exact .inr h
  | cons e l ih =>
    rcases ih h with hl | hput
    · exact .inl (List.mem_cons_of_mem e hl)
    · rw [put, Function.update_apply] at hput
      split_ifs at hput with hk
      · cases hput
        subst hk
        exact .inl List.mem_cons_self
      · exact .inr hput

/-- Computed values may be put. -/
theorem Sound.puts (h : Sound key compute seen memo) {l : List (K × V)}
    (hl : ∀ e ∈ l, ∃ i ∈ seen, key i = e.1 ∧ compute i = some e.2) :
    Sound key compute seen (memo.puts l) := by
  intro k v hv
  rcases puts_eq_some hv with hmem | hmemo
  · exact hl _ hmem
  · exact h k v hmemo

end Memo

end Fsvfs.Lib
