/-
  The dictionary of path names (`src/dvdbnd/dict.rs`).

  `by_bnd` is a hash map that is only asked for one key, and so a function.
  A map collected from pairs is the list of the pairs; the last pair of a key
  counts (`HashPaths.get`).
-/
import Fsvfs.Hash

namespace Fsvfs.Dvdbnd

/-- `Dictionary`. -/
structure Dictionary where
  byBnd : Str → Option Str

/-- The pairs a hash map is collected from. -/
abbrev HashPaths (H : Type) := List (H × Str)

/-- `HashMap::get`. -/
def HashPaths.get {H : Type} [DecidableEq H] (m : HashPaths H) (h : H) : Option Str :=
  m.reverse.lookup h

/-- The part of a line before its end, in `str::lines`. -/
def stripCr (line : Str) : Str := if line.getLast? = some '\x0d' then line.dropLast else line

/-- `str::lines`: a line ends in `"\n"` or `"\r\n"`, and the last one need not
    end. -/
def lines (contents : Str) : List Str :=
  let split := contents.splitOnP (· = '\n')
  split.dropLast.map stripCr ++ (split.getLast?.filter (· ≠ [])).toList

namespace Dictionary
variable (dict : Dictionary)

/-- `Dictionary::hash_path_iter`. -/
def hashPathIter {H : Type} (bndName : Str) (f : Str → Option H) : HashPaths H :=
  (((dict.byBnd bndName.lower).map lines).getD []).filterMap fun path =>
    (f path).map fun hash => (hash, path)

/-- `Dictionary::hash_paths32`. -/
def hashPaths32 (bndName : Str) : HashPaths UInt32 := dict.hashPathIter bndName hashPath32

/-- `Dictionary::hash_paths64`. -/
def hashPaths64 (bndName : Str) : HashPaths UInt64 := dict.hashPathIter bndName hashPath64

end Dictionary

example : lines "a\x0d\nb\n\nc".toList = ["a".toList, "b".toList, [], "c".toList] := by decide

/-- **The last line with a hash counts.** -/
theorem get_filterMap {H : Type} [DecidableEq H] (f : Str → Option H) (h : H) (l : List Str) :
    HashPaths.get (l.filterMap fun path => (f path).map fun hash => (hash, path)) h =
      (l.filter fun path => f path = some h).getLast? := by
  induction l with
  | nil => rfl
  | cons path l ih =>
    rw [HashPaths.get] at ih ⊢
    rcases hf : f path with _ | hash
    · simp [hf, ih]
    · rw [List.filterMap_cons, hf, Option.map_some]
      simp only [List.reverse_cons, List.lookup_append, ih, List.filter_cons, hf,
        Option.some.injEq, decide_eq_true_eq]
      by_cases hh : hash = h
      · rw [hh, List.lookup_cons_self, if_pos rfl, List.getLast?_cons]
        rcases (l.filter fun path => f path = some h).getLast? with _ | last <;> rfl
      · rw [if_neg hh, List.lookup_cons, beq_false_of_ne (Ne.symm hh)]
        exact Option.or_none

end Fsvfs.Dvdbnd
