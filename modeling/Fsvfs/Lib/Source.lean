/-
  Readers that may fail at any point, and be read again.

  `IoSource` is `io::Read` with the state that is left by every call.  A `Logged`
  source keeps what it has returned, so that results can be stated about it.

  `InOrder`: some items are found in a sequence from a position on, in its order.
-/
import Fsvfs.Lib.Io
import Mathlib.Tactic.Common

namespace Fsvfs.Lib

/-- `io::Read`, with its errors. -/
class IoSource (ε : outParam Type) (R : Type) where
  /-- A read into a buffer of some length. -/
  read : R → ℕ → Except ε (List UInt8) × R
  /-- The bytes that are appended to the vector, also before an error. -/
  readToEnd : R → List UInt8 × Except ε Unit × R
  length_le_of_read : ∀ (r : R) (n : ℕ) (bytes : List UInt8), (read r n).1 = .ok bytes → bytes.length ≤ n

/-- The same source, if it is not read again after an error. -/
@[reducible] def IoRead.ofSource (ε R : Type) [IoSource ε R] : IoRead ε R where
  read r n := match IoSource.read r n with
    | (.ok bytes, r) => .ok (bytes, r)
    | (.error e, _) => .error e
  readToEnd r := match IoSource.readToEnd r with
    | (bytes, .ok (), r) => .ok (bytes, r)
    | (_, .error e, _) => .error e

/-- A slice. -/
@[reducible] def IoSource.ofSlice (ε : Type) : IoSource ε (List UInt8) where
  read bytes n := (.ok (bytes.take n), bytes.drop n)
  readToEnd bytes := (bytes, .ok (), [])
  length_le_of_read bytes n taken h := by
    cases h
    exact List.length_take_le n bytes

/-- Everything up to the first error. -/
def concatResults {ε : Type} : List (Except ε (List UInt8)) → List UInt8 × Except ε Unit × List (Except ε (List UInt8))
  | [] => ([], .ok (), [])
  | .error e :: results => ([], .error e, results)
  | .ok bytes :: results => (bytes ++ (concatResults results).1, (concatResults results).2)

/-- A source that returns some results, one after another, and then ends. -/
@[reducible] def IoSource.ofResults (ε : Type) : IoSource ε (List (Except ε (List UInt8))) where
  read results n := match results with
    | [] => (.ok [], [])
    | .error e :: results => (.error e, results)
    | .ok bytes :: results =>
      (.ok (bytes.take n), if n < bytes.length then .ok (bytes.drop n) :: results else results)
  readToEnd := concatResults
  length_le_of_read results n taken h := by
    match results with
    | [] =>
      cases h
      exact Nat.zero_le n
    | .error e :: results => cases h
    | .ok bytes :: results =>
      cases h
      exact List.length_take_le n bytes

/-- A source with what it has returned. -/
structure Logged (R : Type) where
  inner : R
  taken : List UInt8

/-- A source that nothing has been read from. -/
def Logged.start {R : Type} (r : R) : Logged R := ⟨r, []⟩

instance {ε R : Type} [IoSource ε R] : IoSource ε (Logged R) where
  read r n := match IoSource.read r.inner n with
    | (.ok bytes, inner) => (.ok bytes, ⟨inner, r.taken ++ bytes⟩)
    | (.error e, inner) => (.error e, ⟨inner, r.taken⟩)
  readToEnd r := match IoSource.readToEnd r.inner with
    | (bytes, result, inner) => (bytes, result, ⟨inner, r.taken ++ bytes⟩)
  length_le_of_read r n bytes h := by
    have hlen := IoSource.length_le_of_read (ε := ε) r.inner n
    match hread : (IoSource.read r.inner n : Except ε _ × R) with
    | (.ok bytes', inner) =>
      rw [hread] at h hlen
      cases h
      exact hlen bytes rfl
    | (.error e, inner) =>
      rw [hread] at h
      cases h

namespace BufReader
variable {ε R : Type} [IoSource ε R] (reader : BufReader R)

/-- `fill_buf`. -/
def fill : Except ε (List UInt8) × BufReader R :=
  if reader.buffer = [] then match IoSource.read reader.inner reader.capacity with
    | (.ok bytes, inner) => (.ok bytes, ⟨reader.capacity, bytes, inner⟩)
    | (.error e, inner) => (.error e, ⟨reader.capacity, [], inner⟩)
  else (.ok reader.buffer, reader)

/-- `read_to_end`. -/
def drain : List UInt8 × Except ε Unit × BufReader R :=
  match IoSource.readToEnd reader.inner with
  | (bytes, result, inner) => (reader.buffer ++ bytes, result, ⟨reader.capacity, [], inner⟩)

end BufReader

/-! ## Order -/

section
variable {α : Type} {at_ : ℕ → α → Prop} {items items' : List α} {start stop stop' : ℕ}

/-- Some items are found in a sequence, in its order, from `start` on and before
    `stop`. -/
inductive InOrder (at_ : ℕ → α → Prop) : ℕ → List α → ℕ → Prop where
  | nil {start stop : ℕ} (h : start ≤ stop) : InOrder at_ start [] stop
  | cons {start pos stop : ℕ} {a : α} {items : List α} (h : start ≤ pos) (ha : at_ pos a)
    (hitems : InOrder at_ (pos + 1) items stop) : InOrder at_ start (a :: items) stop

namespace InOrder

theorem le (h : InOrder at_ start items stop) : start ≤ stop := by
  induction h with
  | nil h => exact h
  | cons h ha hitems ih => omega

theorem mono {at' : ℕ → α → Prop} (hmono : ∀ pos a, at_ pos a → at' pos a)
    (h : InOrder at_ start items stop) : InOrder at' start items stop := by
  induction h with
  | nil h => exact .nil h
  | cons h ha hitems ih => exact .cons h (hmono _ _ ha) ih

theorem start_le {start' : ℕ} (hle : start' ≤ start) (h : InOrder at_ start items stop) :
    InOrder at_ start' items stop := by
  cases h with
  | nil h => exact .nil (Nat.le_trans hle h)
  | cons h ha hitems => exact .cons (Nat.le_trans hle h) ha hitems

theorem le_stop (h : InOrder at_ start items stop) (hle : stop ≤ stop') : InOrder at_ start items stop' := by
  induction h with
  | nil h => exact .nil (Nat.le_trans h hle)
  | cons h ha hitems ih => exact .cons h ha (ih hle)

/-- Items one after another. -/
theorem append_iff : InOrder at_ start (items ++ items') stop ↔
    ∃ middle, InOrder at_ start items middle ∧ InOrder at_ middle items' stop := by
  induction items generalizing start with
  | nil =>
    constructor
    · intro h
      exact ⟨start, .nil (Nat.le_refl _), h⟩
    · rintro ⟨middle, h, h'⟩
      exact h'.start_le h.le
  | cons a items ih =>
    constructor
    · intro h
      cases h with
      | cons h ha hitems =>
        obtain ⟨middle, hitems, h'⟩ := ih.1 hitems
        exact ⟨middle, .cons h ha hitems, h'⟩
    · rintro ⟨middle, h, h'⟩
      cases h with
      | cons h ha hitems => exact .cons h ha (ih.2 ⟨middle, hitems, h'⟩)

/-- Items at consecutive positions. -/
theorem of_getElem? (h : ∀ (i : ℕ) (a : α), items[i]? = some a → at_ (start + i) a) :
    InOrder at_ start items (start + items.length) := by
  induction items generalizing start with
  | nil => exact .nil (Nat.le_refl _)
  | cons a items ih =>
    have hrest : InOrder at_ (start + 1) items (start + 1 + items.length) := by
      refine ih fun i b hb => ?_
      have hnext := h (i + 1) b hb
      rwa [Nat.add_comm i 1, ← Nat.add_assoc] at hnext
    refine .cons (Nat.le_refl _) (h 0 a rfl) (hrest.le_stop ?_)
    rw [List.length_cons]
    omega

end InOrder

end

end Fsvfs.Lib
