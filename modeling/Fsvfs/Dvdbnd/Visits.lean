/-
  The visits of a ring of buffers.

  The buffers of a stream are pushed one by one, and then the ring is finished.  But
  for the first push, each is followed by a visit of the current buffer, which may
  change it in place.  A push loses what its slot held.

  * `visits_of_view`: the visits from a ring with a view on;
  * `visits_default`: the visits of a new ring.
-/
import Fsvfs.Dvdbnd.CiphertextBuffer

namespace Fsvfs.Dvdbnd.CiphertextBuffer

open Lib Lib.Checked

/-- What is seen at a visit, and what the push before it has overwritten. -/
structure Visit where
  overwritten : Option AlignedBuffer
  curr : Checked AlignedBuffer
  prev : List UInt8
  next : List UInt8

/-- The visit after a push. -/
def visit (cbuf : CiphertextBuffer) (buf : Option AlignedBuffer) : Visit where
  overwritten := cbuf.inner cbuf.pos.next
  curr := (cbuf.doPush buf).curr
  prev := (cbuf.doPush buf).prev
  next := (cbuf.doPush buf).next

/-- The current buffer is changed in place. -/
def editCurr (edit : AlignedBuffer → AlignedBuffer) (cbuf : CiphertextBuffer) : CiphertextBuffer :=
  match cbuf.curr with
  | .ok buf => cbuf.setCurr (edit buf)
  | .error _ => cbuf

/-- The visits while some buffers are pushed, after `i` visits, if `edit` is what
    each visit does. -/
def visits (edit : ℕ → AlignedBuffer → AlignedBuffer) (i : ℕ) :
    List AlignedBuffer → CiphertextBuffer → List Visit
  | [], cbuf => [cbuf.visit none]
  | buf :: bufs, cbuf =>
    if cbuf.isEmpty then visits edit i bufs (cbuf.push buf)
    else cbuf.visit (some buf) :: visits edit (i + 1) bufs ((cbuf.push buf).editCurr (edit i))

/-- The bytes of a slot. -/
def slotBytes (buf : Option AlignedBuffer) : List UInt8 := (buf.map AlignedBuffer.bytes).getD []

section
variable {edit : ℕ → AlignedBuffer → AlignedBuffer} {cbuf : CiphertextBuffer}
  {older old : Option AlignedBuffer} {buf : AlignedBuffer} {i : ℕ}

/-- A visit is of the newest buffer, and the oldest one is overwritten. -/
theorem View.visit (h : cbuf.View older old (some buf)) (next : Option AlignedBuffer) :
    cbuf.visit next = ⟨older, .ok buf, slotBytes old, slotBytes next⟩ := by
  have hpush := h.doPush next
  have hoverwritten : cbuf.inner cbuf.pos.next = older := by
    rw [← h.older]
    cases cbuf.pos <;> rfl
  rw [CiphertextBuffer.visit, hoverwritten, hpush.curr, hpush.prev, hpush.next]
  rfl

theorem View.editCurr (h : cbuf.View older (some buf) old) (f : AlignedBuffer → AlignedBuffer) :
    (cbuf.editCurr f).View older (some (f buf)) old := by
  rw [CiphertextBuffer.editCurr, h.curr]
  exact h.setCurr

theorem isPushed_editCurr (f : AlignedBuffer → AlignedBuffer) (cbuf : CiphertextBuffer) :
    (cbuf.editCurr f).isPushed = cbuf.isPushed := by
  rw [CiphertextBuffer.editCurr]
  split <;> rfl

/-- The buffers as the visits leave them, after two that came before. -/
def history (edit : ℕ → AlignedBuffer → AlignedBuffer) (i : ℕ) (older old : Option AlignedBuffer)
    (bufs : List AlignedBuffer) : List (Option AlignedBuffer) :=
  older :: old :: bufs.mapIdx fun k buf => some (edit (i + k) buf)

theorem history_cons (older old : Option AlignedBuffer) (buf : AlignedBuffer) (bufs : List AlignedBuffer) :
    history edit i older old (buf :: bufs) =
      older :: history edit (i + 1) old (some (edit i buf)) bufs := by
  simp only [history, List.mapIdx_cons, Nat.add_zero]
  congr 4
  funext k buf
  congr 2
  omega

/-- **The visits from a ring with a view on.** -/
theorem visits_of_view {bufs : List AlignedBuffer} (h : cbuf.View older old (some buf))
    (hpushed : cbuf.isPushed = true) (k : ℕ) : (visits edit i bufs cbuf)[k]? =
      (buf :: bufs)[k]?.map fun curr =>
        ⟨(history edit i older old (buf :: bufs))[k]?.join, .ok curr,
          slotBytes (history edit i older old (buf :: bufs))[k + 1]?.join, slotBytes bufs[k]?⟩ := by
  induction bufs generalizing cbuf older old buf i k with
  | nil =>
    rw [visits, h.visit]
    cases k <;> rfl
  | cons next bufs ih =>
    have hempty : cbuf.isEmpty = false := by rw [CiphertextBuffer.isEmpty, hpushed, Bool.not_true]
    rw [visits, hempty, if_neg Bool.false_ne_true, h.visit]
    cases k with
    | zero => rfl
    | succ k =>
      have hview : ((cbuf.push next).editCurr (edit i)).View old (some (edit i buf)) (some next) :=
        (h.doPush (some next)).editCurr (edit i)
      have hpushed' : ((cbuf.push next).editCurr (edit i)).isPushed = true := by
        rw [isPushed_editCurr]
        rfl
      rw [List.getElem?_cons_succ, ih hview hpushed', history_cons older old]
      rfl

end

/-- The buffer `k` places back, as its visit left it. -/
def back (edit : ℕ → AlignedBuffer → AlignedBuffer) (bufs : List AlignedBuffer) (i k : ℕ) :
    Option AlignedBuffer :=
  if k ≤ i then bufs[i - k]?.map (edit (i - k)) else none

theorem back_succ (edit : ℕ → AlignedBuffer → AlignedBuffer) (bufs : List AlignedBuffer) (i k : ℕ) :
    back edit bufs (i + 1) (k + 1) = back edit bufs i k := by
  simp only [back, Nat.add_le_add_iff_right, Nat.add_sub_add_right]

theorem join_history (edit : ℕ → AlignedBuffer → AlignedBuffer) (bufs : List AlignedBuffer) (i : ℕ) :
    (history edit 0 none none bufs)[i]?.join = back edit bufs i 2 := by
  rcases i with _ | _ | i
  · rfl
  · rfl
  · rw [back_succ, back_succ, back, if_pos (Nat.zero_le i), history, List.getElem?_cons_succ,
      List.getElem?_cons_succ, List.getElem?_mapIdx, Nat.sub_zero]
    cases bufs[i]? with
    | none => rfl
    | some buf => simp

/-- **A new ring visits every buffer once, with its neighbours.**  The first push
    overwrites nothing, and the one before visit `i` overwrites the buffer of visit
    `i - 2`, which was before the current one at visit `i - 1`. -/
theorem visits_default (edit : ℕ → AlignedBuffer → AlignedBuffer) {bufs : List AlignedBuffer}
    (h : bufs ≠ []) :
    default.inner default.pos.next = none ∧ (visits edit 0 bufs default).length = bufs.length ∧
    ∀ (i : ℕ) (hi : i < bufs.length), (visits edit 0 bufs default)[i]? =
      some ⟨back edit bufs i 2, .ok bufs[i], slotBytes (back edit bufs i 1), slotBytes bufs[i + 1]?⟩ := by
  obtain ⟨buf, bufs, rfl⟩ := List.exists_cons_of_ne_nil h
  have hview : (default.push buf).View none none (some buf) := view_default.doPush (some buf)
  have hvisits : ∀ i, (visits edit 0 (buf :: bufs) default)[i]? = (buf :: bufs)[i]?.map fun curr =>
      Visit.mk (back edit (buf :: bufs) i 2) (.ok curr) (slotBytes (back edit (buf :: bufs) i 1))
        (slotBytes bufs[i]?) := by
    intro i
    rw [← back_succ edit _ i 1, ← join_history, ← join_history]
    exact visits_of_view hview rfl i
  refine ⟨rfl, ?_, ?_⟩
  · refine Nat.le_antisymm ?_ ?_
    · rw [← List.getElem?_eq_none_iff, hvisits, Option.map_eq_none_iff, List.getElem?_eq_none_iff]
    · rw [← List.getElem?_eq_none_iff, ← Option.map_eq_none_iff, ← hvisits, List.getElem?_eq_none_iff]
  · intro i hi
    rw [hvisits, List.getElem?_eq_getElem hi]
    rfl

theorem visits_pair :
    (visits (fun _ buf => buf) 0 [⟨[1], 0⟩, ⟨[2], 1⟩] default)[1]? = some ⟨none, .ok ⟨[2], 1⟩, [1], []⟩ := by
  have hbufs : [⟨[1], 0⟩, ⟨[2], 1⟩] ≠ ([] : List AlignedBuffer) := List.cons_ne_nil _ _
  rewrite [(visits_default (fun _ buf => buf) hbufs).2.2 1 (Nat.lt_succ_self 1)]
  rfl

end Fsvfs.Dvdbnd.CiphertextBuffer
