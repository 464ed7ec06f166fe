/-
  The pool of buffers of a thread (`src/dvdbnd/filesystem/aligned.rs`).

  The buffers lie in one array, and the bits of a word say which are available.
  An address is a natural number, and `add` does not wrap.  A call gives its
  result and the pool afterwards, which outlives a panic.

  * `Run`: the runs in which a pointer is freed once for each time it was
    allocated, with the pointers that are outstanding.  In all of them the pool
    hands out each buffer once (`Run.safe`);
  * `rejectsForeign_run_iff`: which addresses `free` must not be called with.  The
    end of its range is eight times too far, as it adds a number of blocks to a
    pointer to buffers, and the pointers are only checked to be aligned.
-/
import Fsvfs.Lib.Slots
import Fsvfs.Dvdbnd.Aligned
import Mathlib.Order.Interval.Set.Basic

namespace Fsvfs.Dvdbnd

open Lib Lib.Checked

/-- `ALIGNMENT`, which is also `WINDOW_SIZE`. -/
def Platform.alignment (platform : Platform) : ℕ := platform.windowSize

/-- A build of the crate, which may check sums and shifts for overflow. -/
structure Build where
  platform : Platform
  overflowChecks : Bool

/-- `usize::BITS`. -/
def POOL_SIZE : ℕ := 64

def BUFFER_BLOCKS : ℕ := 8

def ARRAY_BLOCKS : ℕ := POOL_SIZE * BUFFER_BLOCKS

def ARRAY_LEN : ℕ := POOL_SIZE * BUFFER_LEN

/-- The place of an `AlignedBuffers`. -/
structure AlignedBuffers where
  addr : ℕ
  pos : 0 < addr
  aligned : 4096 ∣ addr
  fits : addr + ARRAY_LEN ≤ 2 ^ 64

/-- `AlignedBufferAllocator`. -/
structure AlignedBufferAllocator where
  available : BitVec 64
  buffers : AlignedBuffers

/-- `usize::checked_sub`. -/
def checkedSub (a b : BitVec 64) : Option (BitVec 64) := if b ≤ a then some (a - b) else none

/-- `a - b`. -/
def usizeSub (build : Build) (a b : BitVec 64) : Checked (BitVec 64) :=
  if b ≤ a ∨ !build.overflowChecks then .ok (a - b) else .error .panic

/-- `1 << index`, which without checks takes the index modulo 64. -/
def shiftOne (build : Build) (index : ℕ) : Checked (BitVec 64) :=
  if index < 64 ∨ !build.overflowChecks then .ok (1#64 <<< (index % 64)) else .error .panic

/-- `NonNull::new`. -/
def nonNull (ptr : ℕ) : Option ℕ := if ptr = 0 then none else some ptr

namespace AlignedBufferAllocator

def new (buffers : AlignedBuffers) : AlignedBufferAllocator := ⟨~~~0#64, buffers⟩

variable (build : Build) (pool : AlignedBufferAllocator)

/-- `buf_ptr`, a pointer to buffers: `add` and `offset_from` count these. -/
def bufPtr : ℕ := pool.buffers.addr

def alloc : Checked (Option ℕ) × AlignedBufferAllocator :=
  match checkedSub pool.available 1 with
  | none => (.ok none, pool)
  | some mask =>
    let newAvailable := pool.available &&& mask
    let ptr : Checked (Option ℕ) := do
      let index := (← usizeSub build pool.available newAvailable).ctz.toNat
      .ok (nonNull (pool.bufPtr + index * BUFFER_LEN))
    (ptr, { pool with available := newAvailable })

/-- The assertions of `free`, and the index of the pointer. -/
def freeIndex (ptr : ℕ) : Checked ℕ := do
  assert (build.platform.alignment ∣ ptr)
  let buf := pool.bufPtr
  let bufEnd := buf + ARRAY_BLOCKS * BUFFER_LEN
  assert (buf ≤ ptr ∧ ptr < bufEnd)
  -- the compiled `offset_from_unsigned` shifts, and cuts what is inside of a buffer
  .ok ((ptr - buf) / BUFFER_LEN)

def free (ptr : ℕ) : Checked Unit × AlignedBufferAllocator :=
  match pool.freeIndex build ptr >>= shiftOne build with
  | .ok bit => (.ok (), { pool with available := pool.available ||| bit })
  | .error s => (.error s, pool)

end AlignedBufferAllocator

/-! ## The buffers of an array -/

namespace AlignedBuffers
variable (buffers : AlignedBuffers) {i j : ℕ}

/-- The address of a buffer. -/
def buffer (i : ℕ) : ℕ := buffers.addr + i * BUFFER_LEN

def IsBuffer (ptr : ℕ) : Prop := ∃ i < POOL_SIZE, ptr = buffers.buffer i

/-- The addresses of the array. -/
def array : Set ℕ := Set.Ico buffers.addr (buffers.addr + ARRAY_LEN)

end AlignedBuffers

/-- The addresses of the buffer at a pointer. -/
def bytesAt (ptr : ℕ) : Set ℕ := Set.Ico ptr (ptr + BUFFER_LEN)

namespace AlignedBuffers
variable {buffers : AlignedBuffers} {i j : ℕ}

theorem buffer_injective : Function.Injective buffers.buffer := by
  intro i j h
  have hlen : 0 < BUFFER_LEN := by decide
  exact Nat.eq_of_mul_eq_mul_right hlen (Nat.add_left_cancel h)

theorem disjoint_buffer (h : i < j) : bytesAt (buffers.buffer i) ∩ bytesAt (buffers.buffer j) = ∅ := by
  have hle : (i + 1) * BUFFER_LEN ≤ j * BUFFER_LEN := Nat.mul_le_mul_right _ h
  rw [Nat.succ_mul] at hle
  refine Set.eq_empty_of_forall_notMem fun a ⟨ha, hb⟩ => ?_
  simp only [bytesAt, buffer, Set.mem_Ico] at ha hb
  omega

theorem buffer_subset_array (h : i < POOL_SIZE) : bytesAt (buffers.buffer i) ⊆ buffers.array := by
  have hle : (i + 1) * BUFFER_LEN ≤ ARRAY_LEN := Nat.mul_le_mul_right _ h
  rw [Nat.succ_mul] at hle
  intro a ha
  simp only [bytesAt, buffer, array, Set.mem_Ico] at ha ⊢
  omega

theorem alignment_dvd_buffer (platform : Platform) (i : ℕ) : platform.alignment ∣ buffers.buffer i := by
  have h4096 : platform.alignment ∣ 4096 := by cases platform <;> decide
  have hlen : 4096 ∣ BUFFER_LEN := by decide
  exact Nat.dvd_add (h4096.trans buffers.aligned) (h4096.trans (hlen.trans (Nat.dvd_mul_left _ _)))

end AlignedBuffers

/-! ## What the calls do -/

namespace AlignedBufferAllocator
variable {build : Build} {pool : AlignedBufferAllocator} {i ptr index : ℕ}

theorem alloc_of_zero (h : pool.available = 0#64) : pool.alloc build = (.ok none, pool) := by
  rw [alloc, h]
  rfl

/-- The lowest available buffer is handed out. -/
theorem alloc_of_ne (h : pool.available ≠ 0#64) : pool.alloc build =
    (.ok (some (pool.buffers.buffer pool.available.ctz.toNat)),
      { pool with available := pool.available &&& (pool.available - 1#64) }) := by
  have hone : 1#64 ≤ pool.available := by
    have hpos : pool.available.toNat ≠ 0 := fun hzero => h (BitVec.toNat_inj.1 hzero)
    rw [BitVec.le_def]
    exact Nat.pos_of_ne_zero hpos
  have hmask : checkedSub pool.available 1 = some (pool.available - 1#64) := if_pos hone
  have hbit : usizeSub build pool.available (pool.available &&& (pool.available - 1#64)) =
      .ok (BitVec.twoPow 64 pool.available.ctz.toNat) := by
    rw [usizeSub, if_pos (Or.inl (and_sub_one_le _)), sub_and_sub_one h]
  have hlt : pool.available.ctz.toNat < 64 := BitVec.lt_of_getLsbD (BitVec.getLsbD_true_ctz_of_ne_zero h)
  have hnonNull : nonNull (pool.bufPtr + pool.available.ctz.toNat * BUFFER_LEN) =
      some (pool.buffers.buffer pool.available.ctz.toNat) := by
    have hpos := pool.buffers.pos
    refine if_neg ?_
    rw [bufPtr]
    omega
  simp only [alloc, hmask, hbit, ok_bind, ctz_twoPow hlt, hnonNull]

theorem alloc_ok (build : Build) (pool : AlignedBufferAllocator) : ∃ ptr, (pool.alloc build).1 = .ok ptr := by
  by_cases h : pool.available = 0#64
  · exact ⟨none, by rw [alloc_of_zero h]⟩
  · exact ⟨some _, by rw [alloc_of_ne h]⟩

theorem alloc_eq_none_iff : (pool.alloc build).1 = .ok none ↔ pool.available = 0#64 := by
  by_cases h : pool.available = 0#64
  · simp [alloc_of_zero h, h]
  · simp [alloc_of_ne h, h]

/-- What is handed out is taken out of the word. -/
theorem alloc_eq_some (h : (pool.alloc build).1 = .ok (some ptr)) : ∃ i ∈ members pool.available,
    ptr = pool.buffers.buffer i ∧
      members (pool.alloc build).2.available = (members pool.available).erase i := by
  have hne : pool.available ≠ 0#64 := by
    intro hzero
    rw [alloc_of_zero hzero] at h
    cases h
  rw [alloc_of_ne hne] at h ⊢
  cases h
  exact ⟨_, ctz_mem_members hne, rfl, members_and_sub_one hne⟩

/-- **The assertions of `free` pass for the aligned addresses of its range.** -/
theorem freeIndex_eq_ok_iff : pool.freeIndex build ptr = .ok index ↔
    build.platform.alignment ∣ ptr ∧ pool.buffers.addr ≤ ptr ∧
      ptr < pool.buffers.addr + ARRAY_BLOCKS * BUFFER_LEN ∧
      index = (ptr - pool.buffers.addr) / BUFFER_LEN := by
  rw [freeIndex, bufPtr]
  by_cases halign : build.platform.alignment ∣ ptr
  · rw [assert_of halign, ok_bind]
    dsimp only
    by_cases hrange : pool.buffers.addr ≤ ptr ∧ ptr < pool.buffers.addr + ARRAY_BLOCKS * BUFFER_LEN
    · rw [assert_of hrange, ok_bind]
      simp [halign, hrange, eq_comm]
    · rw [assert, if_neg hrange, error_bind]
      simp only [reduceCtorEq, false_iff]
      rintro ⟨-, hle, hlt, -⟩
      exact hrange ⟨hle, hlt⟩
  · rw [assert, if_neg halign, error_bind]
    simp [halign]

theorem freeIndex_buffer (h : i < POOL_SIZE) : pool.freeIndex build (pool.buffers.buffer i) = .ok i := by
  have hlt : i * BUFFER_LEN < ARRAY_BLOCKS * BUFFER_LEN :=
    Nat.mul_lt_mul_of_pos_right (h.trans (by decide)) (by decide)
  refine freeIndex_eq_ok_iff.2 ⟨AlignedBuffers.alignment_dvd_buffer _ _, Nat.le_add_right _ _, ?_, ?_⟩
  · rw [AlignedBuffers.buffer]
    omega
  · rw [AlignedBuffers.buffer, Nat.add_sub_cancel_left, Nat.mul_div_cancel i (by decide)]

/-- A buffer is made available. -/
theorem free_buffer (h : i < POOL_SIZE) : pool.free build (pool.buffers.buffer i) =
    (.ok (), { pool with available := pool.available ||| 1#64 <<< i }) := by
  have hlt : i < 64 := h
  have hbit : shiftOne build i = .ok (1#64 <<< i) := by
    rw [shiftOne, if_pos (Or.inl hlt), Nat.mod_eq_of_lt hlt]
  simp only [free, freeIndex_buffer h, ok_bind, hbit]

@[simp] theorem buffers_alloc (build : Build) (pool : AlignedBufferAllocator) :
    (pool.alloc build).2.buffers = pool.buffers := by
  by_cases h : pool.available = 0#64
  · rw [alloc_of_zero h]
  · rw [alloc_of_ne h]

@[simp] theorem buffers_free (build : Build) (pool : AlignedBufferAllocator) (ptr : ℕ) :
    (pool.free build ptr).2.buffers = pool.buffers := by
  rw [free]
  split <;> rfl

/-! ## Runs -/

/-- The runs of a new pool in which only what is outstanding is freed, with the
    pointers that are outstanding. -/
inductive Run (build : Build) (buffers : AlignedBuffers) : AlignedBufferAllocator → List ℕ → Prop
  | new : Run build buffers (.new buffers) []
  | alloc {pool live ptr} : Run build buffers pool live → (pool.alloc build).1 = .ok (some ptr) →
      Run build buffers (pool.alloc build).2 (ptr :: live)
  | allocNone {pool live} : Run build buffers pool live → (pool.alloc build).1 = .ok none →
      Run build buffers (pool.alloc build).2 live
  | allocStop {pool live stop} : Run build buffers pool live → (pool.alloc build).1 = .error stop →
      Run build buffers (pool.alloc build).2 live
  | free {pool live ptr} : Run build buffers pool live → ptr ∈ live →
      Run build buffers (pool.free build ptr).2 (live.erase ptr)

/-- The buffer at a pointer is available. -/
def IsAvailable (pool : AlignedBufferAllocator) (ptr : ℕ) : Prop :=
  ∃ i < POOL_SIZE, pool.available.getLsbD i ∧ ptr = pool.buffers.buffer i

/-- What is asked of a pool with some pointers that are outstanding. -/
structure Safe (build : Build) (buffers : AlignedBuffers) (pool : AlignedBufferAllocator)
    (live : List ℕ) : Prop where
  /-- An allocation does not panic. -/
  alloc_ok : ∃ ptr, (pool.alloc build).1 = .ok ptr
  /-- It gives a buffer that is not outstanding, -/
  alloc_fresh : ∀ ptr, (pool.alloc build).1 = .ok (some ptr) → buffers.IsBuffer ptr ∧ ptr ∉ live
  /-- or nothing if all of them are. -/
  alloc_none : (pool.alloc build).1 = .ok none ↔ live.length = POOL_SIZE
  /-- No other buffer becomes outstanding. -/
  alloc_available : ∀ ptr, (pool.alloc build).1 = .ok (some ptr) → ∀ other,
    (pool.alloc build).2.IsAvailable other ↔ pool.IsAvailable other ∧ other ≠ ptr
  /-- The buffers that are outstanding are apart, -/
  disjoint : live.Pairwise fun ptr other => bytesAt ptr ∩ bytesAt other = ∅
  /-- and inside of the array. -/
  inside : ∀ ptr ∈ live, bytesAt ptr ⊆ buffers.array
  /-- The others are available. -/
  available : ∀ ptr, pool.IsAvailable ptr ↔ buffers.IsBuffer ptr ∧ ptr ∉ live
  /-- What is outstanding may be freed. -/
  free_ok : ∀ ptr ∈ live, (pool.free build ptr).1 = .ok ()
  /-- It becomes available, and nothing else does. -/
  free_available : ∀ ptr ∈ live, ∀ other,
    (pool.free build ptr).2.IsAvailable other ↔ pool.IsAvailable other ∨ other = ptr

/-- The pointers that are outstanding are the buffers without a bit. -/
structure Tracks (buffers : AlignedBuffers) (pool : AlignedBufferAllocator) (live : List ℕ) : Prop where
  place : pool.buffers = buffers
  split : ∃ indices : List ℕ, live = indices.map buffers.buffer ∧
    SlotSplit (Finset.range POOL_SIZE) (members pool.available) indices

namespace Tracks
variable {build : Build} {buffers : AlignedBuffers} {pool : AlignedBufferAllocator} {live : List ℕ}
  {ptr : ℕ}

theorem init (buffers : AlignedBuffers) : Tracks buffers (.new buffers) [] where
  place := rfl
  split := by
    refine ⟨[], rfl, ?_⟩
    rw [new, members_allOnes]
    exact SlotSplit.init _

/-- A bit is set for each buffer that is not outstanding. -/
theorem mem_members_iff (h : Tracks buffers pool live) {i : ℕ} :
    i ∈ members pool.available ↔ i < POOL_SIZE ∧ buffers.buffer i ∉ live := by
  obtain ⟨rfl, indices, rfl, hsplit⟩ := h
  rw [hsplit.mem_free, Finset.mem_range, List.mem_map_of_injective AlignedBuffers.buffer_injective]

theorem members_eq_empty_iff (h : Tracks buffers pool live) :
    members pool.available = ∅ ↔ live.length = POOL_SIZE := by
  obtain ⟨rfl, indices, rfl, hsplit⟩ := h
  rw [hsplit.free_eq_empty_iff, Finset.card_range, List.length_map]

theorem isAvailable_iff (h : Tracks buffers pool live) :
    pool.IsAvailable ptr ↔ buffers.IsBuffer ptr ∧ ptr ∉ live := by
  constructor
  · rintro ⟨i, hi, hbit, rfl⟩
    rw [h.place]
    exact ⟨⟨i, hi, rfl⟩, (h.mem_members_iff.1 (mem_members.2 hbit)).2⟩
  · rintro ⟨⟨i, hi, rfl⟩, hptr⟩
    rw [← h.place] at hptr ⊢
    exact ⟨i, hi, mem_members.1 (h.mem_members_iff.2 ⟨hi, h.place ▸ hptr⟩), rfl⟩

/-- Only buffers of the array are outstanding. -/
theorem isBuffer (h : Tracks buffers pool live) (hptr : ptr ∈ live) : buffers.IsBuffer ptr := by
  obtain ⟨rfl, indices, rfl, hsplit⟩ := h
  obtain ⟨i, hi, rfl⟩ := List.mem_map.1 hptr
  exact ⟨i, Finset.mem_range.1 (hsplit.subset i hi), rfl⟩

theorem alloc (h : Tracks buffers pool live) (hptr : (pool.alloc build).1 = .ok (some ptr)) :
    pool.IsAvailable ptr ∧ Tracks buffers (pool.alloc build).2 (ptr :: live) := by
  obtain ⟨rfl, indices, rfl, hsplit⟩ := h
  obtain ⟨i, hi, rfl, hmembers⟩ := alloc_eq_some hptr
  refine ⟨⟨i, ?_, mem_members.1 hi, rfl⟩, ⟨buffers_alloc _ _, i :: indices, rfl, ?_⟩⟩
  · exact Finset.mem_range.1 ((hsplit.mem_free i).1 hi).1
  · rw [hmembers]
    exact hsplit.take hi

theorem allocNone (h : Tracks buffers pool live) (hptr : (pool.alloc build).1 = .ok none) :
    Tracks buffers (pool.alloc build).2 live := by
  rw [alloc_of_zero (alloc_eq_none_iff.1 hptr)]
  exact h

theorem free (h : Tracks buffers pool live) (hptr : ptr ∈ live) :
    (pool.free build ptr).1 = .ok () ∧ Tracks buffers (pool.free build ptr).2 (live.erase ptr) := by
  obtain ⟨rfl, indices, rfl, hsplit⟩ := h
  obtain ⟨i, hi, rfl⟩ := List.mem_map.1 hptr
  have hlt : i < 64 := Finset.mem_range.1 (hsplit.subset i hi)
  rw [free_buffer hlt]
  refine ⟨rfl, rfl, indices.erase i, ?_, ?_⟩
  · exact (List.map_erase AlignedBuffers.buffer_injective indices).symm
  · rw [members_or_shiftLeft hlt]
    exact hsplit.release hi

/-- The buffers that are outstanding are apart. -/
theorem disjoint (h : Tracks buffers pool live) :
    live.Pairwise fun ptr other => bytesAt ptr ∩ bytesAt other = ∅ := by
  obtain ⟨rfl, indices, rfl, hsplit⟩ := h
  rw [List.pairwise_map]
  refine hsplit.nodup.imp fun {i j} hne => ?_
  rcases Nat.lt_or_gt_of_ne hne with hlt | hgt
  · exact AlignedBuffers.disjoint_buffer hlt
  · rw [Set.inter_comm]
    exact AlignedBuffers.disjoint_buffer hgt

theorem nodup (h : Tracks buffers pool live) : live.Nodup := by
  obtain ⟨rfl, indices, rfl, hsplit⟩ := h
  exact hsplit.nodup.map AlignedBuffers.buffer_injective

end Tracks

/-- **A run keeps track of what is outstanding.** -/
theorem Run.tracks {build : Build} {buffers : AlignedBuffers} {pool : AlignedBufferAllocator}
    {live : List ℕ} (h : Run build buffers pool live) : Tracks buffers pool live := by
  induction h with
  | new => exact Tracks.init buffers
  | alloc _ hptr ih => exact (ih.alloc hptr).2
  | allocNone _ hptr ih => exact ih.allocNone hptr
  | allocStop _ hstop ih =>
    obtain ⟨ptr, hptr⟩ := alloc_ok build _
    rw [hptr] at hstop
    cases hstop
  | free _ hptr ih => exact (ih.free hptr).2

/-- **The pool never hands out a live buffer twice.** -/
theorem Run.safe {build : Build} {buffers : AlignedBuffers} {pool : AlignedBufferAllocator}
    {live : List ℕ} (h : Run build buffers pool live) : Safe build buffers pool live := by
  have htracks := h.tracks
  refine ⟨alloc_ok build pool, ?_, ?_, ?_, htracks.disjoint, ?_, ?_, ?_, ?_⟩
  · intro ptr hptr
    exact htracks.isAvailable_iff.1 (htracks.alloc hptr).1
  · rw [alloc_eq_none_iff, ← Lib.members_eq_empty_iff, htracks.members_eq_empty_iff]
  · intro ptr hptr other
    rw [(htracks.alloc hptr).2.isAvailable_iff, htracks.isAvailable_iff, List.mem_cons, not_or]
    tauto
  · intro ptr hptr
    obtain ⟨i, hi, rfl⟩ := htracks.isBuffer hptr
    exact AlignedBuffers.buffer_subset_array hi
  · exact fun ptr => htracks.isAvailable_iff
  · exact fun ptr hptr => (htracks.free hptr).1
  · intro ptr hptr other
    rw [(htracks.free hptr).2.isAvailable_iff, htracks.isAvailable_iff, htracks.nodup.mem_erase_iff]
    by_cases hother : other = ptr
    · subst hother
      simp [htracks.isBuffer hptr]
    · simp [hother]

theorem fits_page : 4096 + ARRAY_LEN ≤ 2 ^ 64 := by decide

/-- An array at the first page. -/
def page : AlignedBuffers := ⟨4096, Nat.succ_pos 4095, dvd_refl 4096, fits_page⟩

theorem Run.safe_page : ∃ pool, Run ⟨.unix, true⟩ page pool [4096 + BUFFER_LEN] ∧
    Safe ⟨.unix, true⟩ page pool [4096 + BUFFER_LEN] := by
  have hfirst : Run ⟨.unix, true⟩ page _ [4096] := .alloc .new (by decide +kernel)
  have hsecond : Run ⟨.unix, true⟩ page _ [4096 + BUFFER_LEN, 4096] := .alloc hfirst (by decide +kernel)
  have hmem : 4096 ∈ [4096 + BUFFER_LEN, 4096] := List.mem_cons_of_mem _ (List.mem_singleton_self _)
  have hfree : Run ⟨.unix, true⟩ page _ [4096 + BUFFER_LEN] := hsecond.free hmem
  exact ⟨_, hfree, hfree.safe⟩

/-! ## Addresses that are not of a buffer -/

/-- If the assertions of `free` pass, the address is one of a buffer and the shift
    is defined; at any other address `free` panics, and the pool stays as it is. -/
def RejectsForeign (build : Build) (pool : AlignedBufferAllocator) (ptr : ℕ) : Prop :=
  (∀ index, pool.freeIndex build ptr = .ok index → pool.buffers.IsBuffer ptr ∧ index < POOL_SIZE) ∧
  (¬ pool.buffers.IsBuffer ptr → pool.free build ptr = (.error .panic, pool))

/-- The calls of a pool. -/
inductive Call where
  | alloc
  | free (ptr : ℕ)

/-- The pool after a call. -/
def after (build : Build) (pool : AlignedBufferAllocator) : Call → AlignedBufferAllocator
  | .alloc => (pool.alloc build).2
  | .free ptr => (pool.free build ptr).2

/-- A new pool after any calls. -/
def run (build : Build) (buffers : AlignedBuffers) (calls : List Call) : AlignedBufferAllocator :=
  calls.foldl (after build) (new buffers)

section
variable (build : Build) (pool : AlignedBufferAllocator) (buffers : AlignedBuffers) (ptr : ℕ)

theorem buffers_after (call : Call) : (after build pool call).buffers = pool.buffers := by
  cases call with
  | alloc => exact buffers_alloc build pool
  | free ptr => exact buffers_free build pool ptr

theorem buffers_foldl_after (calls : List Call) :
    (calls.foldl (after build) pool).buffers = pool.buffers := by
  induction calls generalizing pool with
  | nil => rfl
  | cons call calls ih => rw [List.foldl_cons, ih, buffers_after]

theorem buffers_run (calls : List Call) : (run build buffers calls).buffers = buffers :=
  buffers_foldl_after build _ calls

variable {build pool ptr}

theorem freeIndex_error {stop : Stop} (h : pool.freeIndex build ptr = .error stop) :
    pool.free build ptr = (.error .panic, pool) := by
  have hstop : stop = .panic := by
    simp only [freeIndex, assert] at h
    split_ifs at h <;> cases h <;> rfl
  rw [free, h, hstop]
  rfl

/-- **`free` rejects an address iff it is one of a buffer or fails an assertion.** -/
theorem rejectsForeign_iff : RejectsForeign build pool ptr ↔
    pool.buffers.IsBuffer ptr ∨ ¬ ∃ index, pool.freeIndex build ptr = .ok index := by
  constructor
  · rintro ⟨hpass, -⟩
    by_cases h : ∃ index, pool.freeIndex build ptr = .ok index
    · obtain ⟨index, hindex⟩ := h
      exact .inl (hpass index hindex).1
    · exact .inr h
  · rintro (⟨i, hi, rfl⟩ | hfail)
    · refine ⟨fun index hindex => ?_, fun hforeign => absurd ⟨i, hi, rfl⟩ hforeign⟩
      rw [freeIndex_buffer hi] at hindex
      cases hindex
      exact ⟨⟨i, hi, rfl⟩, hi⟩
    · refine ⟨fun index hindex => absurd ⟨index, hindex⟩ hfail, fun _ => ?_⟩
      rcases h : pool.freeIndex build ptr with stop | index
      · exact freeIndex_error h
      · exact absurd ⟨index, h⟩ hfail

end

/-- **After any calls, `free` rejects an address iff it is one of a buffer, is not
    aligned or is out of the range of `free`.** -/
theorem rejectsForeign_run_iff (build : Build) (buffers : AlignedBuffers) (calls : List Call) (ptr : ℕ) :
    RejectsForeign build (run build buffers calls) ptr ↔
      buffers.IsBuffer ptr ∨ ¬ build.platform.alignment ∣ ptr ∨ ptr < buffers.addr ∨
        buffers.addr + ARRAY_BLOCKS * BUFFER_LEN ≤ ptr := by
  rw [rejectsForeign_iff, buffers_run]
  refine or_congr_right ?_
  simp only [freeIndex_eq_ok_iff, buffers_run, exists_and_left, exists_eq, and_true]
  rw [not_and_or, not_and_or, not_le, not_lt]

/-- An aligned address inside of a buffer is accepted, and one behind the array. -/
theorem not_rejectsForeign_page :
    ¬ RejectsForeign ⟨.unix, true⟩ (run ⟨.unix, true⟩ page [.alloc]) (4096 + 64) ∧
    ¬ RejectsForeign ⟨.windows, false⟩ (run ⟨.windows, false⟩ page [.alloc]) (4096 + ARRAY_LEN) := by
  have hinner : ¬ page.IsBuffer (4096 + 64) := by
    rintro ⟨i, -, hi⟩
    simp only [AlignedBuffers.buffer, page, BUFFER_LEN] at hi
    omega
  have houter : ¬ page.IsBuffer (4096 + ARRAY_LEN) := by
    rintro ⟨i, hlt, hi⟩
    simp only [AlignedBuffers.buffer, page, BUFFER_LEN, ARRAY_LEN, POOL_SIZE] at hi hlt
    omega
  exact ⟨fun h => hinner (h.1 0 (by decide)).1, fun h => houter (h.1 64 (by decide)).1⟩

end AlignedBufferAllocator

end Fsvfs.Dvdbnd
