/-
  The buffers of a stream, when every read gives the bytes that are asked for.

  * `streamRead_eq`: the stream of a plain file;
  * `streamReadWindows_eq`: the one of an encrypted file has the same buffers, some
    bytes before them and some after them (`Pieces`).
-/
import Fsvfs.Dvdbnd.Aligned
import Fsvfs.Lib.Window

namespace Fsvfs.Dvdbnd

open Lib Lib.Checked

/-! ## Chunks -/

theorem chunks_of_le {start stop : ℕ} (h : stop ≤ start) : chunks start stop = [] := by
  have hsize : BUFFER_LEN = 32768 := rfl
  have hzero : (stop - start + (BUFFER_LEN - 1)) / BUFFER_LEN = 0 := Nat.div_eq_of_lt (by omega)
  rw [chunks, hzero]
  rfl

/-- **The first chunk and the others.** -/
theorem chunks_of_lt {start stop : ℕ} (h : start < stop) : chunks start stop =
    (min (stop - start) BUFFER_LEN, start) :: chunks (start + BUFFER_LEN) stop := by
  have hsize : BUFFER_LEN = 32768 := rfl
  have hcount : (stop - start + (BUFFER_LEN - 1)) / BUFFER_LEN =
      (stop - (start + BUFFER_LEN) + (BUFFER_LEN - 1)) / BUFFER_LEN + 1 := by
    rw [hsize]
    omega
  rw [chunks, hcount, List.range_succ_eq_map, List.map_cons, List.map_map, chunks]
  have hzero : start + 0 * BUFFER_LEN = start := by rw [Nat.zero_mul, Nat.add_zero]
  rw [hzero]
  congr 1
  refine List.map_congr_left fun k _ => ?_
  have hpos : start + (k + 1) * BUFFER_LEN = start + BUFFER_LEN + k * BUFFER_LEN := by
    rw [Nat.succ_mul]
    omega
  rw [Function.comp_apply, Nat.succ_eq_add_one, hpos]

/-- A property of the chunks up to an end, from the last one on. -/
theorem chunks_induction (stop : ℕ) {motive : ℕ → Prop} (nil : ∀ start, stop ≤ start → motive start)
    (cons : ∀ start, start < stop → motive (start + BUFFER_LEN) → motive start) (start : ℕ) :
    motive start := by
  by_cases h : stop ≤ start
  · exact nil start h
  · exact cons start (Nat.lt_of_not_le h) (chunks_induction stop nil cons (start + BUFFER_LEN))
termination_by stop - start
decreasing_by
  have hsize : BUFFER_LEN = 32768 := rfl
  omega

theorem chunks_add (shift start stop : ℕ) :
    chunks (shift + start) (shift + stop) = (chunks start stop).map fun (len, pos) => (len, shift + pos) := by
  rw [chunks, chunks, List.map_map, Nat.add_sub_add_left]
  refine List.map_congr_left fun k _ => ?_
  dsimp only [Function.comp_apply]
  rw [Nat.add_assoc, Nat.add_sub_add_left]

theorem mem_chunks {start stop len pos : ℕ} (h : (len, pos) ∈ chunks start stop) :
    start ≤ pos ∧ 0 < len ∧ pos + len ≤ stop := by
  revert h
  induction start using chunks_induction stop with
  | nil start hle => simp [chunks_of_le hle]
  | cons start hlt ih =>
    have hsize : BUFFER_LEN = 32768 := rfl
    rw [chunks_of_lt hlt, List.mem_cons]
    rintro (heq | hmem)
    · cases heq
      omega
    · have := ih hmem
      omega

/-! ## Reads -/

/-- Every read gives the bytes that are asked for. -/
def Exact (file : ReadManagedAt) (bdt : ℕ → UInt8) : Prop :=
  ∀ len pos, 0 < len → file len pos = .ok (some (window bdt pos len))

/-- A buffer of the file that starts at `fileStart`. -/
def bufferAt (bdt : ℕ → UInt8) (fileStart len pos : ℕ) : AlignedBuffer :=
  ⟨window bdt pos len, (pos : ℤ) - fileStart⟩

section
variable {file : ReadManagedAt} {bdt : ℕ → UInt8} {fileStart fileLen start len : ℕ}

theorem read_zero (pos : ℕ) : read file 0 pos fileStart = none := if_pos rfl

theorem read_of_exact (h : Exact file bdt) {pos : ℕ} (hlen : 0 < len)
    (hlt : (pos : ℤ) - fileStart < 2 ^ 63) (hge : -2 ^ 63 ≤ (pos : ℤ) - fileStart) :
    read file len pos fileStart = some (.ok (bufferAt bdt fileStart len pos)) := by
  have hdiff : checkedSignedDiff pos fileStart = some ((pos : ℤ) - fileStart) := if_pos ⟨hge, hlt⟩
  rw [read, if_neg (by omega), hdiff]
  dsimp only
  rw [h len pos hlen]
  simp [bufferAt]

/-- The buffers of the chunks. -/
theorem filterMap_read_chunks (h : Exact file bdt) {stop : ℕ} (hstart : fileStart ≤ start)
    (hstop : stop < fileStart + 2 ^ 63) :
    ((chunks start stop).filterMap fun (len, pos) => read file len pos fileStart) =
      ((chunks start stop).map fun (len, pos) => bufferAt bdt fileStart len pos).map .ok := by
  rw [List.map_map, ← List.filterMap_eq_map]
  refine List.filterMap_congr fun ⟨len, pos⟩ hmem => ?_
  obtain ⟨hge, hpos, hle⟩ := mem_chunks hmem
  exact read_of_exact h hpos (by omega) (by omega)

/-- What `end_bounds` checks. -/
theorem endBounds_eq_ok {stop fileEnd : ℕ} :
    endBounds start len fileStart fileLen = .ok (stop, fileEnd) ↔
      (start + len < 2 ^ 64 ∧ fileStart + fileLen < 2 ^ 64 ∧ fileStart ≤ start ∧
        start + len ≤ fileStart + fileLen) ∧ stop = start + len ∧ fileEnd = fileStart + fileLen := by
  rw [endBounds]
  by_cases h1 : start + len < 2 ^ 64
  · rw [add_of_lt h1, ok_bind]
    by_cases h2 : fileStart + fileLen < 2 ^ 64
    · rw [add_of_lt h2, ok_bind]
      by_cases h3 : fileStart ≤ start
      · rw [assert_of h3, ok_bind]
        by_cases h4 : start + len ≤ fileStart + fileLen
        · rw [assert_of h4, ok_bind]
          constructor
          · intro h
            cases h
            exact ⟨⟨h1, h2, h3, h4⟩, rfl, rfl⟩
          · rintro ⟨-, rfl, rfl⟩
            rfl
        · rw [Lib.Checked.assert, if_neg h4]
          exact ⟨nofun, fun h => absurd h.1.2.2.2 h4⟩
      · rw [Lib.Checked.assert, if_neg h3]
        exact ⟨nofun, fun h => absurd h.1.2.2.1 h3⟩
    · rw [add_of_not_lt h2]
      exact ⟨nofun, fun h => absurd h.1.2.1 h2⟩
  · rw [add_of_not_lt h1]
    exact ⟨nofun, fun h => absurd h.1.1 h1⟩

/-- `end_bounds` returns or panics. -/
theorem endBounds_cases (start len fileStart fileLen : ℕ) :
    endBounds start len fileStart fileLen = .ok (start + len, fileStart + fileLen) ∨
      endBounds start len fileStart fileLen = .error .panic := by
  by_cases h : start + len < 2 ^ 64 ∧ fileStart + fileLen < 2 ^ 64 ∧ fileStart ≤ start ∧
    start + len ≤ fileStart + fileLen
  · exact .inl (endBounds_eq_ok.2 ⟨h, rfl, rfl⟩)
  · right
    rw [endBounds]
    by_cases h1 : start + len < 2 ^ 64
    · rw [add_of_lt h1, ok_bind]
      by_cases h2 : fileStart + fileLen < 2 ^ 64
      · rw [add_of_lt h2, ok_bind]
        by_cases h3 : fileStart ≤ start
        · have h4 : ¬ start + len ≤ fileStart + fileLen := fun h4 => h ⟨h1, h2, h3, h4⟩
          rw [assert_of h3, ok_bind, Lib.Checked.assert, if_neg h4, error_bind]
        · rw [Lib.Checked.assert, if_neg h3, error_bind]
      · rw [add_of_not_lt h2, error_bind]
    · rw [add_of_not_lt h1, error_bind]

theorem streamRead_eq (h : Exact file bdt) (hbounds : endBounds start len fileStart fileLen =
    .ok (start + len, fileStart + fileLen)) (hlen : fileLen < 2 ^ 32) :
    streamRead file start len fileStart fileLen = .ok
      (((chunks start (start + len)).map fun (len, pos) => bufferAt bdt fileStart len pos).map .ok) := by
  obtain ⟨⟨-, -, hstart, hstop⟩, -⟩ := endBounds_eq_ok.1 hbounds
  rw [streamRead, hbounds, ok_bind]
  dsimp only
  rw [filterMap_read_chunks h hstart (by omega)]

/-! ## Windows -/

/-- The request and its windows fit into one buffer. -/
def Platform.OneWindow (platform : Platform) (start len : ℕ) : Prop :=
  len ≤ platform.windowMax ∧ platform.windowSize ≤ start

instance (platform : Platform) (start len : ℕ) : Decidable (platform.OneWindow start len) :=
  inferInstanceAs (Decidable (_ ∧ _))

/-- The bytes of the first buffer of a list. -/
def firstBytesOf (bufs : List AlignedBuffer) : List UInt8 := (bufs.head?.map AlignedBuffer.bytes).getD []

theorem firstBytesOf_cons (buf : AlignedBuffer) (bufs : List AlignedBuffer) :
    firstBytesOf (buf :: bufs) = buf.bytes := rfl

/-- The buffers before a request, and those after it. -/
structure Pieces (platform : Platform) (bdt : ℕ → UInt8) (start len fileStart fileLen : ℕ)
    (pre post : List AlignedBuffer) : Prop where
  pre_lt : ∀ b ∈ pre, b.offset < (start : ℤ) - fileStart
  pre_length : pre.length ≤ 1
  prev : ∃ m, min 16 (start - fileStart) ≤ m ∧ m ≤ start ∧ firstBytesOf pre = window bdt (start - m) m
  post_ge : ∀ b ∈ post, (start : ℤ) + len - fileStart ≤ b.offset
  next : 0 < len → ∃ m, min 16 (fileStart + fileLen - (start + len)) ≤ m ∧
    firstBytesOf post = window bdt (start + len) m
  eq_nil : pre ++ post = [] → len = 0 → fileLen = 0 ∧ start < platform.windowSize
  ne_nil : fileLen = 0 → start < platform.windowSize → pre ++ post = []

theorem Platform.windowSize_le (platform : Platform) : 16 ≤ platform.windowSize ∧ platform.windowSize ≤ 512 := by
  cases platform <;> decide

variable {platform : Platform}

theorem split_window {pos m n : ℕ} : split (window bdt pos (m + n)) m =
    .ok (window bdt pos m, window bdt (pos + m) n) := by
  rw [split, slice_of_le (Nat.zero_le _) (by simp), ok_bind, slice_of_le (by simp) (Nat.le_refl _),
    ok_bind, List.drop_zero, List.take_length, take_window, drop_window, Nat.add_sub_cancel_left,
    Nat.min_eq_left (Nat.le_add_right _ _)]

theorem splitWindow_eq {pos m : ℕ} {offset : ℤ} :
    splitWindow platform len ⟨window bdt pos (platform.windowSize + (len + m)), offset⟩ =
      .ok [⟨window bdt pos platform.windowSize, offset⟩,
        ⟨window bdt (pos + platform.windowSize) len, offset + platform.windowSize⟩,
        ⟨window bdt (pos + platform.windowSize + len) m, offset + platform.windowSize + len⟩] := by
  rw [splitWindow]
  dsimp only
  rw [split_window, ok_bind]
  dsimp only
  rw [split_window, ok_bind]

/-- The number of bytes in a window after a request. -/
def Platform.tailLen (platform : Platform) (stop fileEnd : ℕ) : ℕ := min platform.windowSize (fileEnd - stop)

/-- One window is split into a head, the request and a tail. -/
theorem streamReadOneWindow_split (h : Exact file bdt) (hbounds : endBounds start len fileStart fileLen =
    .ok (start + len, fileStart + fileLen)) (hlen : fileLen < 2 ^ 32) (hone : platform.OneWindow start len) :
    streamReadOneWindow platform file start len fileStart (fileStart + fileLen) =
      .ok (some ([bufferAt bdt fileStart platform.windowSize (start - platform.windowSize),
        bufferAt bdt fileStart len start,
        bufferAt bdt fileStart (platform.tailLen (start + len) (fileStart + fileLen)) (start + len)].map .ok)) := by
  obtain ⟨⟨hadd, hend, hstart, hstop⟩, -⟩ := endBounds_eq_ok.1 hbounds
  obtain ⟨hW, hW'⟩ := platform.windowSize_le
  obtain ⟨hmax, hpos⟩ := hone
  have hsize : BUFFER_LEN = 32768 := rfl
  have hdef : platform.windowMax = BUFFER_LEN - platform.windowSize * 2 := rfl
  obtain ⟨m, hm⟩ : ∃ m, m = platform.tailLen (start + len) (fileStart + fileLen) := ⟨_, rfl⟩
  have hm' := hm
  rw [Platform.tailLen] at hm'
  have hread : start + len + m - (start - platform.windowSize) = platform.windowSize + (len + m) := by omega
  have hpos' : start - platform.windowSize + platform.windowSize = start := Nat.sub_add_cancel hpos
  have hoffset : ((start - platform.windowSize : ℕ) : ℤ) - fileStart + platform.windowSize =
      (start : ℤ) - fileStart := by omega
  have htail : (start : ℤ) - fileStart + len = ((start + len : ℕ) : ℤ) - fileStart := by omega
  rw [← hm, streamReadOneWindow, if_neg (by omega), if_neg (by omega), add_of_lt hadd, ok_bind]
  dsimp only
  rw [show min (min (2 ^ 64 - 1) (start + len + platform.windowSize)) (fileStart + fileLen) =
    start + len + m by omega, hread, read_of_exact h (by omega) (by omega) (by omega), bufferAt]
  dsimp only
  rw [splitWindow_eq, hpos', hoffset, htail]
  rfl

/-- One window has the buffers of the request. -/
theorem streamReadOneWindow_eq (h : Exact file bdt) (hbounds : endBounds start len fileStart fileLen =
    .ok (start + len, fileStart + fileLen)) (hlen : fileLen < 2 ^ 32) (hone : platform.OneWindow start len) :
    ∃ pre post, streamReadOneWindow platform file start len fileStart (fileStart + fileLen) =
      .ok (some ((pre ++ ((chunks start (start + len)).map fun (len, pos) =>
        bufferAt bdt fileStart len pos) ++ post).map .ok)) ∧
      Pieces platform bdt start len fileStart fileLen pre post := by
  have hstream := streamReadOneWindow_split h hbounds hlen hone
  obtain ⟨⟨hadd, hend, hstart, hstop⟩, -⟩ := endBounds_eq_ok.1 hbounds
  obtain ⟨hW, hW'⟩ := platform.windowSize_le
  obtain ⟨hmax, hpos⟩ := hone
  have hsize : BUFFER_LEN = 32768 := rfl
  have hdef : platform.windowMax = BUFFER_LEN - platform.windowSize * 2 := rfl
  have hprev : ∃ k, min 16 (start - fileStart) ≤ k ∧ k ≤ start ∧ firstBytesOf
      [bufferAt bdt fileStart platform.windowSize (start - platform.windowSize)] = window bdt (start - k) k :=
    ⟨platform.windowSize, by omega, hpos, rfl⟩
  rw [hstream]
  by_cases hzero : len = 0
  · subst hzero
    refine ⟨[_], [_, _], by rw [chunks_of_le (by omega)]; rfl, ?_⟩
    exact
      { pre_lt := by
          simp only [List.forall_mem_singleton, bufferAt]
          omega
        pre_length := Nat.le_refl _
        prev := hprev
        post_ge := by
          simp [bufferAt]
        next := fun h => absurd h (Nat.lt_irrefl _)
        eq_nil := by
          intro h
          cases h
        ne_nil := by omega }
  · have hchunks : chunks start (start + len) = [(len, start)] := by
      rw [chunks_of_lt (by omega), chunks_of_le (by omega), Nat.add_sub_cancel_left,
        Nat.min_eq_left (by omega)]
    refine ⟨[_], [_], by rw [hchunks]; rfl, ?_⟩
    exact
      { pre_lt := by
          simp only [List.forall_mem_singleton, bufferAt]
          omega
        pre_length := Nat.le_refl _
        prev := hprev
        post_ge := by
          simp only [List.forall_mem_singleton, bufferAt]
          omega
        next := by
          refine fun _ => ⟨platform.tailLen (start + len) (fileStart + fileLen), ?_, rfl⟩
          rw [Platform.tailLen]
          omega
        eq_nil := by
          intro h
          cases h
        ne_nil := by omega }

theorem streamReadOneWindow_eq_none (hone : ¬ platform.OneWindow start len) (file : ReadManagedAt)
    (fileStart fileEnd : ℕ) : streamReadOneWindow platform file start len fileStart fileEnd = .ok none := by
  rw [Platform.OneWindow, not_and_or] at hone
  rw [streamReadOneWindow]
  rcases hone with hmax | hpos
  · rw [if_pos (by omega)]
  · have hlt : start < platform.windowSize := Nat.lt_of_not_le hpos
    rw [if_pos hlt, ite_self]

/-- `stream_read_windows` for requests that do not fit into one window. -/
def streamReadParts (platform : Platform) (file : ReadManagedAt) (start stop fileStart fileEnd : ℕ) :
    Checked BufferStream := do
  let head := max (start - platform.windowSize) fileStart
  let headLen ← sub start head
  let tailEnd := min (← add 64 stop platform.windowSize) fileEnd
  let tailLen ← sub tailEnd stop
  .ok (((headLen, head) :: chunks start stop ++ [(tailLen, stop)]).filterMap fun (len, pos) =>
    read file len pos fileStart)

/-- The bytes before a request, its chunks and the bytes after it. -/
theorem streamReadParts_of_le (file : ReadManagedAt) {stop fileEnd : ℕ} (hstart : fileStart ≤ start)
    (hstop : stop ≤ fileEnd) (hlimit : stop + platform.windowSize < 2 ^ 64) :
    streamReadParts platform file start stop fileStart fileEnd =
      .ok ((read file (start - max (start - platform.windowSize) fileStart)
          (max (start - platform.windowSize) fileStart) fileStart).toList ++
        ((chunks start stop).filterMap fun (len, pos) => read file len pos fileStart) ++
          (read file (min (stop + platform.windowSize) fileEnd - stop) stop fileStart).toList) := by
  have hcons : ∀ (e : ℕ × ℕ) (l : List (ℕ × ℕ)) (f : ℕ × ℕ → Option (Checked AlignedBuffer)),
      (e :: l).filterMap f = (f e).toList ++ l.filterMap f := by
    intro e l f
    rw [List.filterMap_cons]
    rcases f e with _ | item
    · rfl
    · rfl
  rw [streamReadParts]
  dsimp only
  rw [sub_of_le (by omega), ok_bind, add_of_lt hlimit, ok_bind, sub_of_le (by omega), ok_bind,
    List.cons_append, hcons, List.filterMap_append, hcons, List.filterMap_nil, List.append_nil, List.append_assoc]

/-- One window, or parts. -/
theorem streamReadWindows_of_bounds {stop fileEnd : ℕ}
    (hbounds : endBounds start len fileStart fileLen = .ok (stop, fileEnd)) :
    streamReadWindows platform file start len fileStart fileLen =
      streamReadOneWindow platform file start len fileStart fileEnd >>= fun
        | some window => .ok window
        | none => streamReadParts platform file start stop fileStart fileEnd := by
  rw [streamReadWindows, hbounds]
  rfl

/-- The buffer of a part, if it is not empty. -/
def partAt (bdt : ℕ → UInt8) (fileStart len pos : ℕ) : List AlignedBuffer :=
  if len = 0 then [] else [bufferAt bdt fileStart len pos]

/-- The buffers of a request, with `n` bytes before it and `m` bytes after it. -/
def partBuffers (bdt : ℕ → UInt8) (fileStart start stop n m : ℕ) : List AlignedBuffer :=
  partAt bdt fileStart n (start - n) ++
    ((chunks start stop).map fun (len, pos) => bufferAt bdt fileStart len pos) ++ partAt bdt fileStart m stop

/-- The number of bytes in a window before a request. -/
def Platform.headLen (platform : Platform) (start fileStart : ℕ) : ℕ := min platform.windowSize (start - fileStart)

theorem streamReadParts_eq (h : Exact file bdt) {stop fileEnd : ℕ} (hstart : fileStart ≤ start) (hle : start ≤ stop)
    (hstop : stop ≤ fileEnd) (hlen : fileEnd < fileStart + 2 ^ 32) (hlimit : stop + platform.windowSize < 2 ^ 64) :
    streamReadParts platform file start stop fileStart fileEnd = .ok ((partBuffers bdt fileStart start stop
      (platform.headLen start fileStart) (platform.tailLen stop fileEnd)).map .ok) := by
  have hreads : ∀ n pos, fileStart ≤ pos → pos < fileStart + 2 ^ 63 →
      (read file n pos fileStart).toList = (partAt bdt fileStart n pos).map .ok := by
    intro n pos hge hlt
    rw [partAt]
    split_ifs with hn
    · rw [hn, read_zero]
      rfl
    · rw [read_of_exact h (by omega) (by omega) (by omega)]
      rfl
  obtain ⟨k, hk⟩ : ∃ k, k = platform.headLen start fileStart := ⟨_, rfl⟩
  obtain ⟨m, hm⟩ : ∃ m, m = platform.tailLen stop fileEnd := ⟨_, rfl⟩
  rw [← hk, ← hm]
  rw [Platform.headLen] at hk
  rw [Platform.tailLen] at hm
  have hhead : max (start - platform.windowSize) fileStart = start - k := by omega
  have htail : min (stop + platform.windowSize) fileEnd = stop + m := by omega
  rw [streamReadParts_of_le file hstart hstop hlimit, hhead, htail, Nat.add_sub_cancel_left,
    Nat.sub_sub_self (by omega), filterMap_read_chunks h hstart (by omega),
    hreads k (start - k) (by omega) (by omega), hreads m stop (by omega) (by omega), partBuffers,
    List.map_append, List.map_append]

/-- **The stream of an encrypted file.** -/
theorem streamReadWindows_eq (h : Exact file bdt) (hbounds : endBounds start len fileStart fileLen =
    .ok (start + len, fileStart + fileLen)) (hlen : fileLen < 2 ^ 32)
    (hwindow : platform.OneWindow start len ∨ start + len + platform.windowSize < 2 ^ 64) :
    ∃ pre post, streamReadWindows platform file start len fileStart fileLen =
      .ok ((pre ++ ((chunks start (start + len)).map fun (len, pos) => bufferAt bdt fileStart len pos) ++
        post).map .ok) ∧ Pieces platform bdt start len fileStart fileLen pre post := by
  obtain ⟨⟨hadd, hend, hstart, hstop⟩, -⟩ := endBounds_eq_ok.1 hbounds
  obtain ⟨hW, hW'⟩ := platform.windowSize_le
  by_cases hone : platform.OneWindow start len
  · obtain ⟨pre, post, hstream, hpieces⟩ := streamReadOneWindow_eq h hbounds hlen hone
    refine ⟨pre, post, ?_, hpieces⟩
    rw [streamReadWindows_of_bounds hbounds, hstream, ok_bind]
  · have hnone := streamReadOneWindow_eq_none hone file fileStart (fileStart + fileLen)
    have hlimit : start + len + platform.windowSize < 2 ^ 64 := hwindow.resolve_left hone
    have hparts := streamReadParts_eq h hstart (Nat.le_add_right start len) hstop (by omega) hlimit
    refine ⟨_, _, by rw [streamReadWindows_of_bounds hbounds, hnone]; exact hparts, ?_⟩
    obtain ⟨k, hk⟩ : ∃ k, k = platform.headLen start fileStart := ⟨_, rfl⟩
    obtain ⟨m, hm⟩ : ∃ m, m = platform.tailLen (start + len) (fileStart + fileLen) := ⟨_, rfl⟩
    rw [← hk, ← hm, partAt, partAt]
    rw [Platform.headLen] at hk
    rw [Platform.tailLen] at hm
    exact
      { pre_lt := by
          split_ifs with hzero
          · exact List.forall_mem_nil _
          · rw [List.forall_mem_singleton, bufferAt]
            dsimp only
            omega
        pre_length := by split_ifs <;> simp
        prev := by
          refine ⟨k, by omega, by omega, ?_⟩
          split_ifs with hzero
          · rw [hzero]
            rfl
          · rfl
        post_ge := by
          split_ifs with hzero
          · exact List.forall_mem_nil _
          · rw [List.forall_mem_singleton, bufferAt]
            dsimp only
            omega
        next := by
          refine fun _ => ⟨m, by omega, ?_⟩
          split_ifs with hzero
          · rw [hzero]
            rfl
          · rfl
        eq_nil := by
          intro hnil hl
          split_ifs at hnil with hk0 hm0
          · have hfile : fileLen = 0 := by omega
            refine ⟨hfile, ?_⟩
            by_contra hge
            exact hone ⟨by omega, by omega⟩
          all_goals cases hnil
        ne_nil := by
          intro hfile hlt
          have hk0 : k = 0 := by omega
          have hm0 : m = 0 := by omega
          rw [if_pos hk0, if_pos hm0]
          rfl }

/-- Without room for the windows, the stream of an encrypted file panics. -/
theorem streamReadWindows_eq_panic (hbounds : endBounds start len fileStart fileLen =
    .ok (start + len, fileStart + fileLen)) (hone : ¬ platform.OneWindow start len)
    (hlimit : 2 ^ 64 ≤ start + len + platform.windowSize) :
    streamReadWindows platform file start len fileStart fileLen = .error .panic := by
  obtain ⟨⟨hadd, hend, hstart, hstop⟩, -⟩ := endBounds_eq_ok.1 hbounds
  rw [streamReadWindows, hbounds, ok_bind]
  dsimp only
  rw [streamReadOneWindow_eq_none hone, ok_bind]
  dsimp only
  rw [sub_of_le (by omega), ok_bind, add_of_not_lt (by omega), error_bind]

end

end Fsvfs.Dvdbnd
