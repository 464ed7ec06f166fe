/-
  The buffers of a request and its surroundings.

  Every read gives the bytes that are asked for.  `Covers`: some buffers tile the
  request, with the bytes before it and after it that its first and last block
  need.

  * `covers_partBuffers`: buffers of parts cover a request;
  * `streamReadWindows_congr`: no read asks for more than `BUFFER_LEN` bytes, or for
    what comes after the file;
  * `streamReadWindows_covers`: one window or not, the stream covers the request.
-/
import Fsvfs.Dvdbnd.Slices

namespace Fsvfs.Dvdbnd

open Lib Lib.Checked

/-- The buffers that start before a position of the file. -/
def beforeOf (pos : ℤ) (bufs : List AlignedBuffer) : List AlignedBuffer := bufs.filter fun b => b.offset < pos

/-- The buffers that start in a part of the file. -/
def insideOf (pos stop : ℤ) (bufs : List AlignedBuffer) : List AlignedBuffer :=
  bufs.filter fun b => pos ≤ b.offset ∧ b.offset < stop

/-- The buffers that start from a position of the file on. -/
def afterOf (stop : ℤ) (bufs : List AlignedBuffer) : List AlignedBuffer := bufs.filter fun b => stop ≤ b.offset

/-- The bytes of some buffers. -/
def bytesOf (bufs : List AlignedBuffer) : List UInt8 := bufs.flatMap AlignedBuffer.bytes

/-- Some buffers tile the request, and at most one is right before it and at most
    one right after it, where the file goes on. -/
structure Covers (bdt : ℕ → UInt8) (start len fileStart fileLen : ℕ) (bufs : List AlignedBuffer) : Prop where
  bytes : ∀ b ∈ bufs, ∃ pos : ℕ, b.offset = (pos : ℤ) - fileStart ∧ b.bytes = window bdt pos b.bytes.length
  ascending : bufs.Pairwise fun b b' => b.offset < b'.offset
  inside : Tiles (start + len - fileStart) (start - fileStart)
    ((insideOf ((start : ℤ) - fileStart) ((start : ℤ) + len - fileStart) bufs).map fun b =>
      (b.bytes, b.offset.toNat))
  before : (beforeOf ((start : ℤ) - fileStart) bufs).length ≤ 1 ∧
    ∀ b ∈ beforeOf ((start : ℤ) - fileStart) bufs, b.offset + b.bytes.length = (start : ℤ) - fileStart
  after : (afterOf ((start : ℤ) + len - fileStart) bufs).length ≤ 1 ∧
    ∀ b ∈ afterOf ((start : ℤ) + len - fileStart) bufs, b.offset = (start : ℤ) + len - fileStart ∧
      b.offset + b.bytes.length ≤ fileLen
  prev : window bdt (start - min 16 (start - fileStart)) (min 16 (start - fileStart)) <:+
    bytesOf (beforeOf ((start : ℤ) - fileStart) bufs)
  next : window bdt (start + len) (min 16 (fileStart + fileLen - (start + len))) <+:
    bytesOf (afterOf ((start : ℤ) + len - fileStart) bufs)

/-! ## Parts -/

section
variable {bdt : ℕ → UInt8} {fileStart start stop n m : ℕ}

theorem mem_partAt {len pos : ℕ} {b : AlignedBuffer} (h : b ∈ partAt bdt fileStart len pos) :
    0 < len ∧ b = bufferAt bdt fileStart len pos := by
  rw [partAt] at h
  split_ifs at h with hzero
  · exact absurd h List.not_mem_nil
  · exact ⟨Nat.pos_of_ne_zero hzero, List.mem_singleton.1 h⟩

theorem length_partAt (len pos : ℕ) : (partAt bdt fileStart len pos).length ≤ 1 := by
  rw [partAt]
  split_ifs
  · exact Nat.zero_le _
  · exact Nat.le_refl _

theorem bytesOf_partAt (len pos : ℕ) : bytesOf (partAt bdt fileStart len pos) = window bdt pos len := by
  rw [partAt]
  split_ifs with hzero
  · rw [hzero]
    rfl
  · exact List.append_nil _

theorem mem_body {b : AlignedBuffer}
    (h : b ∈ (chunks start stop).map fun (len, pos) => bufferAt bdt fileStart len pos) :
    ∃ len pos, start ≤ pos ∧ 0 < len ∧ pos + len ≤ stop ∧ b = bufferAt bdt fileStart len pos := by
  obtain ⟨⟨len, pos⟩, hmem, rfl⟩ := List.mem_map.1 h
  obtain ⟨hstart, hlen, hstop⟩ := mem_chunks hmem
  exact ⟨len, pos, hstart, hlen, hstop, rfl⟩

/-- Where a part before the request starts, the chunks, and a part after it. -/
theorem offset_of_mem_pre (hn : n ≤ start) : ∀ b ∈ partAt bdt fileStart n (start - n),
    b.offset < (start : ℤ) - fileStart := by
  intro b hb
  obtain ⟨hpos, rfl⟩ := mem_partAt hb
  rw [bufferAt]
  dsimp only
  omega

theorem offset_of_mem_body : ∀ b ∈ (chunks start stop).map fun (len, pos) => bufferAt bdt fileStart len pos,
    (start : ℤ) - fileStart ≤ b.offset ∧ b.offset < (stop : ℤ) - fileStart := by
  intro b hb
  obtain ⟨len, pos, hstart, hlen, hstop, rfl⟩ := mem_body hb
  rw [bufferAt]
  dsimp only
  omega

theorem offset_of_mem_post : ∀ b ∈ partAt bdt fileStart m stop, b.offset = (stop : ℤ) - fileStart := by
  intro b hb
  obtain ⟨-, rfl⟩ := mem_partAt hb
  rfl

theorem ascending_partAt (len pos : ℕ) :
    (partAt bdt fileStart len pos).Pairwise fun b b' => b.offset < b'.offset := by
  rw [partAt]
  split_ifs
  · exact List.Pairwise.nil
  · exact List.pairwise_singleton _ _

/-- The chunks are in order. -/
theorem ascending_body : ((chunks start stop).map fun (len, pos) => bufferAt bdt fileStart len pos).Pairwise
    fun b b' => b.offset < b'.offset := by
  induction start using chunks_induction stop with
  | nil start hle =>
    rw [chunks_of_le hle]
    exact List.Pairwise.nil
  | cons start hlt ih =>
    have hsize : BUFFER_LEN = 32768 := rfl
    rw [chunks_of_lt hlt, List.map_cons]
    refine List.Pairwise.cons ?_ ih
    intro b hb
    obtain ⟨len, pos, hpos, -, -, rfl⟩ := mem_body hb
    show (start : ℤ) - fileStart < (pos : ℤ) - fileStart
    omega

/-- The chunks tile the request. -/
theorem tiles_body (hstart : fileStart ≤ start) (hle : start ≤ stop) : Tiles (stop - fileStart) (start - fileStart)
    (((chunks start stop).map fun (len, pos) => bufferAt bdt fileStart len pos).map fun b =>
      (b.bytes, b.offset.toNat)) := by
  obtain ⟨o, rfl⟩ := Nat.exists_eq_add_of_le hstart
  obtain ⟨o', rfl⟩ := Nat.exists_eq_add_of_le (hstart.trans hle)
  have hcallbacks : ∀ bufs : List AlignedBuffer,
      callbacks (bufs.map fun b => .callback b.bytes b.offset.toNat) = bufs.map fun b => (b.bytes, b.offset.toNat) := by
    intro bufs
    rw [callbacks, List.filterMap_map]
    exact congrFun (@List.filterMap_eq_map _ _ fun b : AlignedBuffer => (b.bytes, b.offset.toNat)) bufs
  have htiles : Tiles o' (min o o') (callbacks ((chunkBuffers (fun i => bdt (fileStart + i)) o o').map fun b =>
    .callback b.bytes b.offset.toNat)) := tiles_chunkBuffers
  rw [hcallbacks, Nat.min_eq_left (Nat.le_of_add_le_add_left hle)] at htiles
  rw [map_bufferAt, Nat.add_sub_cancel_left, Nat.add_sub_cancel_left]
  exact htiles

/-- The parts are in order. -/
theorem ascending_partBuffers (hle : start ≤ stop) (hn : n ≤ start) :
    (partBuffers bdt fileStart start stop n m).Pairwise fun b b' => b.offset < b'.offset := by
  have hpre := @offset_of_mem_pre bdt fileStart start n hn
  have hbody := @offset_of_mem_body bdt fileStart start stop
  have hpost := @offset_of_mem_post bdt fileStart stop m
  refine List.pairwise_append.2 ⟨List.pairwise_append.2 ⟨ascending_partAt _ _, ascending_body, ?_⟩,
    ascending_partAt _ _, ?_⟩
  · intro b hb b' hb'
    have hlt := hpre b hb
    have hge := hbody b' hb'
    omega
  · intro b hb b' hb'
    have heq := hpost b' hb'
    rcases List.mem_append.1 hb with hb | hb
    · have hlt := hpre b hb
      omega
    · have hlt := hbody b hb
      omega

/-- Which buffers start where. -/
theorem filter_partBuffers (hle : start ≤ stop) (hn : n ≤ start) :
    beforeOf ((start : ℤ) - fileStart) (partBuffers bdt fileStart start stop n m) =
      partAt bdt fileStart n (start - n) ∧
    insideOf ((start : ℤ) - fileStart) ((stop : ℤ) - fileStart) (partBuffers bdt fileStart start stop n m) =
      ((chunks start stop).map fun (len, pos) => bufferAt bdt fileStart len pos) ∧
    afterOf ((stop : ℤ) - fileStart) (partBuffers bdt fileStart start stop n m) = partAt bdt fileStart m stop := by
  have hpre := @offset_of_mem_pre bdt fileStart start n hn
  have hbody := @offset_of_mem_body bdt fileStart start stop
  have hpost := @offset_of_mem_post bdt fileStart stop m
  have hall : ∀ {p : AlignedBuffer → Prop} [DecidablePred p] {l : List AlignedBuffer},
      (∀ b ∈ l, p b) → l.filter (fun b => p b) = l := fun h => List.filter_eq_self.2 fun b hb => decide_eq_true (h b hb)
  have hnone : ∀ {p : AlignedBuffer → Prop} [DecidablePred p] {l : List AlignedBuffer},
      (∀ b ∈ l, ¬ p b) → l.filter (fun b => p b) = [] := fun h =>
    List.filter_eq_nil_iff.2 fun b hb => by simpa using h b hb
  rw [beforeOf, insideOf, afterOf, partBuffers]
  simp only [List.filter_append]
  refine ⟨?_, ?_, ?_⟩
  · rw [hall hpre, hnone fun b hb => by have := hbody b hb; omega, hnone fun b hb => by have := hpost b hb; omega,
      List.append_nil, List.append_nil]
  · rw [hnone fun b hb => by have := hpre b hb; omega, hall hbody, hnone fun b hb => by have := hpost b hb; omega,
      List.append_nil, List.nil_append]
  · rw [hnone fun b hb => by have := hpre b hb; omega, hnone fun b hb => by have := hbody b hb; omega,
      hall fun b hb => by have := hpost b hb; omega, List.nil_append, List.nil_append]

/-- **Buffers of parts cover a request.** -/
theorem covers_partBuffers {len fileLen : ℕ} (hstart : fileStart ≤ start) (hn : n ≤ start)
    (hn16 : min 16 (start - fileStart) ≤ n) (hm : start + len + m ≤ fileStart + fileLen)
    (hm16 : min 16 (fileStart + fileLen - (start + len)) ≤ m) :
    Covers bdt start len fileStart fileLen (partBuffers bdt fileStart start (start + len) n m) := by
  obtain ⟨hbefore, hinside, hafter⟩ := @filter_partBuffers bdt fileStart start (start + len) n m (Nat.le_add_right _ _) hn
  push_cast at hinside hafter
  refine
    { bytes := ?_
      ascending := ?_
      inside := ?_
      before := ?_
      after := ?_
      prev := ?_
      next := ?_ }
  · have hat : ∀ n pos, ∃ pos' : ℕ, (bufferAt bdt fileStart n pos).offset = (pos' : ℤ) - fileStart ∧
        (bufferAt bdt fileStart n pos).bytes = window bdt pos' (bufferAt bdt fileStart n pos).bytes.length := by
      intro n pos
      refine ⟨pos, rfl, ?_⟩
      rw [bufferAt, length_window]
    intro b hb
    rcases List.mem_append.1 hb with hb | hb
    · rcases List.mem_append.1 hb with hb | hb
      · obtain ⟨-, rfl⟩ := mem_partAt hb
        exact hat _ _
      · obtain ⟨len, pos, -, -, -, rfl⟩ := mem_body hb
        exact hat _ _
    · obtain ⟨-, rfl⟩ := mem_partAt hb
      exact hat _ _
  · exact ascending_partBuffers (Nat.le_add_right _ _) hn
  · rw [hinside]
    exact tiles_body hstart (Nat.le_add_right _ _)
  · rw [hbefore]
    refine ⟨length_partAt _ _, fun b hb => ?_⟩
    obtain ⟨-, rfl⟩ := mem_partAt hb
    rw [bufferAt, length_window]
    dsimp only
    omega
  · rw [hafter]
    refine ⟨length_partAt _ _, fun b hb => ?_⟩
    obtain ⟨-, rfl⟩ := mem_partAt hb
    rw [bufferAt, length_window]
    dsimp only
    omega
  · rw [hbefore, bytesOf_partAt]
    obtain ⟨k, hk⟩ := Nat.exists_eq_add_of_le' hn16
    have hsplit : start - n + k = start - min 16 (start - fileStart) := by omega
    conv_rhs => rw [hk, window_add, ← hk, hsplit]
    exact List.suffix_append _ _
  · rw [hafter, bytesOf_partAt]
    obtain ⟨k, hk⟩ := Nat.exists_eq_add_of_le hm16
    rw [hk, window_add]
    exact List.prefix_append _ _

end

/-! ## Streams -/

section
variable {platform : Platform} {file file' : ReadManagedAt} {bdt : ℕ → UInt8} {start len fileStart fileLen : ℕ}

/-- Two readers agree on the reads of at most `BUFFER_LEN` bytes up to an end. -/
def Agree (file file' : ReadManagedAt) (stop : ℕ) : Prop :=
  ∀ len pos, len ≤ BUFFER_LEN → pos + len ≤ stop → file' len pos = file len pos

theorem read_congr {stop : ℕ} (h : Agree file file' stop) {pos : ℕ} (hlen : len ≤ BUFFER_LEN)
    (hstop : pos + len ≤ stop) : read file' len pos fileStart = read file len pos fileStart := by
  rw [read, read, h len pos hlen hstop]

/-- A chunk has at most `BUFFER_LEN` bytes, and ends where the request does. -/
theorem le_of_mem_chunks {stop pos : ℕ} (h : (len, pos) ∈ chunks start stop) :
    len ≤ BUFFER_LEN ∧ pos + len ≤ stop := by
  obtain ⟨k, hk, heq⟩ := List.mem_map.1 h
  cases heq
  rw [List.mem_range] at hk
  have hsize : BUFFER_LEN = 32768 := rfl
  rw [hsize] at hk ⊢
  omega

theorem streamReadOneWindow_congr {fileEnd : ℕ} (h : Agree file file' fileEnd) (hend : start ≤ fileEnd) :
    streamReadOneWindow platform file' start len fileStart fileEnd =
      streamReadOneWindow platform file start len fileStart fileEnd := by
  obtain ⟨hW, hW'⟩ := platform.windowSize_le
  have hsize : BUFFER_LEN = 32768 := rfl
  have hdef : platform.windowMax = BUFFER_LEN - platform.windowSize * 2 := rfl
  rw [streamReadOneWindow, streamReadOneWindow]
  split_ifs with hmax hpos
  · rfl
  · rfl
  · by_cases hadd : start + len < 2 ^ 64
    · rw [add_of_lt hadd, ok_bind, ok_bind]
      dsimp only
      rw [read_congr h (by omega) (by omega)]
    · rw [add_of_not_lt hadd, error_bind, error_bind]

/-- Programs that agree after a result. -/
theorem bind_congr_of_ok {α β : Type} {x : Checked α} {f g : α → Checked β} (h : ∀ a, x = .ok a → f a = g a) :
    (x >>= f) = x >>= g := by
  rcases x with s | a
  · rfl
  · exact h a rfl

theorem eq_of_sub {a b c : ℕ} (h : sub a b = .ok c) : b ≤ a ∧ c = a - b := by
  rw [sub] at h
  split_ifs at h with hle
  exact ⟨hle, (Except.ok.inj h).symm⟩

theorem eq_of_add {w a b c : ℕ} (h : add w a b = .ok c) : c = a + b := by
  rw [add] at h
  split_ifs at h
  exact (Except.ok.inj h).symm

theorem streamReadParts_congr {stop fileEnd : ℕ} (h : Agree file file' fileEnd) (hstart : start ≤ stop)
    (hend : stop ≤ fileEnd) : streamReadParts platform file' start stop fileStart fileEnd =
      streamReadParts platform file start stop fileStart fileEnd := by
  obtain ⟨hW, hW'⟩ := platform.windowSize_le
  have hsize : BUFFER_LEN = 32768 := rfl
  rw [streamReadParts, streamReadParts]
  refine bind_congr_of_ok fun headLen hhead => bind_congr_of_ok fun tailEnd htail =>
    bind_congr_of_ok fun tailLen htailLen => ?_
  obtain ⟨hle, hheadLen⟩ := eq_of_sub hhead
  have htailEnd := eq_of_add htail
  obtain ⟨hle', htailLen'⟩ := eq_of_sub htailLen
  refine congrArg _ (List.filterMap_congr fun piece hmem => ?_)
  obtain ⟨len, pos⟩ := piece
  rcases List.mem_append.1 hmem with hmem | hmem
  · rcases List.mem_cons.1 hmem with heq | hmem
    · cases heq
      exact read_congr h (by omega) (by omega)
    · obtain ⟨hlen, hstop⟩ := le_of_mem_chunks hmem
      exact read_congr h hlen (hstop.trans hend)
  · cases List.mem_singleton.1 hmem
    exact read_congr h (by omega) (by omega)

/-- **No read asks for more than `BUFFER_LEN` bytes, or for what comes after the file**:
    what other ones return does not matter. -/
theorem streamReadWindows_congr (h : Agree file file' (fileStart + fileLen)) :
    streamReadWindows platform file' start len fileStart fileLen =
      streamReadWindows platform file start len fileStart fileLen := by
  rcases endBounds_cases start len fileStart fileLen with hbounds | hbounds
  · obtain ⟨⟨-, -, hstart, hstop⟩, -⟩ := endBounds_eq_ok.1 hbounds
    rw [streamReadWindows_of_bounds hbounds, streamReadWindows_of_bounds hbounds,
      streamReadOneWindow_congr h ((Nat.le_add_right _ _).trans hstop)]
    refine bind_congr_of_ok fun window _ => ?_
    cases window with
    | some window => rfl
    | none => exact streamReadParts_congr h (Nat.le_add_right _ _) hstop
  · rw [streamReadWindows, streamReadWindows, hbounds, error_bind, error_bind]

theorem streamRead_congr (h : Agree file file' (fileStart + fileLen)) :
    streamRead file' start len fileStart fileLen = streamRead file start len fileStart fileLen := by
  rcases endBounds_cases start len fileStart fileLen with hbounds | hbounds
  · obtain ⟨⟨-, -, hstart, hstop⟩, -⟩ := endBounds_eq_ok.1 hbounds
    rw [streamRead, streamRead, hbounds, ok_bind, ok_bind]
    refine congrArg _ (List.filterMap_congr fun chunk hmem => ?_)
    obtain ⟨hlen, hend⟩ := le_of_mem_chunks hmem
    exact read_congr h hlen (hend.trans hstop)
  · rw [streamRead, streamRead, hbounds, error_bind, error_bind]

/-- The buffers that are not empty. -/
def nonempty (bufs : List AlignedBuffer) : List AlignedBuffer := bufs.filter fun b => b.bytes ≠ []

theorem nonempty_append (bufs bufs' : List AlignedBuffer) :
    nonempty (bufs ++ bufs') = nonempty bufs ++ nonempty bufs' := List.filter_append ..

theorem nonempty_bufferAt (n pos : ℕ) :
    nonempty [bufferAt bdt fileStart n pos] = partAt bdt fileStart n pos := by
  have hiff : (bufferAt bdt fileStart n pos).bytes = [] ↔ n = 0 := by
    rw [← List.length_eq_zero_iff, bufferAt, length_window]
  rw [partAt, nonempty]
  split_ifs with hzero
  · exact List.filter_eq_nil_iff.2 fun b hb => by simp [List.mem_singleton.1 hb, hiff.2 hzero]
  · exact List.filter_eq_self.2 fun b hb => by simp [List.mem_singleton.1 hb, mt hiff.1 hzero]

/-- The buffers of one window are parts. -/
theorem nonempty_oneWindow (hmax : len ≤ BUFFER_LEN) (n m : ℕ) :
    nonempty [bufferAt bdt fileStart n (start - n), bufferAt bdt fileStart len start,
      bufferAt bdt fileStart m (start + len)] = partBuffers bdt fileStart start (start + len) n m := by
  have hbody : ((chunks start (start + len)).map fun (len, pos) => bufferAt bdt fileStart len pos) =
      partAt bdt fileStart len start := by
    rw [partAt]
    split_ifs with hzero
    · rw [chunks_of_le (by omega)]
      rfl
    · rw [chunks_of_lt (by omega), chunks_of_le (by omega), Nat.add_sub_cancel_left, Nat.min_eq_left hmax]
      rfl
  rw [partBuffers, hbody, ← nonempty_bufferAt, ← nonempty_bufferAt, ← nonempty_bufferAt, ← nonempty_append,
    ← nonempty_append]
  rfl

theorem nonempty_partBuffers {stop : ℕ} (n m : ℕ) :
    nonempty (partBuffers bdt fileStart start stop n m) = partBuffers bdt fileStart start stop n m := by
  have hpart : ∀ n pos, ∀ b ∈ partAt bdt fileStart n pos, b.bytes.length = n ∧ 0 < n := by
    intro n pos b hb
    obtain ⟨hpos, rfl⟩ := mem_partAt hb
    exact ⟨length_window _ _ _, hpos⟩
  refine List.filter_eq_self.2 fun b hb => decide_eq_true (List.ne_nil_of_length_pos ?_)
  rcases List.mem_append.1 hb with hb | hb
  · rcases List.mem_append.1 hb with hb | hb
    · obtain ⟨hlen, hpos⟩ := hpart _ _ b hb
      omega
    · obtain ⟨n, pos, -, hpos, -, rfl⟩ := mem_body hb
      rw [bufferAt, length_window]
      exact hpos
  · obtain ⟨hlen, hpos⟩ := hpart _ _ b hb
    omega

/-- **The stream covers a request**, in one window or in parts, and a plain stream
    tiles it, if there is room for a window after the file. -/
theorem streamReadWindows_covers (hexact : Exact file bdt) (hstart : fileStart ≤ start)
    (hstop : start + len ≤ fileStart + fileLen) (hlen : fileLen < 2 ^ 32)
    (hsums : fileStart + fileLen < 2 ^ 64 - platform.windowSize) :
    (∃ bufs : List AlignedBuffer, streamReadWindows platform file start len fileStart fileLen = .ok (bufs.map .ok) ∧
      Covers bdt start len fileStart fileLen (nonempty bufs)) ∧
    (∀ window, streamReadOneWindow platform file start len fileStart (fileStart + fileLen) = .ok (some window) →
      ∃ one parts : List AlignedBuffer, window = one.map .ok ∧ Covers bdt start len fileStart fileLen (nonempty one) ∧
        streamReadParts platform file start (start + len) fileStart (fileStart + fileLen) = .ok (parts.map .ok) ∧
        Covers bdt start len fileStart fileLen (nonempty parts)) ∧
    (∃ bufs : List AlignedBuffer, streamRead file start len fileStart fileLen = .ok (bufs.map .ok) ∧
      Tiles (start + len - fileStart) (start - fileStart) (bufs.map fun b => (b.bytes, b.offset.toNat)) ∧
      ∀ b ∈ bufs, ∃ pos : ℕ, b.offset = (pos : ℤ) - fileStart ∧ b.bytes = window bdt pos b.bytes.length) ∧
    ∀ file' : ReadManagedAt, (∀ len pos, len ≤ BUFFER_LEN → file' len pos = file len pos) →
      streamReadWindows platform file' start len fileStart fileLen =
        streamReadWindows platform file start len fileStart fileLen ∧
      streamRead file' start len fileStart fileLen = streamRead file start len fileStart fileLen := by
  obtain ⟨hW, hW'⟩ := platform.windowSize_le
  have hbounds : endBounds start len fileStart fileLen = .ok (start + len, fileStart + fileLen) :=
    endBounds_eq_ok.2 ⟨⟨by omega, by omega, hstart, hstop⟩, rfl, rfl⟩
  have hparts := @streamReadParts_eq file bdt fileStart start platform hexact _ _ hstart (Nat.le_add_right start len)
    hstop (by omega) (by omega)
  have hcovers : Covers bdt start len fileStart fileLen (nonempty (partBuffers bdt fileStart start (start + len)
      (platform.headLen start fileStart) (platform.tailLen (start + len) (fileStart + fileLen)))) := by
    rw [nonempty_partBuffers, Platform.headLen, Platform.tailLen]
    exact covers_partBuffers hstart (by omega) (by omega) (by omega) (by omega)
  have hone : platform.OneWindow start len → ∃ one : List AlignedBuffer,
      streamReadOneWindow platform file start len fileStart (fileStart + fileLen) = .ok (some (one.map .ok)) ∧
        Covers bdt start len fileStart fileLen (nonempty one) := by
    intro hone
    refine ⟨_, streamReadOneWindow_split hexact hbounds hlen hone, ?_⟩
    obtain ⟨hmax, hpos⟩ := hone
    have hdef : platform.windowMax = BUFFER_LEN - platform.windowSize * 2 := rfl
    rw [nonempty_oneWindow (by omega), Platform.tailLen]
    exact covers_partBuffers hstart hpos (by omega) (by omega) (by omega)
  refine ⟨?_, ?_, ?_, fun file' h => ?_⟩
  · rw [streamReadWindows_of_bounds hbounds]
    by_cases hwindow : platform.OneWindow start len
    · obtain ⟨one, hstream, hcovered⟩ := hone hwindow
      rw [hstream]
      exact ⟨one, rfl, hcovered⟩
    · rw [streamReadOneWindow_eq_none hwindow, ok_bind]
      exact ⟨_, hparts, hcovers⟩
  · intro window hwindow
    have hsome : platform.OneWindow start len := by
      by_contra hnone
      rw [streamReadOneWindow_eq_none hnone] at hwindow
      cases hwindow
    obtain ⟨one, hstream, hcovered⟩ := hone hsome
    cases hwindow.symm.trans hstream
    exact ⟨one, _, rfl, hcovered, hparts, hcovers⟩
  · refine ⟨_, streamRead_eq hexact hbounds hlen, tiles_body hstart (Nat.le_add_right _ _), fun b hb => ?_⟩
    obtain ⟨n, pos, -, -, -, rfl⟩ := mem_body hb
    refine ⟨pos, rfl, ?_⟩
    rw [bufferAt, length_window]
  · have hagree : Agree file file' (fileStart + fileLen) := fun len pos hlen _ => h len pos hlen
    exact ⟨streamReadWindows_congr hagree, streamRead_congr hagree⟩

theorem streamReadWindows_covers_zeros : ∃ bufs : List AlignedBuffer,
    streamReadWindows .unix (fun len pos => .ok (some (window (fun _ => 0) pos len))) 100 40000 40 50000 =
      .ok (bufs.map .ok) ∧ Covers (fun _ => 0) 100 40000 40 50000 (nonempty bufs) :=
  (streamReadWindows_covers (fun _ _ _ => rfl) (by decide) (by decide) (by decide) (by decide)).1

/-- The window of windows is longer than that of unix: 100 bytes before the end of
    the positions, there is no room for it. -/
theorem not_streamReadWindows_covers : ¬ ∀ (platform : Platform) (file : ReadManagedAt) (bdt : ℕ → UInt8)
    (start len fileStart fileLen : ℕ), Exact file bdt → fileStart ≤ start → start + len ≤ fileStart + fileLen →
      fileLen < 2 ^ 32 → fileStart + fileLen < 2 ^ 64 - 64 →
        ∃ bufs : List AlignedBuffer, streamReadWindows platform file start len fileStart fileLen = .ok (bufs.map .ok) ∧
          Covers bdt start len fileStart fileLen (nonempty bufs) := by
  intro h
  obtain ⟨bufs, hbufs, -⟩ := h .windows (fun len pos => .ok (some (window (fun _ => 0) pos len))) (fun _ => 0)
    (2 ^ 64 - 40100) 40000 (2 ^ 64 - 40100) 40000 (fun _ _ _ => rfl) (by decide) (by decide) (by decide) (by decide)
  have hpanic : streamReadWindows .windows (fun len pos => .ok (some (window (fun _ => 0) pos len)))
      (2 ^ 64 - 40100) 40000 (2 ^ 64 - 40100) 40000 = .error .panic :=
    streamReadWindows_eq_panic (endBounds_eq_ok.2 ⟨by decide, rfl, rfl⟩) (by decide) (by decide)
  cases hpanic.symm.trans hbufs

end

end Fsvfs.Dvdbnd
