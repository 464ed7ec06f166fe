/-
  The stream of a request, when the BDT is too short.

  A read at the end of the BDT or after it gives nothing, and no item comes of it.
  The stream has an error if the end is inside of a read (`CutsWindows`).

  * `Truncated.read_cases`: what comes of a read;
  * `Truncated.streamReadWindows`: the items before the request, those of the
    request and those after it (`Segments`).
-/
import Fsvfs.Dvdbnd.Sweep

namespace Fsvfs.Dvdbnd

open Lib Lib.Checked

/-! ## Streams with errors -/

/-- Polling a stream to its end. -/
def polled : BufferStream → Checked Unit
  | [] => .ok ()
  | item :: stream => do
    let _ ← item
    polled stream

theorem polled_eq_ok {stream : BufferStream} (h : polled stream = .ok ()) :
    ∃ bufs : List AlignedBuffer, stream = bufs.map .ok := by
  induction stream with
  | nil => exact ⟨[], rfl⟩
  | cons item stream ih =>
    rcases item with s | buf
    · cases h
    · obtain ⟨bufs, rfl⟩ := ih h
      exact ⟨buf :: bufs, rfl⟩

theorem polled_of_ok {stream : BufferStream} (h : ∀ s, .error s ∉ stream) : polled stream = .ok () := by
  induction stream with
  | nil => rfl
  | cons item stream ih =>
    rcases item with s | buf
    · exact absurd List.mem_cons_self (h s)
    · exact ih fun s hs => h s (List.mem_cons_of_mem _ hs)

theorem polled_of_error {stream : BufferStream} {s : Stop} (hmem : .error s ∈ stream)
    (h : ∀ s', .error s' ∈ stream → s' = s) : polled stream = .error s := by
  induction stream with
  | nil => exact nomatch hmem
  | cons item stream ih =>
    rcases item with s' | buf
    · rw [h s' List.mem_cons_self]
      rfl
    · refine ih ?_ fun s' hs => h s' (List.mem_cons_of_mem _ hs)
      rcases List.mem_cons.1 hmem with heq | hmem
      · cases heq
      · exact hmem

/-- The lengths of some buffers together. -/
def lengths (bufs : List AlignedBuffer) : ℕ := (bufs.map fun b => b.bytes.length).sum

theorem lengths_cons (b : AlignedBuffer) (bufs : List AlignedBuffer) :
    lengths (b :: bufs) = b.bytes.length + lengths bufs := List.sum_cons

/-- A buffer of a part of a file up to an end. -/
structure AlignedBuffer.UpTo (b : AlignedBuffer) (stop : ℕ) : Prop where
  nonneg : 0 ≤ b.offset
  ne_nil : b.bytes ≠ []
  le : b.offset + b.bytes.length ≤ stop

/-! ## Truncated archives -/

/-- A BDT of some length.  A read at its end or after it gives nothing; another read
    fails, or gives some of the bytes up to the end. -/
structure Truncated (file : ReadManagedAt) (bdtLen : ℕ) : Prop where
  past : ∀ len pos, 0 < len → bdtLen ≤ pos → file len pos = .ok none
  inside : ∀ len pos, 0 < len → pos < bdtLen → file len pos = .error () ∨
    ∃ buf, file len pos = .ok (some buf) ∧ buf.length ≤ len ∧ pos + buf.length ≤ bdtLen

/-- Reads that give all there is. -/
def available (bdtLen : ℕ) : ReadManagedAt := fun len pos =>
  if bdtLen ≤ pos then .ok none else .ok (some (List.replicate (min len (bdtLen - pos)) 0))

theorem truncated_available (bdtLen : ℕ) : Truncated (available bdtLen) bdtLen where
  past := fun len pos _ hle => if_pos hle
  inside := fun len pos _ hlt => by
    refine .inr ⟨List.replicate (min len (bdtLen - pos)) 0, if_neg (Nat.not_le.2 hlt), ?_, ?_⟩
    · rw [List.length_replicate]
      exact Nat.min_le_left _ _
    · rw [List.length_replicate]
      omega

section
variable {file : ReadManagedAt} {bdtLen fileStart len pos : ℕ}

/-- **What comes of a read**: no item after the end, or else an error or all of the
    bytes, which must be there. -/
theorem Truncated.read_cases (h : Truncated file bdtLen) (hlen : 0 < len)
    (hge : -2 ^ 63 ≤ (pos : ℤ) - fileStart) (hlt : (pos : ℤ) - fileStart < 2 ^ 63) :
    bdtLen ≤ pos ∧ read file len pos fileStart = none ∨
      pos < bdtLen ∧ read file len pos fileStart = some (.error .error) ∨
        pos + len ≤ bdtLen ∧ ∃ buf, buf.length = len ∧
          read file len pos fileStart = some (.ok ⟨buf, (pos : ℤ) - fileStart⟩) := by
  have hdiff : checkedSignedDiff pos fileStart = some ((pos : ℤ) - fileStart) := if_pos ⟨hge, hlt⟩
  rw [read, if_neg (by omega), hdiff]
  dsimp only
  by_cases hpast : bdtLen ≤ pos
  · left
    rw [h.past len pos hlen hpast]
    exact ⟨hpast, rfl⟩
  · right
    have hinside : pos < bdtLen := Nat.lt_of_not_le hpast
    rcases h.inside len pos hlen hinside with herr | ⟨buf, hbuf, hle, hend⟩
    · left
      rw [herr]
      exact ⟨hinside, rfl⟩
    · rw [hbuf]
      dsimp only [Option.map_some]
      by_cases hfull : buf.length ≥ len
      · right
        rw [if_pos hfull]
        exact ⟨by omega, buf, by omega, rfl⟩
      · left
        rw [if_neg hfull]
        exact ⟨hinside, rfl⟩

/-- A read that the end does not cut works. -/
theorem read_available (hlen : 0 < len) (hge : -2 ^ 63 ≤ (pos : ℤ) - fileStart)
    (hlt : (pos : ℤ) - fileStart < 2 ^ 63) (hcut : ¬ (pos < bdtLen ∧ bdtLen < pos + len)) :
    ∀ s, read (available bdtLen) len pos fileStart ≠ some (.error s) := by
  intro s
  have hdiff : checkedSignedDiff pos fileStart = some ((pos : ℤ) - fileStart) := if_pos ⟨hge, hlt⟩
  rw [read, if_neg (by omega), hdiff, available]
  dsimp only
  split_ifs with hle
  · simp
  · have hfull : (List.replicate (min len (bdtLen - pos)) (0 : UInt8)).length ≥ len := by
      rw [List.length_replicate]
      omega
    simp only [Option.map_some, if_pos hfull]
    simp

end

/-! ## Chunks -/

/-- The chunks that the end of a BDT cuts. -/
theorem cut_chunks_iff {bdtLen start stop : ℕ} (hend : bdtLen < stop) :
    (∃ e ∈ chunks start stop, e.2 < bdtLen ∧ bdtLen < e.2 + e.1) ↔
      start < bdtLen ∧ ¬ BUFFER_LEN ∣ bdtLen - start := by
  have hsize : BUFFER_LEN = 32768 := rfl
  induction start using chunks_induction stop with
  | nil start hle =>
    rw [chunks_of_le hle]
    exact iff_of_false (fun h => nomatch h) fun h => by omega
  | cons start hlt ih =>
    rw [chunks_of_lt hlt, List.exists_mem_cons_iff]
    refine (or_congr_right ih).trans ?_
    rw [hsize]
    dsimp only
    omega

section
variable {file : ReadManagedAt} {bdtLen fileStart start stop : ℕ}

variable (file fileStart start stop) in
/-- The items of the chunks of a request. -/
def chunkReads : BufferStream := (chunks start stop).filterMap fun (len, pos) => read file len pos fileStart

theorem chunkReads_of_le (h : stop ≤ start) : chunkReads file fileStart start stop = [] := by
  rw [chunkReads, chunks_of_le h]
  rfl

theorem mem_chunkReads {item : Checked AlignedBuffer} : item ∈ chunkReads file fileStart start stop ↔
    ∃ len pos, (len, pos) ∈ chunks start stop ∧ read file len pos fileStart = some item := by
  rw [chunkReads, List.mem_filterMap]
  exact ⟨fun ⟨⟨len, pos⟩, h⟩ => ⟨len, pos, h⟩, fun ⟨len, pos, h⟩ => ⟨(len, pos), h⟩⟩

variable (hstart : fileStart ≤ start) (hstop : stop < fileStart + 2 ^ 32)
include hstart hstop

/-- What is in the stream of the chunks. -/
theorem Truncated.chunkReads (h : Truncated file bdtLen) :
    (∀ s, .error s ∈ Dvdbnd.chunkReads file fileStart start stop → s = .error) ∧
      ∀ b, .ok b ∈ Dvdbnd.chunkReads file fileStart start stop →
        (start : ℤ) - fileStart ≤ b.offset ∧ b.UpTo (stop - fileStart) := by
  constructor
  · intro s hs
    obtain ⟨len, pos, hmem, hread⟩ := mem_chunkReads.1 hs
    obtain ⟨hge, hlen, hle⟩ := mem_chunks hmem
    obtain ⟨-, heq⟩ | ⟨-, heq⟩ | ⟨-, buf, -, heq⟩ :=
      @Truncated.read_cases _ _ fileStart len pos h hlen (by omega) (by omega)
    · rw [heq] at hread
      cases hread
    · rw [heq] at hread
      cases hread
      rfl
    · rw [heq] at hread
      cases hread
  · intro b hb
    obtain ⟨len, pos, hmem, hread⟩ := mem_chunkReads.1 hb
    obtain ⟨hge, hlen, hle⟩ := mem_chunks hmem
    obtain ⟨-, heq⟩ | ⟨-, heq⟩ | ⟨-, buf, hbuf, heq⟩ :=
      @Truncated.read_cases _ _ fileStart len pos h hlen (by omega) (by omega)
    · rw [heq] at hread
      cases hread
    · rw [heq] at hread
      cases hread
    · rw [heq] at hread
      cases hread
      refine ⟨by dsimp only; omega, by dsimp only; omega, fun hnil => ?_, by dsimp only; omega⟩
      rw [show buf = [] from hnil, List.length_nil] at hbuf
      omega

/-- The chunks that are there. -/
theorem Truncated.lengths_chunkReads (h : Truncated file bdtLen) {bufs : List AlignedBuffer}
    (hbufs : Dvdbnd.chunkReads file fileStart start stop = bufs.map .ok) :
    lengths bufs = min stop bdtLen - start := by
  have hsize : BUFFER_LEN = 32768 := rfl
  induction start using chunks_induction stop generalizing bufs with
  | nil start hle =>
    rw [chunkReads_of_le hle] at hbufs
    obtain rfl := List.map_eq_nil_iff.1 hbufs.symm
    rw [show min stop bdtLen - start = 0 by omega]
    rfl
  | cons start hlt ih =>
    rw [Dvdbnd.chunkReads, chunks_of_lt hlt, List.filterMap_cons] at hbufs
    dsimp only at hbufs
    obtain ⟨hpast, heq⟩ | ⟨-, heq⟩ | ⟨hend, buf, hbuf, heq⟩ := @Truncated.read_cases _ _ fileStart
      (min (stop - start) BUFFER_LEN) start h (by omega) (by omega) (by omega)
    · rw [heq] at hbufs
      rw [ih (by omega) hbufs]
      omega
    · rw [heq] at hbufs
      rcases bufs with _ | ⟨b, bufs⟩
      · cases hbufs
      · cases hbufs
    · rw [heq] at hbufs
      rcases bufs with _ | ⟨b, bufs⟩
      · cases hbufs
      · obtain ⟨hb, hrest⟩ := List.cons.inj hbufs
        cases hb
        rw [lengths_cons, ih (by omega) hrest, hbuf]
        omega

/-- The end of the BDT cuts a chunk. -/
theorem Truncated.error_mem_chunkReads (h : Truncated file bdtLen) (hend : bdtLen < stop)
    (hlt : start < bdtLen) (hcut : ¬ BUFFER_LEN ∣ bdtLen - start) :
    .error .error ∈ Dvdbnd.chunkReads file fileStart start stop := by
  obtain ⟨⟨len, pos⟩, hmem, hpos, hlen⟩ := (cut_chunks_iff hend).2 ⟨hlt, hcut⟩
  dsimp only at hpos hlen
  obtain ⟨hge, -, hle⟩ := mem_chunks hmem
  refine mem_chunkReads.2 ⟨len, pos, hmem, ?_⟩
  obtain ⟨hpast, -⟩ | ⟨-, heq⟩ | ⟨hinside, -⟩ :=
    @Truncated.read_cases _ _ fileStart len pos h (by omega) (by omega) (by omega)
  · omega
  · exact heq
  · omega

/-- The end of the BDT cuts no chunk. -/
theorem error_notMem_chunkReads (hend : bdtLen < stop) (hcut : start < bdtLen → BUFFER_LEN ∣ bdtLen - start) :
    ∀ s, .error s ∉ Dvdbnd.chunkReads (available bdtLen) fileStart start stop := by
  intro s hs
  obtain ⟨len, pos, hmem, hread⟩ := mem_chunkReads.1 hs
  obtain ⟨hge, hlen, hle⟩ := mem_chunks hmem
  refine read_available hlen (by omega) (by omega) (fun hpos => ?_) s hread
  obtain ⟨hlt, hdvd⟩ := (cut_chunks_iff hend).1 ⟨(len, pos), hmem, hpos⟩
  exact hdvd (hcut hlt)

end

/-! ## The parts of a stream -/

/-- The items before a request, those of the request, and those after it.  Positions
    are those in the file, and a BDT ends at `fileEnd`. -/
structure Segments (fileEnd o l : ℕ) (pre body post : BufferStream) : Prop where
  error : ∀ s, .error s ∈ pre ++ body ++ post → s = .error
  pre_length : pre.length ≤ 1
  pre_lt : ∀ b : AlignedBuffer, .ok b ∈ pre → b.offset < o
  body_mem : ∀ b : AlignedBuffer, .ok b ∈ body → o ≤ b.offset ∧ b.UpTo (o + l)
  post_ge : ∀ b : AlignedBuffer, .ok b ∈ post → ((o + l : ℕ) : ℤ) ≤ b.offset
  lengths : ∀ bufs : List AlignedBuffer, body = bufs.map .ok → lengths bufs = min (o + l) fileEnd - o

namespace Segments

section
variable {fileEnd o l : ℕ}

/-- Buffers, and no error. -/
theorem of_map {P B S : List AlignedBuffer} (hlen : P.length ≤ 1) (hpre : ∀ b ∈ P, b.offset < o)
    (hbody : ∀ b ∈ B, o ≤ b.offset ∧ b.UpTo (o + l)) (hpost : ∀ b ∈ S, ((o + l : ℕ) : ℤ) ≤ b.offset)
    (hlengths : Dvdbnd.lengths B = min (o + l) fileEnd - o) :
    Segments fileEnd o l (P.map .ok) (B.map .ok) (S.map .ok) := by
  have hinj : Function.Injective (Except.ok : AlignedBuffer → Checked AlignedBuffer) :=
    fun _ _ h => Except.ok.inj h
  refine ⟨fun s hs => ?_, by rwa [List.length_map], fun b hb => ?_, fun b hb => ?_, fun b hb => ?_, fun bufs hbufs => ?_⟩
  · rw [← List.map_append, ← List.map_append] at hs
    obtain ⟨b, -, hb⟩ := List.mem_map.1 hs
    cases hb
  · exact hpre b ((List.mem_map_of_injective hinj).1 hb)
  · exact hbody b ((List.mem_map_of_injective hinj).1 hb)
  · exact hpost b ((List.mem_map_of_injective hinj).1 hb)
  · rwa [← List.map_injective_iff.2 hinj hbufs]

theorem of_nil (h : fileEnd ≤ o) : Segments fileEnd o l [] [] [] := by
  refine @of_map fileEnd o l [] [] [] (Nat.zero_le _) (List.forall_mem_nil _) (List.forall_mem_nil _)
    (List.forall_mem_nil _) ?_
  show 0 = _
  omega

/-- Only an error. -/
theorem of_error : Segments fileEnd o l [] [.error .error] [] := by
  refine ⟨fun s hs => ?_, Nat.zero_le _, fun b hb => absurd hb List.not_mem_nil, fun b hb => ?_,
    fun b hb => absurd hb List.not_mem_nil, fun bufs hbufs => ?_⟩
  · cases List.mem_singleton.1 hs
    rfl
  · cases List.mem_singleton.1 hb
  · rcases bufs with _ | ⟨b, bufs⟩ <;> cases hbufs

/-- The parts of a window that is not cut. -/
theorem of_window (F : ℕ → UInt8) {pos n m : ℕ} {offset : ℤ} (hoffset : offset < o)
    (hinside : o + l ≤ fileEnd) : ∃ pre body post, [(⟨window F pos n, offset⟩ : AlignedBuffer),
      ⟨window F (pos + n) l, o⟩, ⟨window F (pos + n + l) m, o + l⟩].map .ok = pre ++ body ++ post ∧
      Segments fileEnd o l pre body post := by
  have hpre : ∀ b ∈ [(⟨window F pos n, offset⟩ : AlignedBuffer)], b.offset < o :=
    List.forall_mem_singleton.2 hoffset
  by_cases hzero : l = 0
  · subst hzero
    refine ⟨_, _, _, rfl, @of_map fileEnd o 0 [_] [] [_, _] (Nat.le_refl _) hpre (List.forall_mem_nil _) ?_ ?_⟩
    · refine List.forall_mem_cons.2 ⟨Int.le_refl _, List.forall_mem_singleton.2 ?_⟩
      exact Int.le_of_eq (Nat.cast_add o 0)
    · show 0 = _
      omega
  · refine ⟨_, _, _, rfl, @of_map fileEnd o l [_] [_] [_] (Nat.le_refl _) hpre ?_ ?_ ?_⟩
    · refine List.forall_mem_singleton.2 ⟨Int.le_refl _, Int.natCast_nonneg _, fun hnil => ?_, ?_⟩
      · have hlen := congrArg List.length hnil
        rw [length_window, List.length_nil] at hlen
        exact hzero hlen
      · rw [length_window]
        exact Int.le_of_eq (Nat.cast_add o l).symm
    · exact List.forall_mem_singleton.2 (Int.le_of_eq (Nat.cast_add o l))
    · rw [lengths_cons, length_window]
      show l + 0 = _
      omega

end

variable {fileEnd o l : ℕ} {pre body post : BufferStream} (h : Segments fileEnd o l pre body post)
include h

theorem error_body (s : Stop) (hs : .error s ∈ body) : s = .error :=
  h.error s (List.mem_append_left _ (List.mem_append_right _ hs))

/-- The buffers of the request are those between its ends. -/
theorem placed : ∀ b, .ok b ∈ pre ++ body ++ post → b.Placed o (o + l) := by
  intro b hb
  rcases List.mem_append.1 hb with hb | hb
  · rcases List.mem_append.1 hb with hb | hb
    · exact .inl (h.pre_lt b hb)
    · obtain ⟨-, -, hne, hle⟩ := h.body_mem b hb
      exact .inr (.inr ⟨hne, hle⟩)
  · exact .inr (.inl (h.post_ge b hb))

/-- The stream ends with an error or with its end. -/
theorem polled_of_error {s : Stop} (hmem : .error s ∈ pre ++ body ++ post) :
    polled (pre ++ body ++ post) = .error .error := by
  obtain rfl := h.error s hmem
  exact Dvdbnd.polled_of_error hmem h.error

end Segments

section
variable {file : ReadManagedAt} {bdtLen fileStart fileLen o l : ℕ} {platform : Platform}

/-- The chunks of a request. -/
theorem Truncated.segments_chunkReads (h : Truncated file bdtLen) (hstop : o + l < 2 ^ 32) :
    Segments (bdtLen - fileStart) o l [] (Dvdbnd.chunkReads file fileStart (fileStart + o) (fileStart + o + l)) [] := by
  have hstart : fileStart ≤ fileStart + o := Nat.le_add_right _ _
  have hlt : fileStart + o + l < fileStart + 2 ^ 32 := by omega
  obtain ⟨herror, hmem⟩ := h.chunkReads hstart hlt
  have hrel : fileStart + o + l - fileStart = o + l := by omega
  rw [hrel] at hmem
  refine ⟨?_, Nat.zero_le 1, fun b hb => (nomatch hb), fun b hb => ?_, fun b hb => (nomatch hb), fun bufs hbufs => ?_⟩
  · rw [List.nil_append, List.append_nil]
    exact herror
  · obtain ⟨hge, hupTo⟩ := hmem b hb
    exact ⟨by push_cast at hge; omega, hupTo⟩
  · rw [h.lengths_chunkReads hstart hlt hbufs]
    omega

/-- Any bytes are a window of a sequence. -/
theorem exists_window (bytes : List UInt8) (pos : ℕ) : ∃ F, bytes = window F pos bytes.length := by
  refine ⟨fun i => bytes.getD (i - pos) 0, eq_window _ rfl fun i hi => ?_⟩
  rw [Nat.add_sub_cancel_left, List.getD_eq_getElem?_getD, List.getElem?_eq_getElem hi, Option.getD_some]

/-- **One window**: it is not cut, or there is no item or an error. -/
theorem Truncated.streamReadOneWindow (h : Truncated file bdtLen) (hstop : o + l < 2 ^ 32)
    (hbounds : endBounds (fileStart + o) l fileStart fileLen = .ok (fileStart + o + l, fileStart + fileLen))
    (hone : platform.OneWindow (fileStart + o) l) : ∃ pre body post,
      Dvdbnd.streamReadOneWindow platform file (fileStart + o) l fileStart (fileStart + fileLen) =
        .ok (some (pre ++ body ++ post)) ∧ Segments (bdtLen - fileStart) o l pre body post ∧
      (bdtLen ≤ fileStart + o - platform.windowSize → pre ++ body ++ post = []) ∧
      (bdtLen < fileStart + o + l → fileStart + o - platform.windowSize < bdtLen →
        ∃ s, .error s ∈ pre ++ body ++ post) := by
  obtain ⟨⟨hadd, hend, -, hle⟩, -⟩ := endBounds_eq_ok.1 hbounds
  obtain ⟨hW, hW'⟩ := platform.windowSize_le
  obtain ⟨hmax, hpos⟩ := hone
  obtain ⟨m, hm⟩ : ∃ m, min (min (2 ^ 64 - 1) (fileStart + o + l + platform.windowSize)) (fileStart + fileLen) =
      fileStart + o + l + m := Nat.exists_eq_add_of_le (by omega)
  have hlen : fileStart + o + l + m - (fileStart + o - platform.windowSize) = platform.windowSize + (l + m) := by
    omega
  rw [Dvdbnd.streamReadOneWindow, if_neg (by omega), if_neg (by omega), add_of_lt hadd, ok_bind]
  dsimp only
  rw [hm, hlen]
  obtain ⟨hpast, heq⟩ | ⟨hinside, heq⟩ | ⟨hfull, buf, hbuf, heq⟩ := @Truncated.read_cases file bdtLen fileStart
    (platform.windowSize + (l + m)) (fileStart + o - platform.windowSize) h (by omega) (by omega) (by omega)
  · exact ⟨[], [], [], by rw [heq]; rfl, .of_nil (by omega), fun _ => rfl, fun _ _ => by omega⟩
  · exact ⟨[], [.error .error], [], by rw [heq]; rfl, .of_error, fun _ => by omega, fun _ _ => ⟨_, List.mem_cons_self⟩⟩
  · obtain ⟨F, hF⟩ := exists_window buf (fileStart + o - platform.windowSize)
    rw [hbuf] at hF
    have hoffset : ((fileStart + o - platform.windowSize : ℕ) : ℤ) - fileStart + platform.windowSize = o := by
      omega
    obtain ⟨pre, body, post, hparts, hsegments⟩ := @Segments.of_window (bdtLen - fileStart) o l F
      (fileStart + o - platform.windowSize) platform.windowSize m
      ((fileStart + o - platform.windowSize : ℕ) - fileStart) (by omega) (by omega)
    refine ⟨pre, body, post, ?_, hsegments, fun _ => by omega, fun _ _ => by omega⟩
    rw [heq, hF]
    dsimp only
    rw [splitWindow_eq, hoffset, ← hparts]

/-- The start of the bytes before a request. -/
def headOf (platform : Platform) (fileStart o : ℕ) : ℕ := max (fileStart + o - platform.windowSize) fileStart

/-- The end of a BDT that ends before an encrypted request does cuts a read. -/
def CutsWindows (platform : Platform) (bdtLen fileStart o l : ℕ) : Prop :=
  if platform.OneWindow (fileStart + o) l then fileStart + o - platform.windowSize < bdtLen
  else headOf platform fileStart o < bdtLen ∧
    (bdtLen < fileStart + o ∨ ¬ BUFFER_LEN ∣ bdtLen - (fileStart + o))

instance (platform : Platform) (bdtLen fileStart o l : ℕ) :
    Decidable (CutsWindows platform bdtLen fileStart o l) := by
  unfold CutsWindows
  infer_instance

/-- The items before and after a request. -/
theorem streamReadWindows_of_not (file : ReadManagedAt)
    (hbounds : endBounds (fileStart + o) l fileStart fileLen = .ok (fileStart + o + l, fileStart + fileLen))
    (hone : ¬ platform.OneWindow (fileStart + o) l)
    (hlimit : fileStart + o + l + platform.windowSize < 2 ^ 64) : ∃ m, streamReadWindows platform file
      (fileStart + o) l fileStart fileLen =
        .ok ((read file (fileStart + o - headOf platform fileStart o) (headOf platform fileStart o) fileStart).toList ++
          chunkReads file fileStart (fileStart + o) (fileStart + o + l) ++
            (read file m (fileStart + o + l) fileStart).toList) := by
  obtain ⟨⟨-, -, hstart, hle⟩, -⟩ := endBounds_eq_ok.1 hbounds
  refine ⟨min (fileStart + o + l + platform.windowSize) (fileStart + fileLen) - (fileStart + o + l), ?_⟩
  rw [streamReadWindows_of_bounds hbounds, streamReadOneWindow_eq_none hone, ok_bind]
  exact streamReadParts_of_le file hstart hle hlimit

/-- A read of some bytes at most. -/
theorem Truncated.read_toList (h : Truncated file bdtLen) {len pos : ℕ}
    (hge : -2 ^ 63 ≤ (pos : ℤ) - fileStart) (hlt : (pos : ℤ) - fileStart < 2 ^ 63) :
    (∀ s, .error s ∈ (read file len pos fileStart).toList → s = .error) ∧
      ∀ b, .ok b ∈ (read file len pos fileStart).toList → 0 < len ∧ b.offset = (pos : ℤ) - fileStart := by
  rcases Nat.eq_zero_or_pos len with rfl | hlen
  · rw [read_zero]
    exact ⟨nofun, nofun⟩
  · obtain ⟨-, heq⟩ | ⟨-, heq⟩ | ⟨-, buf, -, heq⟩ :=
      @Truncated.read_cases _ _ fileStart len pos h hlen hge hlt
    · rw [heq]
      exact ⟨nofun, nofun⟩
    · rw [heq]
      refine ⟨fun s hs => ?_, fun b hb => ?_⟩
      · cases List.mem_singleton.1 hs
        rfl
      · cases List.mem_singleton.1 hb
    · rw [heq]
      refine ⟨fun s hs => ?_, fun b hb => ?_⟩
      · cases List.mem_singleton.1 hs
      · cases List.mem_singleton.1 hb
        exact ⟨hlen, rfl⟩

/-- **The stream of an encrypted file.** -/
theorem Truncated.streamReadWindows (h : Truncated file bdtLen) (hstop : o + l < 2 ^ 32)
    (hbounds : endBounds (fileStart + o) l fileStart fileLen = .ok (fileStart + o + l, fileStart + fileLen))
    (hwindows : platform.OneWindow (fileStart + o) l ∨ fileStart + o + l + platform.windowSize < 2 ^ 64) :
    ∃ pre body post,
      Dvdbnd.streamReadWindows platform file (fileStart + o) l fileStart fileLen = .ok (pre ++ body ++ post) ∧
      Segments (bdtLen - fileStart) o l pre body post ∧
      (bdtLen < fileStart + o + l → CutsWindows platform bdtLen fileStart o l →
        ∃ s, .error s ∈ pre ++ body ++ post) := by
  by_cases hone : platform.OneWindow (fileStart + o) l
  · obtain ⟨pre, body, post, hstream, hsegments, -, herror⟩ := h.streamReadOneWindow hstop hbounds hone
    refine ⟨pre, body, post, ?_, hsegments, fun hpast hcut => herror hpast ?_⟩
    · rw [Dvdbnd.streamReadWindows, hbounds, ok_bind]
      dsimp only
      rw [hstream, ok_bind]
    · rwa [CutsWindows, if_pos hone] at hcut
  · obtain ⟨m, hstream⟩ := streamReadWindows_of_not file hbounds hone (hwindows.resolve_left hone)
    obtain ⟨hW, hW'⟩ := platform.windowSize_le
    have hhead : fileStart ≤ headOf platform fileStart o ∧ headOf platform fileStart o ≤ fileStart + o := by
      rw [headOf]
      omega
    have hchunks := @Truncated.segments_chunkReads file bdtLen fileStart o l h hstop
    obtain ⟨hpre, hpre'⟩ := @Truncated.read_toList _ _ fileStart h (fileStart + o - headOf platform fileStart o)
      (headOf platform fileStart o) (by omega) (by omega)
    obtain ⟨hpost, hpost'⟩ := @Truncated.read_toList _ _ fileStart h m (fileStart + o + l) (by omega) (by omega)
    refine ⟨_, _, _, hstream, ⟨fun s hs => ?_, ?_, fun b hb => ?_, hchunks.body_mem, fun b hb => ?_,
      hchunks.lengths⟩, fun hpast hcut => ?_⟩
    · rcases List.mem_append.1 hs with hs | hs
      · rcases List.mem_append.1 hs with hs | hs
        · exact hpre s hs
        · exact hchunks.error_body s hs
      · exact hpost s hs
    · exact Option.length_toList_le
    · obtain ⟨hlen, hoffset⟩ := hpre' b hb
      omega
    · obtain ⟨-, hoffset⟩ := hpost' b hb
      omega
    · rw [CutsWindows, if_neg hone] at hcut
      obtain ⟨hlt, hcut⟩ := hcut
      by_cases hbefore : bdtLen < fileStart + o
      · refine ⟨.error, List.mem_append_left _ (List.mem_append_left _ ?_)⟩
        obtain ⟨hpast, -⟩ | ⟨-, heq⟩ | ⟨hfull, -⟩ := @Truncated.read_cases _ _ fileStart
          (fileStart + o - headOf platform fileStart o) (headOf platform fileStart o) h (by omega) (by omega)
          (by omega)
        · omega
        · rw [heq]
          exact List.mem_cons_self
        · omega
      · have hdvd := hcut.resolve_left hbefore
        have hstart : fileStart + o < bdtLen := by
          by_contra hnot
          rw [show bdtLen - (fileStart + o) = 0 by omega] at hdvd
          exact hdvd (Nat.dvd_zero _)
        exact ⟨.error, List.mem_append_left _ (List.mem_append_right _
          (h.error_mem_chunkReads (Nat.le_add_right _ _) (by omega) hpast hstart hdvd))⟩

/-- No read of what is there is cut. -/
theorem error_notMem_streamReadWindows
    (hbounds : endBounds (fileStart + o) l fileStart fileLen = .ok (fileStart + o + l, fileStart + fileLen))
    (hstop : o + l < 2 ^ 32)
    (hwindows : platform.OneWindow (fileStart + o) l ∨ fileStart + o + l + platform.windowSize < 2 ^ 64)
    (hpast : bdtLen < fileStart + o + l) (hcut : ¬ CutsWindows platform bdtLen fileStart o l) :
    ∃ stream, streamReadWindows platform (available bdtLen) (fileStart + o) l fileStart fileLen = .ok stream ∧
      ∀ s, .error s ∉ stream := by
  by_cases hone : platform.OneWindow (fileStart + o) l
  · rw [CutsWindows, if_pos hone, not_lt] at hcut
    obtain ⟨pre, body, post, hstream, -, hnil, -⟩ :=
      (truncated_available bdtLen).streamReadOneWindow hstop hbounds hone
    refine ⟨pre ++ body ++ post, ?_, ?_⟩
    · rw [streamReadWindows, hbounds, ok_bind]
      dsimp only
      rw [hstream, ok_bind]
    · rw [hnil hcut]
      exact fun s hs => absurd hs List.not_mem_nil
  · obtain ⟨m, hstream⟩ :=
      streamReadWindows_of_not (available bdtLen) hbounds hone (hwindows.resolve_left hone)
    obtain ⟨hW, hW'⟩ := platform.windowSize_le
    have hhead : fileStart ≤ headOf platform fileStart o ∧ headOf platform fileStart o ≤ fileStart + o := by
      rw [headOf]
      omega
    rw [CutsWindows, if_neg hone] at hcut
    have hread : ∀ {len pos : ℕ}, -2 ^ 63 ≤ (pos : ℤ) - fileStart → (pos : ℤ) - fileStart < 2 ^ 63 →
        ¬ (pos < bdtLen ∧ bdtLen < pos + len) →
          ∀ s, .error s ∉ (read (available bdtLen) len pos fileStart).toList := by
      intro len pos hge hlt hnot s hs
      rcases Nat.eq_zero_or_pos len with rfl | hlen
      · rw [read_zero] at hs
        cases hs
      · exact read_available hlen hge hlt hnot s (Option.mem_toList.1 hs)
    refine ⟨_, hstream, fun s hs => ?_⟩
    rcases List.mem_append.1 hs with hs | hs
    · rcases List.mem_append.1 hs with hs | hs
      · exact hread (by omega) (by omega) (fun h => hcut ⟨h.1, .inl (by omega)⟩) s hs
      · refine error_notMem_chunkReads (Nat.le_add_right _ _) (by omega) hpast (fun hlt => ?_) s hs
        by_contra hdvd
        exact hcut ⟨by omega, .inr hdvd⟩
    · exact hread (by omega) (by omega) (fun h => by omega) s hs

end

end Fsvfs.Dvdbnd
