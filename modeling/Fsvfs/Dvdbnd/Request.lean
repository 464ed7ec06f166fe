/-
  What a request to read a file comes down to.

  Positions are those in the file, whose stored bytes are a function `F`.  A
  request of `len` bytes from `start` on is read in chunks (`chunkBuffers`).

  * `readFile_plain` and `readFile_encrypted`: what `read_file` does with a request
    inside of the file;
  * `callbacks_tile`: the slices that are handed over tile the request.
-/
import Fsvfs.Dvdbnd.Sweep

namespace Fsvfs.Dvdbnd

open Lib Lib.Checked Traced

namespace DvdbndFile
variable (file : DvdbndFile) (fileOffset : UInt64) (len : UInt32)

/-- The offset that `read_file` reads from. -/
def readOffset : ℕ := min fileOffset.toNat file.getUnpaddedLen.toNat

/-- The length that `read_file` reads. -/
def readLen : ℕ := min len.toNat (file.getUnpaddedLen.toNat - file.readOffset fileOffset)

theorem readEnd_lt : file.readOffset fileOffset + file.readLen fileOffset len < 2 ^ 32 := by
  have hlt := file.getUnpaddedLen.toNat_lt
  rw [readLen, readOffset]
  omega

/-- The file ends before the 64-bit positions do, and the request is inside of
    the stored file. -/
def InBounds (o l : ℕ) : Prop :=
  file.dataOffset.toNat + file.len.toNat < 2 ^ 64 ∧ o + l ≤ file.len.toNat

instance (o l : ℕ) : Decidable (file.InBounds o l) := inferInstanceAs (Decidable (_ ∧ _))

/-- There is room for the windows of the request. -/
def HasWindows (platform : Platform) (o l : ℕ) : Prop :=
  platform.OneWindow (file.dataOffset.toNat + o) l ∨
    file.dataOffset.toNat + o + l + platform.windowSize < 2 ^ 64

instance (platform : Platform) (o l : ℕ) : Decidable (file.HasWindows platform o l) :=
  inferInstanceAs (Decidable (_ ∨ _))

end DvdbndFile

/-! ## Chunks of a file -/

/-- The buffers of a part of a file. -/
def chunkBuffers (F : ℕ → UInt8) (start stop : ℕ) : List AlignedBuffer :=
  (chunks start stop).map fun (len, pos) => ⟨window F pos len, pos⟩

section
variable {F bdt : ℕ → UInt8} {start stop : ℕ}

theorem chunkBuffers_of_le (h : stop ≤ start) : chunkBuffers F start stop = [] := by
  rw [chunkBuffers, chunks_of_le h]
  rfl

theorem chunkBuffers_of_lt (h : start < stop) : chunkBuffers F start stop =
    ⟨window F start (min (stop - start) BUFFER_LEN), start⟩ ::
      chunkBuffers F (start + BUFFER_LEN) stop := by
  rw [chunkBuffers, chunks_of_lt h, List.map_cons, ← chunkBuffers]

/-- The chunks of a file in its BDT. -/
theorem map_bufferAt (fileStart : ℕ) :
    ((chunks (fileStart + start) (fileStart + stop)).map fun (len, pos) => bufferAt bdt fileStart len pos) =
      chunkBuffers (fun i => bdt (fileStart + i)) start stop := by
  rw [chunks_add, List.map_map, chunkBuffers]
  refine List.map_congr_left fun ⟨len, pos⟩ _ => ?_
  show bufferAt bdt fileStart len (fileStart + pos) = ⟨_, _⟩
  rw [bufferAt]
  congr 1
  · refine List.map_congr_left fun i _ => ?_
    rw [Nat.add_assoc]
  · push_cast
    omega

theorem placed_chunkBuffers : ∀ b ∈ chunkBuffers F start stop, b.Placed start stop := by
  intro b hb
  obtain ⟨⟨len, pos⟩, hmem, rfl⟩ := List.mem_map.1 hb
  obtain ⟨-, hpos, hle⟩ := mem_chunks hmem
  refine .inr (.inr ⟨fun h => ?_, ?_⟩)
  · have := congrArg List.length h
    rw [length_window] at this
    exact absurd this (by simpa using Nat.ne_of_gt hpos)
  · show (pos : ℤ) + (window F pos len).length ≤ stop
    rw [length_window]
    exact_mod_cast hle

end

/-! ## Runs -/

/-- The callback calls of a run. -/
def callbacks (events : List Event) : List (List UInt8 × ℕ) := events.filterMap fun
  | .callback buffer fileOffset => some (buffer, fileOffset)
  | .decrypt _ => none

/-- The ciphertexts of a run. -/
def ciphertexts (events : List Event) : List Ciphertext := events.filterMap fun
  | .callback .. => none
  | .decrypt ciphertext => some ciphertext

@[simp] theorem callbacks_callback (buffer : List UInt8) (fileOffset : ℕ) (es : List Event) :
    callbacks (.callback buffer fileOffset :: es) = (buffer, fileOffset) :: callbacks es := rfl

@[simp] theorem callbacks_decrypt (ciphertext : Ciphertext) (es : List Event) :
    callbacks (.decrypt ciphertext :: es) = callbacks es := rfl

@[simp] theorem ciphertexts_callback (buffer : List UInt8) (fileOffset : ℕ) (es : List Event) :
    ciphertexts (.callback buffer fileOffset :: es) = ciphertexts es := rfl

@[simp] theorem ciphertexts_decrypt (ciphertext : Ciphertext) (es : List Event) :
    ciphertexts (.decrypt ciphertext :: es) = ciphertext :: ciphertexts es := rfl

@[simp] theorem callbacks_append (es es' : List Event) :
    callbacks (es ++ es') = callbacks es ++ callbacks es' := List.filterMap_append

@[simp] theorem ciphertexts_append (es es' : List Event) :
    ciphertexts (es ++ es') = ciphertexts es ++ ciphertexts es' := List.filterMap_append

/-- The callback is called with the bytes of the buffers. -/
theorem readPlain_chunkBuffers {F : ℕ → UInt8} {start stop : ℕ} (hstop : stop < 2 ^ 32) :
    readPlain (clip stop) ((chunkBuffers F start stop).map .ok) =
      emit ((chunkBuffers F start stop).map fun b => .callback b.bytes b.offset.toNat) := by
  induction start using chunks_induction stop with
  | nil start hle =>
    rw [chunkBuffers_of_le hle]
    rfl
  | cons start hlt ih =>
    have hsize : BUFFER_LEN = 32768 := rfl
    have hne : window F start (min (stop - start) BUFFER_LEN) ≠ [] := fun h => by
      have := congrArg List.length h
      rw [length_window, List.length_nil] at this
      omega
    have hclip : clip stop ⟨window F start (min (stop - start) BUFFER_LEN), start⟩ =
        emit [.callback (window F start (min (stop - start) BUFFER_LEN)) start] := by
      refine clip_eq (Int.natCast_nonneg _) hne ?_ hstop
      rw [length_window]
      dsimp only
      omega
    rw [chunkBuffers_of_lt hlt, List.map_cons, List.map_cons, readPlain, lift_ok_bind, hclip, ih,
      emit_bind_emit, Int.toNat_natCast, List.singleton_append]

namespace DvdbndMount
variable {mount : DvdbndMount} {inode fileOffset : UInt64} {len : UInt32} {file : DvdbndFile}

variable (mount inode file) in
/-- There is a file at an inode. -/
def IsFile : Prop :=
  ∃ entry, mount.fs.inner.entry inode = .ok entry ∧ entry.kind = .file (some file)

variable (mount file) in
/-- The run for a file and a request that is clamped. -/
def readAt (o l : ℕ) : Traced Event Unit := do
  let dataStart ← lift (add 64 file.dataOffset.toNat o)
  let stop ← lift (add 32 o l)
  let bdt ← lift (mount.bdts file.srcId)
  match file.encryptionId with
  | some encryptionId => mount.readAndDecryptFile file bdt dataStart l encryptionId (clip stop)
  | none => do
    let stream ← lift (streamRead bdt dataStart l file.dataOffset.toNat file.len.toNat)
    readPlain (clip stop) stream

theorem readFile_eq (hfile : mount.IsFile inode file) : mount.readFile inode fileOffset len =
    mount.readAt file (file.readOffset fileOffset) (file.readLen fileOffset len) := by
  obtain ⟨entry, hentry, hkind⟩ := hfile
  rw [readFile, hentry]
  dsimp only
  rw [hkind]
  rfl

theorem inBounds_iff {o l : ℕ} : file.InBounds o l ↔ file.dataOffset.toNat + o < 2 ^ 64 ∧
    endBounds (file.dataOffset.toNat + o) l file.dataOffset.toNat file.len.toNat =
      .ok (file.dataOffset.toNat + o + l, file.dataOffset.toNat + file.len.toNat) := by
  rw [endBounds_eq_ok, DvdbndFile.InBounds]
  omega

/-- Without the BDT, nothing happens. -/
theorem readAt_of_error {o l : ℕ} {s : Stop} (h : mount.bdts file.srcId = .error s) :
    ∃ s', mount.readAt file o l = lift (.error s') := by
  rw [readAt, h]
  rcases add 64 file.dataOffset.toNat o with s' | dataStart
  · exact ⟨s', rfl⟩
  · rcases add 32 o l with s' | stop
    · exact ⟨s', rfl⟩
    · exact ⟨s, rfl⟩

section
variable {reader : ReadManagedAt} {bdt : ℕ → UInt8} {o l : ℕ}

/-- **A request for a plain file.** -/
theorem readAt_plain (hstop : o + l < 2 ^ 32) (hplain : file.encryptionId = none)
    (hreader : mount.bdts file.srcId = .ok reader) (hexact : Exact reader bdt) (hin : file.InBounds o l) :
    mount.readAt file o l = emit ((chunkBuffers (fun i => bdt (file.dataOffset.toNat + i)) o (o + l)).map
      fun b => .callback b.bytes b.offset.toNat) := by
  obtain ⟨hadd, hbounds⟩ := inBounds_iff.1 hin
  rw [readAt, add_of_lt hadd, lift_ok_bind, add_of_lt hstop, lift_ok_bind, hreader, lift_ok_bind, hplain]
  dsimp only
  rw [streamRead_eq hexact hbounds file.len.toNat_lt, lift_ok_bind, Nat.add_assoc, map_bufferAt,
    readPlain_chunkBuffers hstop]

/-- The run for an encrypted file. -/
theorem readAt_of_id (hadd : file.dataOffset.toNat + o < 2 ^ 64) (hstop : o + l < 2 ^ 32)
    {id : EncryptionId} (hid : file.encryptionId = some id) (hreader : mount.bdts file.srcId = .ok reader) :
    mount.readAt file o l = (do
      let encryptionStore ← lift (expect (mount.fs.encryptionStore.get file.srcId))
      let stream ← lift (streamReadWindows mount.platform reader (file.dataOffset.toNat + o) l
        file.dataOffset.toNat file.len.toNat)
      decryptLoop o (o + l) (decrypt mount.aes encryptionStore id) (clip (o + l)) stream .default) := by
  have hsub : (file.dataOffset.toNat + o - file.dataOffset.toNat) % 2 ^ 32 = o := by
    rw [Nat.add_sub_cancel_left, Nat.mod_eq_of_lt (by omega)]
  rw [readAt, add_of_lt hadd, lift_ok_bind, add_of_lt hstop, lift_ok_bind, hreader, lift_ok_bind, hid]
  dsimp only
  rw [readAndDecryptFile, sub_of_le (Nat.le_add_right _ _), lift_ok_bind]
  dsimp only
  rw [hsub, add_of_lt hstop, lift_ok_bind]

/-- **A request for an encrypted file.** -/
theorem readAt_encrypted (hstop : o + l < 2 ^ 32) {id : EncryptionId} (hid : file.encryptionId = some id)
    {store : List UInt8} (hstore : mount.fs.encryptionStore.get file.srcId = some store)
    (hreader : mount.bdts file.srcId = .ok reader) (hexact : Exact reader bdt) (hin : file.InBounds o l)
    (hwindows : file.HasWindows mount.platform o l) :
    ∃ pre post, Pieces mount.platform bdt (file.dataOffset.toNat + o) l file.dataOffset.toNat
        file.len.toNat pre post ∧ mount.readAt file o l =
      if pre ++ chunkBuffers (fun i => bdt (file.dataOffset.toNat + i)) o (o + l) ++ post = [] then
        lift (.error .panic)
      else sweepAll o (o + l) (decrypt mount.aes store id) (firstBytesOf pre)
        (chunkBuffers (fun i => bdt (file.dataOffset.toNat + i)) o (o + l) ++ post) := by
  obtain ⟨hadd, hbounds⟩ := inBounds_iff.1 hin
  obtain ⟨pre, post, hstream, hpieces⟩ := streamReadWindows_eq hexact hbounds file.len.toNat_lt hwindows
  refine ⟨pre, post, hpieces, ?_⟩
  rw [readAt_of_id hadd hstop hid hreader, hstore, expect, lift_ok_bind, hstream, lift_ok_bind,
    Nat.add_assoc, map_bufferAt]
  split_ifs with hnil
  · rw [hnil]
    rfl
  · have hplaced : ∀ b ∈ pre ++ chunkBuffers (fun i => bdt (file.dataOffset.toNat + i)) o (o + l) ++ post,
        b.Placed o (o + l) := by
      intro b hb
      rcases List.mem_append.1 hb with hb | hb
      · rcases List.mem_append.1 hb with hb | hb
        · have := hpieces.pre_lt b hb
          exact .inl (by push_cast at this; omega)
        · exact placed_chunkBuffers b hb
      · have := hpieces.post_ge b hb
        exact .inr (.inl (by push_cast at this ⊢; omega))
    rw [decryptLoop_map_ok hstop (fun _ _ => length_of_decrypt) hplaced hnil, List.append_assoc,
      sweepAll_append hpieces.pre_length]
    intro b hb
    have := hpieces.pre_lt b hb
    push_cast at this
    omega

/-- **A request that panics before anything is read.** -/
theorem readAt_panic (hstop : o + l < 2 ^ 32) (hreader : mount.bdts file.srcId = .ok reader)
    (hstore : ∀ id, file.encryptionId = some id →
      ∃ store, mount.fs.encryptionStore.get file.srcId = some store)
    (h : file.InBounds o l → file.encryptionId.isSome = true ∧ ¬ file.HasWindows mount.platform o l) :
    mount.readAt file o l = lift (.error .panic) := by
  by_cases hadd : file.dataOffset.toNat + o < 2 ^ 64
  · rcases endBounds_cases (file.dataOffset.toNat + o) l file.dataOffset.toNat file.len.toNat with
      hbounds | hbounds
    · obtain ⟨hsome, hnot⟩ := h (inBounds_iff.2 ⟨hadd, hbounds⟩)
      obtain ⟨id, hid⟩ := Option.isSome_iff_exists.1 hsome
      obtain ⟨store, hget⟩ := hstore id hid
      rw [DvdbndFile.HasWindows, not_or, not_lt] at hnot
      rw [readAt_of_id hadd hstop hid hreader, hget, expect, lift_ok_bind,
        streamReadWindows_eq_panic hbounds hnot.1 hnot.2, lift_error_bind]
    · rcases hid : file.encryptionId with _ | id
      · rw [readAt, add_of_lt hadd, lift_ok_bind, add_of_lt hstop, lift_ok_bind, hreader, lift_ok_bind, hid]
        dsimp only
        rw [streamRead, hbounds, Checked.error_bind, lift_error_bind]
      · obtain ⟨store, hget⟩ := hstore id hid
        rw [readAt_of_id hadd hstop hid hreader, hget, expect, lift_ok_bind, streamReadWindows, hbounds,
          Checked.error_bind, lift_error_bind]
  · rw [readAt, add_of_not_lt hadd, lift_error_bind]

/-- **A request that succeeds** is for a plain or for an encrypted file. -/
theorem readAt_of_ok (hstop : o + l < 2 ^ 32)
    (hexact : ∀ reader, mount.bdts file.srcId = .ok reader → Exact reader bdt)
    (hok : (mount.readAt file o l).result = .ok ()) : file.InBounds o l ∧
      (file.encryptionId = none ∧ mount.readAt file o l =
        emit ((chunkBuffers (fun i => bdt (file.dataOffset.toNat + i)) o (o + l)).map fun b =>
          .callback b.bytes b.offset.toNat) ∨
      ∃ id store pre post, file.encryptionId = some id ∧
        mount.fs.encryptionStore.get file.srcId = some store ∧ file.HasWindows mount.platform o l ∧
        Pieces mount.platform bdt (file.dataOffset.toNat + o) l file.dataOffset.toNat file.len.toNat
          pre post ∧
        mount.readAt file o l = sweepAll o (o + l) (decrypt mount.aes store id) (firstBytesOf pre)
          (chunkBuffers (fun i => bdt (file.dataOffset.toNat + i)) o (o + l) ++ post)) := by
  have hadd : file.dataOffset.toNat + o < 2 ^ 64 := by
    by_contra hadd
    rw [readAt, add_of_not_lt hadd] at hok
    cases hok
  rcases hreader : mount.bdts file.srcId with s | reader
  · rw [readAt, add_of_lt hadd, lift_ok_bind, add_of_lt hstop, lift_ok_bind, hreader] at hok
    cases hok
  · have hread := hexact reader hreader
    rcases hid : file.encryptionId with _ | id
    · have hin : file.InBounds o l := by
        by_contra hin
        have hpanic := readAt_panic (o := o) (l := l) hstop hreader (fun id h => by rw [hid] at h; cases h)
          fun h => absurd h hin
        rw [hpanic] at hok
        cases hok
      exact ⟨hin, .inl ⟨rfl, readAt_plain hstop hid hreader hread hin⟩⟩
    · rcases hstore : mount.fs.encryptionStore.get file.srcId with _ | store
      · rw [readAt_of_id hadd hstop hid hreader, hstore] at hok
        cases hok
      · have hboth : file.InBounds o l ∧ file.HasWindows mount.platform o l := by
          by_contra hnot
          have hpanic := readAt_panic hstop hreader (fun _ _ => ⟨store, hstore⟩) fun hin =>
            ⟨by rw [hid]; rfl, fun hwindows => hnot ⟨hin, hwindows⟩⟩
          rw [hpanic] at hok
          cases hok
        obtain ⟨pre, post, hpieces, hrun⟩ :=
          readAt_encrypted hstop hid hstore hreader hread hboth.1 hboth.2
        refine ⟨hboth.1, .inr ⟨id, store, pre, post, rfl, rfl, hboth.2, hpieces, ?_⟩⟩
        rw [hrun] at hok ⊢
        split_ifs at hok ⊢ with hnil
        · cases hok
        · rfl

end

end DvdbndMount

end Fsvfs.Dvdbnd
