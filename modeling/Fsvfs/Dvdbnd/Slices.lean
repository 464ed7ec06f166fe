/-
  The slices that the callback of `read_file` gets.

  `callbacks_tile`: each is where the one before it ends, from the offset of the
  request to its end.
-/
import Fsvfs.Dvdbnd.Rounds

namespace Fsvfs.Dvdbnd

open Lib Lib.Checked Traced Bhd5

/-- The slices are not empty, and each begins where the one before it ends. -/
inductive Tiles (stop : ℕ) : ℕ → List (List UInt8 × ℕ) → Prop
  | nil : Tiles stop stop []
  | cons {slice calls} (pos : ℕ) : slice ≠ [] → Tiles stop (pos + slice.length) calls →
      Tiles stop pos ((slice, pos) :: calls)

theorem Tiles.le {stop pos : ℕ} {calls : List (List UInt8 × ℕ)} (h : Tiles stop pos calls) :
    pos ≤ stop := by
  induction h with
  | nil => exact Nat.le_refl _
  | cons pos _ _ ih => exact Nat.le_trans (Nat.le_add_right _ _) ih

/-- Nothing is handed over of a request of no bytes. -/
theorem Tiles.eq_nil {stop : ℕ} {calls : List (List UInt8 × ℕ)} (h : Tiles stop stop calls) : calls = [] := by
  rcases h with _ | ⟨_, hne, hrest⟩
  · rfl
  · have hle := hrest.le
    exact absurd (List.eq_nil_of_length_eq_zero (by omega)) hne

section
variable {start stop : ℕ} {decrypt : Ciphertext → Checked (List UInt8)}

/-- What a buffer inside of the request comes to. -/
theorem sweepOne_of_ok {prev next : List UInt8} {buf buf' : AlignedBuffer} {n : ℕ} (hn : buf.offset = n)
    (hstart : start ≤ n) (hstop : n < stop)
    (h : (sweepOne start stop decrypt prev buf next).result = .ok buf') :
    ∃ body, decrypt (buf.ciphertext prev next) = .ok body ∧ buf' = ⟨body, n⟩ ∧
      (sweepOne start stop decrypt prev buf next).events =
        [.decrypt (buf.ciphertext prev next), .callback body n] := by
  have hskip : ¬ (buf.offset < start ∨ buf.offset ≥ stop) := by omega
  rw [sweepOne, if_neg hskip, hn, Int.toNat_natCast] at h ⊢
  rcases hbody : decrypt (buf.ciphertext prev next) with s | body
  · rw [hbody] at h
    cases h
  · rw [hbody] at h
    cases h
    exact ⟨body, rfl, rfl, rfl⟩

/-- One step of a run that succeeds. -/
theorem sweepAll_of_ok {prev : List UInt8} {buf : AlignedBuffer} {bufs : List AlignedBuffer} {n : ℕ}
    (hn : buf.offset = n) (hstart : start ≤ n) (hstop : n < stop)
    (h : (sweepAll start stop decrypt prev (buf :: bufs)).result = .ok ()) :
    ∃ body, decrypt (buf.ciphertext prev (firstBytesOf bufs)) = .ok body ∧
      (sweepAll start stop decrypt body bufs).result = .ok () ∧
      (sweepAll start stop decrypt prev (buf :: bufs)).events =
        .decrypt (buf.ciphertext prev (firstBytesOf bufs)) :: .callback body n ::
          (sweepAll start stop decrypt body bufs).events := by
  rw [sweepAll_cons] at h ⊢
  obtain ⟨buf', hone, hrest, hevents⟩ := result_bind_eq_ok h
  obtain ⟨body, hbody, rfl, hemit⟩ := sweepOne_of_ok hn hstart hstop hone
  refine ⟨body, hbody, hrest, ?_⟩
  rw [hevents, hemit]
  rfl

/-- The decrypted chunks tile the rest of the request. -/
theorem tiles_sweepAll {F : ℕ → UInt8} {post : List AlignedBuffer}
    (hlen : ∀ ciphertext body, decrypt ciphertext = .ok body → body.length = ciphertext.body.length)
    (hpost : ∀ b ∈ post, (stop : ℤ) ≤ b.offset) {c : ℕ} (hc : start ≤ c) {prev : List UInt8}
    (h : (sweepAll start stop decrypt prev (chunkBuffers F c stop ++ post)).result = .ok ()) :
    Tiles stop (min c stop)
      (callbacks (sweepAll start stop decrypt prev (chunkBuffers F c stop ++ post)).events) := by
  induction c using chunks_induction stop generalizing prev with
  | nil c hle =>
    rw [chunkBuffers_of_le hle, List.nil_append, sweepAll_of_skipped fun b hb => .inr (hpost b hb),
      Nat.min_eq_right hle]
    exact .nil
  | cons c hlt ih =>
    have hsize : BUFFER_LEN = 32768 := rfl
    rw [chunkBuffers_of_lt hlt, List.cons_append] at h ⊢
    obtain ⟨body, hbody, hrest, hevents⟩ := sweepAll_of_ok rfl hc hlt h
    have hbodyLen := hlen _ _ hbody
    rw [AlignedBuffer.ciphertext, length_window] at hbodyLen
    have hnext : min (c + BUFFER_LEN) stop = c + body.length := by omega
    have htiles := ih (by omega) hrest
    rw [hnext] at htiles
    rw [hevents, callbacks_decrypt, callbacks_callback, Nat.min_eq_left (Nat.le_of_lt hlt)]
    refine .cons c (fun hnil => ?_) htiles
    rw [hnil, List.length_nil] at hbodyLen
    omega

/-- The chunks of a plain file tile the request. -/
theorem tiles_chunkBuffers {F : ℕ → UInt8} {c : ℕ} :
    Tiles stop (min c stop) (callbacks ((chunkBuffers F c stop).map fun b =>
      .callback b.bytes b.offset.toNat)) := by
  induction c using chunks_induction stop with
  | nil c hle =>
    rw [chunkBuffers_of_le hle, Nat.min_eq_right hle]
    exact .nil
  | cons c hlt ih =>
    have hsize : BUFFER_LEN = 32768 := rfl
    have hnext : min (c + BUFFER_LEN) stop =
        c + (window F c (min (stop - c) BUFFER_LEN)).length := by
      rw [length_window]
      omega
    rw [hnext] at ih
    rw [chunkBuffers_of_lt hlt, List.map_cons, callbacks_callback, Int.toNat_natCast,
      Nat.min_eq_left (Nat.le_of_lt hlt)]
    refine .cons c (fun hnil => ?_) ih
    have := congrArg List.length hnil
    rw [length_window, List.length_nil] at this
    omega

end

namespace DvdbndMount
variable {mount : DvdbndMount} {inode fileOffset : UInt64} {len : UInt32} {file : DvdbndFile}

/-- **The callback gets the request without gaps and in order.** -/
theorem callbacks_tile {bdt : ℕ → UInt8} (hfile : mount.IsFile inode file)
    (hexact : ∀ reader, mount.bdts file.srcId = .ok reader → Exact reader bdt)
    (hok : (mount.readFile inode fileOffset len).result = .ok ()) :
    Tiles (file.readOffset fileOffset + file.readLen fileOffset len) (file.readOffset fileOffset)
        (callbacks (mount.readFile inode fileOffset len).events) ∧
      (file.readLen fileOffset len = 0 →
        callbacks (mount.readFile inode fileOffset len).events = []) := by
  have hstop := file.readEnd_lt fileOffset len
  rw [readFile_eq hfile] at hok ⊢
  have htiles : Tiles (file.readOffset fileOffset + file.readLen fileOffset len)
      (file.readOffset fileOffset) (callbacks (mount.readAt file (file.readOffset fileOffset)
        (file.readLen fileOffset len)).events) := by
    generalize file.readOffset fileOffset = o at *
    generalize file.readLen fileOffset len = l at *
    have hmin : min o (o + l) = o := Nat.min_eq_left (Nat.le_add_right _ _)
    obtain ⟨-, ⟨-, hrun⟩ | ⟨id, store, pre, post, -, -, -, hpieces, hrun⟩⟩ :=
      readAt_of_ok hstop hexact hok
    · rw [hrun]
      have htiles : Tiles (o + l) (min o (o + l)) (callbacks ((chunkBuffers
          (fun i => bdt (file.dataOffset.toNat + i)) o (o + l)).map fun b =>
            .callback b.bytes b.offset.toNat)) := tiles_chunkBuffers
      rwa [hmin] at htiles
    · rw [hrun] at hok ⊢
      have htiles := tiles_sweepAll (fun _ _ => length_of_decrypt) (fun b hb => by
        have := hpieces.post_ge b hb
        push_cast at this ⊢
        omega) (Nat.le_refl o) hok
      rwa [hmin] at htiles
  refine ⟨htiles, fun hzero => ?_⟩
  rw [hzero, Nat.add_zero] at htiles
  rw [hzero]
  exact htiles.eq_nil

/-- A mount of one file in an archive of zeros. -/
def ofZeros (platform : Platform) (file : DvdbndFile) (store : List UInt8) : DvdbndMount where
  platform := platform
  fs := ⟨⟨[⟨.file 0, 0⟩], [file], []⟩, [(file.srcId, store)]⟩
  bdts _ := .ok fun len pos => .ok (some (window (fun _ => 0) pos len))
  aes _ := zeroCipher

theorem isFile_ofZeros (platform : Platform) (file : DvdbndFile) (store : List UInt8) :
    (ofZeros platform file store).IsFile 1 file := ⟨_, rfl, rfl⟩

theorem exact_ofZeros {platform : Platform} {file : DvdbndFile} {store : List UInt8}
    {srcId : SrcId} {reader : ReadManagedAt} (h : (ofZeros platform file store).bdts srcId = .ok reader) :
    Exact reader fun _ => 0 := by
  cases h
  exact fun _ _ _ => rfl

/-- An encrypted file with one encrypted block. -/
def oneBlockFile : DvdbndFile := ⟨100, 48, 40, ⟨.replicate 12 0⟩, some ⟨0xffffffff, by decide⟩⟩

section
variable {E : Type} [FileEntry E] {entry : E} {encryption : Encryption}

/-- A file with its record, in an archive of zeros. -/
theorem stored_ofZeros {platform : Platform} {file : DvdbndFile} {store : List UInt8} {id : EncryptionId}
    (hid : file.encryptionId = some id) (hstore : storeEncryption entry encryption [] = .ok (id, store)) :
    Stored (ofZeros platform file store).fs file entry encryption := by
  refine ⟨id, [], store, [], hid, ?_, hstore⟩
  rw [List.append_nil]
  exact List.lookup_cons_self

theorem not_zero_ne_zero : (0xffffffff : UInt32) ≠ 0 := by decide

/-- The id of the first record. -/
def firstId : EncryptionId := ⟨0xffffffff, not_zero_ne_zero⟩

theorem exists_store_firstId (hcount : (encryption.ranges.filter fun r =>
    r.startOffset ≠ r.endOffset).length < 2 ^ 24)
    (hacc : ∀ r ∈ encryption.ranges, r.Accepted (FileEntry.fileSize entry).toNat) :
    ∃ store, storeEncryption entry encryption [] = .ok (firstId, store) := by
  obtain ⟨id, store, hstore⟩ := @exists_store _ _ entry encryption [] hcount (by decide) hacc
  obtain ⟨-, _, -, hid, -⟩ := storeEncryption_eq_ok.1 hstore
  obtain rfl : firstId = id := Option.some.inj hid
  exact ⟨store, hstore⟩

end

/-- An encrypted file that is longer than a buffer. -/
def longFile : DvdbndFile := ⟨100, 32784, 0, ⟨.replicate 12 0⟩, some firstId⟩

def longEncryption : Encryption := ⟨.replicate 16 0, 1, [⟨0, 32784⟩]⟩

theorem recordRanges_longEncryption : recordRanges longEncryption = [⟨0, 2049⟩] := by
  have hstored : storedRanges longEncryption.ranges = [⟨0, 2049⟩] := by decide
  rw [recordRanges, sortRanges, hstored, List.mergeSort_singleton]

/-- The second slice begins where the first buffer ends. -/
theorem callbacks_tile_longFile : ∃ store slice slice',
    callbacks ((ofZeros .unix longFile store).readFile 1 5 40000).events = [(slice, 5), (slice', 32773)] ∧
      Tiles 32784 5 [(slice, 5), (slice', 32773)] := by
  let entry : FileEntryDs2 := ⟨7, 32784, 100, 0, 1⟩
  have hacc : ∀ r ∈ longEncryption.ranges, r.Accepted (FileEntry.fileSize entry).toNat := by
    intro r hr
    rw [List.mem_singleton.1 hr]
    exact .inr (.inl ⟨by decide, by decide, by decide⟩)
  obtain ⟨store, hstore⟩ := exists_store_firstId (by decide) hacc
  have hstored : Stored (ofZeros .unix longFile store).fs longFile entry longEncryption := stored_ofZeros rfl hstore
  have hfile := isFile_ofZeros .unix longFile store
  have hoffset : longFile.readOffset 5 = 5 := by decide
  have hlen : longFile.readLen 5 40000 = 32779 := by decide
  obtain ⟨prev, next, -, hrun⟩ := @readAt_stored (ofZeros .unix longFile store) longFile _ (fun _ => 0) 5 32779 _ _
    entry longEncryption (by decide) hstored rfl (fun _ _ _ => rfl) (by decide)
    (show longFile.HasWindows .unix 5 32779 by decide)
  rw [if_neg fun hzero => absurd hzero.1 (by decide)] at hrun
  have hread : (ofZeros .unix longFile store).readFile 1 5 40000 =
      (ofZeros .unix longFile store).readAt longFile 5 32779 := by
    rw [readFile_eq hfile, hoffset, hlen]
  have hok : ((ofZeros .unix longFile store).readFile 1 5 40000).result = .ok () := by
    rw [hread, hrun]
    rfl
  have htiles := (callbacks_tile hfile (fun _ => exact_ofZeros) hok).1
  rw [hoffset, hlen] at htiles
  obtain ⟨slice, slice', hslices⟩ : ∃ slice slice',
      callbacks ((ofZeros .unix longFile store).readFile 1 5 40000).events = [(slice, 5), (slice', 32773)] := by
    rw [hread, hrun]
    simp only [emit, rounds_of_lt (show 5 < 5 + 32779 by decide),
      rounds_of_lt (show 5 + BUFFER_LEN < 5 + 32779 by decide),
      rounds_of_le (show 5 + 32779 ≤ 5 + BUFFER_LEN + BUFFER_LEN by decide), callbacks_decrypt, callbacks_callback]
    exact ⟨_, _, rfl⟩
  rw [hslices] at htiles
  exact ⟨store, slice, slice', hslices, htiles⟩

end DvdbndMount

end Fsvfs.Dvdbnd
