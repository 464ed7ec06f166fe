/-
  Requests for bytes that a BDT does not have.

  * `result_readPlain`, `result_sweep`: a run ends like its stream;
  * `neverShort_iff`: a request for bytes after the end of the BDT is answered with
    an error if and only if the end cuts one of its reads (`CutsRead`).
-/
import Fsvfs.Dvdbnd.Contents
import Fsvfs.Dvdbnd.Truncated

namespace Fsvfs.Dvdbnd

open Lib Lib.Checked Traced Bhd5

/-! ## Runs over a stream -/

section
variable {start stop : ℕ} {stream : BufferStream} {bufs : List AlignedBuffer}

/-- The loop over a plain file ends like its stream. -/
theorem result_readPlain (hstop : stop < 2 ^ 32) (h : ∀ b, .ok b ∈ stream → b.UpTo stop) :
    (readPlain (clip stop) stream).result = polled stream := by
  induction stream with
  | nil => rfl
  | cons item stream ih =>
    rcases item with s | buf
    · rfl
    · obtain ⟨h0, hne, hle⟩ := h buf List.mem_cons_self
      rw [readPlain, lift_ok_bind, clip_eq h0 hne hle hstop, emit_bind]
      exact ih fun b hb => h b (List.mem_cons_of_mem _ hb)

/-- The callback gets all the bytes of a plain file. -/
theorem length_delivered_readPlain (hstop : stop < 2 ^ 32) (h : ∀ b ∈ bufs, b.UpTo stop) :
    (delivered (readPlain (clip stop) (bufs.map .ok)).events).length = lengths bufs := by
  induction bufs with
  | nil => rfl
  | cons buf bufs ih =>
    obtain ⟨⟨h0, hne, hle⟩, hbufs⟩ := List.forall_mem_cons.1 h
    have hrest := ih hbufs
    rw [List.map_cons, readPlain, lift_ok_bind, clip_eq h0 hne hle hstop, emit_bind, List.singleton_append,
      delivered_callback, List.length_append, hrest, lengths_cons]

variable {decrypt : Ciphertext → Checked (List UInt8)} {D : Ciphertext → List UInt8} {prev : List UInt8}
  {buf : AlignedBuffer}

/-- One buffer is decrypted. -/
theorem sweepOne_of_placed {next : List UInt8} (hstop : stop < 2 ^ 32)
    (hdecrypt : ∀ ciphertext : Ciphertext, ciphertext.fileOffset.toNat + ciphertext.body.length < 2 ^ 32 →
      decrypt ciphertext = .ok (D ciphertext)) (hplaced : buf.Placed start stop) :
    ∃ buf', (sweepOne start stop decrypt prev buf next).result = .ok buf' := by
  by_cases hskip : buf.offset < start ∨ buf.offset ≥ stop
  · rw [sweepOne, if_pos hskip]
    exact ⟨buf, rfl⟩
  · obtain ⟨hne, hle⟩ := (hplaced.resolve_left fun h => hskip (.inl h)).resolve_left fun h => hskip (.inr h)
    rw [not_or, not_lt, ge_iff_le, not_le] at hskip
    obtain ⟨n, hn⟩ := Int.eq_ofNat_of_zero_le (show 0 ≤ buf.offset by omega)
    rw [hn] at hle hskip
    have hoffset : (buf.ciphertext prev next).fileOffset.toNat = n := by
      rw [AlignedBuffer.ciphertext, hn, Int.toNat_natCast]
      exact UInt32.toNat_ofNat_of_lt' (by show n < 2 ^ 32; omega)
    have hbody := hdecrypt (buf.ciphertext prev next) (by
      rw [hoffset]
      show n + buf.bytes.length < 2 ^ 32
      omega)
    rw [sweepOne_of_decrypt hn (by omega) (by omega) hbody]
    exact ⟨_, rfl⟩

/-- The loop over an encrypted file ends like its stream, if decryption works. -/
theorem result_sweep (hstop : stop < 2 ^ 32)
    (hdecrypt : ∀ ciphertext : Ciphertext, ciphertext.fileOffset.toNat + ciphertext.body.length < 2 ^ 32 →
      decrypt ciphertext = .ok (D ciphertext))
    (hplaced : buf.Placed start stop) (h : ∀ b, .ok b ∈ stream → b.Placed start stop) :
    (sweep start stop decrypt prev buf stream).result = polled stream := by
  induction stream generalizing prev buf with
  | nil =>
    obtain ⟨buf', hone⟩ := @sweepOne_of_placed _ _ _ _ prev _ [] hstop hdecrypt hplaced
    rw [sweep]
    rcases hrun : sweepOne start stop decrypt prev buf [] with ⟨events, result⟩
    rw [hrun] at hone
    obtain rfl : result = .ok buf' := hone
    rfl
  | cons item stream ih =>
    rcases item with s | next
    · rfl
    · obtain ⟨buf', hone⟩ := @sweepOne_of_placed _ _ _ _ prev _ next.bytes hstop hdecrypt hplaced
      rw [sweep, lift_ok_bind]
      rcases hrun : sweepOne start stop decrypt prev buf next.bytes with ⟨events, result⟩
      rw [hrun] at hone
      obtain rfl : result = .ok buf' := hone
      exact ih (h next List.mem_cons_self) fun b hb => h b (List.mem_cons_of_mem _ hb)

/-- The callback gets all the bytes of the buffers of the request. -/
theorem length_delivered_sweepAll {post : List AlignedBuffer}
    (hlen : ∀ ciphertext body, decrypt ciphertext = .ok body → body.length = ciphertext.body.length)
    (hbufs : ∀ b ∈ bufs, start ≤ b.offset ∧ b.UpTo stop) (hpost : ∀ b ∈ post, (stop : ℤ) ≤ b.offset)
    (hok : (sweepAll start stop decrypt prev (bufs ++ post)).result = .ok ()) :
    (delivered (sweepAll start stop decrypt prev (bufs ++ post)).events).length = lengths bufs := by
  induction bufs generalizing prev with
  | nil =>
    rw [List.nil_append, sweepAll_of_skipped fun b hb => .inr (hpost b hb)]
    rfl
  | cons buf bufs ih =>
    obtain ⟨⟨hstart, h0, hne, hle⟩, hbufs⟩ := List.forall_mem_cons.1 hbufs
    obtain ⟨n, hn⟩ := Int.eq_ofNat_of_zero_le h0
    have hpos := List.length_pos_of_ne_nil hne
    rw [List.cons_append] at hok ⊢
    obtain ⟨body, hbody, hrest, hevents⟩ := sweepAll_of_ok hn (by omega) (by omega) hok
    have hbodyLen : body.length = buf.bytes.length := hlen _ _ hbody
    rw [hevents, delivered_decrypt, delivered_callback, List.length_append, ih hbufs hrest, hbodyLen,
      lengths_cons]

end

namespace Segments
variable {fileEnd o l : ℕ} {pre body post : BufferStream} (h : Segments fileEnd o l pre body post)
include h

variable {decrypt : Ciphertext → Checked (List UInt8)} {D : Ciphertext → List UInt8} (hstop : o + l < 2 ^ 32)
  (hlen : ∀ ciphertext body, decrypt ciphertext = .ok body → body.length = ciphertext.body.length)
  (hdecrypt : ∀ ciphertext : Ciphertext, ciphertext.fileOffset.toNat + ciphertext.body.length < 2 ^ 32 →
    decrypt ciphertext = .ok (D ciphertext))
include hstop hlen hdecrypt

/-- The loop ends like a stream with items. -/
theorem result_decryptLoop (hne : pre ++ body ++ post ≠ []) :
    (decryptLoop o (o + l) decrypt (clip (o + l)) (pre ++ body ++ post) .default).result =
      polled (pre ++ body ++ post) := by
  have hplaced := h.placed
  revert hne hplaced
  generalize pre ++ body ++ post = stream
  intro hne hplaced
  rcases stream with _ | ⟨item, stream⟩
  · exact absurd rfl hne
  · rw [decryptLoop_cons hstop hlen hplaced]
    rcases item with s | buf
    · rfl
    · rw [lift_ok_bind]
      exact result_sweep hstop hdecrypt (hplaced buf List.mem_cons_self) fun b hb =>
        hplaced b (List.mem_cons_of_mem _ hb)

/-- If the loop succeeds, the callback gets what is there of the request. -/
theorem length_delivered_decryptLoop
    (hok : (decryptLoop o (o + l) decrypt (clip (o + l)) (pre ++ body ++ post) .default).result = .ok ()) :
    (delivered (decryptLoop o (o + l) decrypt (clip (o + l)) (pre ++ body ++ post) .default).events).length =
      min (o + l) fileEnd - o := by
  have hne : pre ++ body ++ post ≠ [] := by
    intro hnil
    rw [hnil, decryptLoop_nil] at hok
    cases hok
  obtain ⟨bufs, hbufs⟩ := polled_eq_ok ((h.result_decryptLoop hstop hlen hdecrypt hne).symm.trans hok)
  obtain ⟨front, postBufs, rfl, hfront, rfl⟩ := List.map_eq_append_iff.1 hbufs.symm
  obtain ⟨preBufs, bodyBufs, rfl, rfl, rfl⟩ := List.map_eq_append_iff.1 hfront
  have hplaced : ∀ b ∈ preBufs ++ bodyBufs ++ postBufs, b.Placed o (o + l) := by
    intro b hb
    refine h.placed b ?_
    rw [hbufs]
    exact List.mem_map_of_mem hb
  have hnil : preBufs ++ bodyBufs ++ postBufs ≠ [] := by
    intro hnil
    rw [hbufs, hnil] at hne
    exact hne rfl
  have hpre : preBufs.length ≤ 1 := by simpa using h.pre_length
  rw [hbufs, decryptLoop_map_ok hstop hlen hplaced hnil, List.append_assoc,
    sweepAll_append hpre fun b hb => h.pre_lt b (List.mem_map_of_mem hb)] at hok ⊢
  rw [length_delivered_sweepAll hlen (fun b hb => h.body_mem b (List.mem_map_of_mem hb))
    (fun b hb => h.post_ge b (List.mem_map_of_mem hb)) hok]
  exact h.lengths bodyBufs rfl

end Segments

/-! ## Requests -/

namespace DvdbndFile
variable (file : DvdbndFile) (platform : Platform) (bdtLen o l : ℕ)

/-- A byte of a request is after the end of the BDT. -/
def PastEnd : Prop := 0 < l ∧ bdtLen < file.dataOffset.toNat + o + l

/-- The end of a BDT that ends before a request does cuts one of its reads. -/
def CutsRead : Prop :=
  if file.encryptionId = none then
    file.dataOffset.toNat + o < bdtLen ∧ ¬ BUFFER_LEN ∣ bdtLen - (file.dataOffset.toNat + o)
  else CutsWindows platform bdtLen file.dataOffset.toNat o l

instance : Decidable (file.CutsRead platform bdtLen o l) := by
  unfold CutsRead
  infer_instance

end DvdbndFile

/-- A run gets all of a request, and it fails if some of it is missing. -/
structure Complete (run : Traced Event Unit) (l : ℕ) (missing : Prop) : Prop where
  delivered : run.result = .ok () → (delivered run.events).length = l
  error : missing → run.result = .error .error

/-- A run that gets what is there. -/
theorem Complete.of_min {run : Traced Event Unit} {file : DvdbndFile} {bdtLen o l : ℕ}
    (hok : run.result = .ok () →
      (Dvdbnd.delivered run.events).length = min (o + l) (bdtLen - file.dataOffset.toNat) - o)
    (herror : file.PastEnd bdtLen o l → run.result = .error .error) :
    Complete run l (file.PastEnd bdtLen o l) := by
  refine ⟨fun hrun => ?_, herror⟩
  have hnot : ¬ file.PastEnd bdtLen o l := by
    intro hpast
    rw [herror hpast] at hrun
    cases hrun
  rw [DvdbndFile.PastEnd, not_and_or, not_lt, not_lt] at hnot
  rw [hok hrun]
  omega

namespace DvdbndMount
variable {mount : DvdbndMount} {inode fileOffset : UInt64} {len : UInt32} {file : DvdbndFile}
  {E : Type} [FileEntry E] {entry : E} {encryption : Option Encryption} {reader : ReadManagedAt}
  {bdtLen o l : ℕ}

/-- A request for a plain file. -/
theorem readAt_plain_of_truncated (hstop : o + l < 2 ^ 32) (hplain : file.encryptionId = none)
    (hreader : mount.bdts file.srcId = .ok reader) (hin : file.InBounds o l) : mount.readAt file o l =
      readPlain (clip (o + l)) (chunkReads reader file.dataOffset.toNat (file.dataOffset.toNat + o)
        (file.dataOffset.toNat + o + l)) := by
  obtain ⟨hadd, hbounds⟩ := inBounds_iff.1 hin
  rw [readAt, add_of_lt hadd, lift_ok_bind, add_of_lt hstop, lift_ok_bind, hreader, lift_ok_bind, hplain]
  dsimp only
  rw [streamRead, hbounds, Checked.ok_bind, lift_ok_bind, chunkReads]

/-- A request for an encrypted file, over the items of its stream. -/
theorem readAt_encrypted_of_stream (hstop : o + l < 2 ^ 32) {id : EncryptionId}
    (hid : file.encryptionId = some id) {store : List UInt8}
    (hstore : mount.fs.encryptionStore.get file.srcId = some store)
    (hreader : mount.bdts file.srcId = .ok reader) (hadd : file.dataOffset.toNat + o < 2 ^ 64)
    {stream : BufferStream} (hstream : streamReadWindows mount.platform reader (file.dataOffset.toNat + o) l
      file.dataOffset.toNat file.len.toNat = .ok stream) : mount.readAt file o l =
        decryptLoop o (o + l) (decrypt mount.aes store id) (clip (o + l)) stream .default := by
  rw [readAt_of_id hadd hstop hid hreader, hstore, expect, lift_ok_bind, hstream, lift_ok_bind]

/-- A request for a BDT that cannot be opened. -/
theorem complete_closed (hstop : o + l < 2 ^ 32) (hclosed : mount.bdts file.srcId = .error .error)
    (hin : file.PastEnd bdtLen o l → file.InBounds o l) :
    Complete (mount.readAt file o l) l (file.PastEnd bdtLen o l) := by
  constructor
  · intro hok
    obtain ⟨s, hrun⟩ := readAt_of_error (o := o) (l := l) hclosed
    rw [hrun] at hok
    cases hok
  · intro hpast
    obtain ⟨hadd, -⟩ := inBounds_iff.1 (hin hpast)
    rw [readAt, add_of_lt hadd, lift_ok_bind, add_of_lt hstop, lift_ok_bind, hclosed]
    rfl

/-- The loop over a plain file that is cut short. -/
theorem complete_plain (hstop : o + l < 2 ^ 32) (hplain : file.encryptionId = none)
    (hreader : mount.bdts file.srcId = .ok reader) (htruncated : Truncated reader bdtLen) (hin : file.InBounds o l)
    (hcut : file.PastEnd bdtLen o l → file.CutsRead mount.platform bdtLen o l) :
    Complete (mount.readAt file o l) l (file.PastEnd bdtLen o l) := by
  have hsegments := @Truncated.segments_chunkReads reader bdtLen file.dataOffset.toNat o l htruncated hstop
  have hupTo := fun b hb => (hsegments.body_mem b hb).2
  have hresult := result_readPlain hstop hupTo
  rw [readAt_plain_of_truncated hstop hplain hreader hin]
  refine .of_min (fun hok => ?_) fun hpast => ?_
  · obtain ⟨bufs, hbufs⟩ := polled_eq_ok (hresult.symm.trans hok)
    rw [hbufs] at hupTo ⊢
    rw [length_delivered_readPlain hstop fun b hb => hupTo b (List.mem_map_of_mem hb)]
    exact hsegments.lengths bufs hbufs
  · have hcuts := hcut hpast
    rw [DvdbndFile.CutsRead, if_pos hplain] at hcuts
    have hend := hin.2
    have herror := htruncated.error_mem_chunkReads (Nat.le_add_right _ _) (by omega) hpast.2 hcuts.1 hcuts.2
    exact hresult.trans (polled_of_error herror hsegments.error_body)

/-- The loop over an encrypted file that is cut short. -/
theorem complete_stored {e : Encryption} (hstop : o + l < 2 ^ 32) (hstored : Stored mount.fs file entry e)
    (hreader : mount.bdts file.srcId = .ok reader) (htruncated : Truncated reader bdtLen) (hin : file.InBounds o l)
    (hwindows : file.HasWindows mount.platform o l)
    (hcut : file.PastEnd bdtLen o l → file.CutsRead mount.platform bdtLen o l) :
    Complete (mount.readAt file o l) l (file.PastEnd bdtLen o l) := by
  obtain ⟨id, store, hid, hget, hdecrypt⟩ := hstored.decrypt_eq
  obtain ⟨hadd, hbounds⟩ := inBounds_iff.1 hin
  obtain ⟨pre, body, post, hstream, hsegments, herror⟩ := htruncated.streamReadWindows hstop hbounds hwindows
  have hlen := fun ciphertext body (h : decrypt mount.aes store id ciphertext = .ok body) => length_of_decrypt h
  rw [readAt_encrypted_of_stream hstop hid hget hreader hadd hstream]
  refine .of_min (hsegments.length_delivered_decryptLoop hstop hlen (hdecrypt mount.aes)) fun hpast => ?_
  have hcuts := hcut hpast
  rw [DvdbndFile.CutsRead, if_neg (by rw [hid]; exact nofun)] at hcuts
  obtain ⟨s, hs⟩ := herror hpast.2 hcuts
  rw [hsegments.result_decryptLoop hstop hlen (hdecrypt mount.aes) (List.ne_nil_of_mem hs)]
  exact hsegments.polled_of_error hs

/-- If no read is cut, then a request does not fail with an error. -/
theorem result_ne_error (hstop : o + l < 2 ^ 32) (hentry : FromEntry mount.fs file entry encryption)
    (hreader : mount.bdts file.srcId = .ok (available bdtLen)) (hin : file.InBounds o l)
    (hwindows : file.encryptionId.isSome = true → file.HasWindows mount.platform o l)
    (hpast : file.PastEnd bdtLen o l) (hcut : ¬ file.CutsRead mount.platform bdtLen o l) :
    (mount.readAt file o l).result ≠ .error .error := by
  obtain ⟨hadd, hbounds⟩ := inBounds_iff.1 hin
  rcases encryption with _ | e
  · have hplain := hentry.plain rfl
    have hsegments := @Truncated.segments_chunkReads _ _ file.dataOffset.toNat o l (truncated_available bdtLen) hstop
    rw [DvdbndFile.CutsRead, if_pos hplain, not_and, not_not] at hcut
    have hend := hin.2
    rw [readAt_plain_of_truncated hstop hplain hreader hin,
      result_readPlain hstop fun b hb => (hsegments.body_mem b hb).2,
      polled_of_ok (error_notMem_chunkReads (Nat.le_add_right _ _) (by omega) hpast.2 hcut)]
    exact nofun
  · obtain ⟨id, store, hid, hget, hdecrypt⟩ := (hentry.stored e rfl).decrypt_eq
    have hsome : file.encryptionId.isSome = true := by rw [hid]; rfl
    rw [DvdbndFile.CutsRead, if_neg (by rw [hid]; exact nofun)] at hcut
    obtain ⟨stream, hstream, hok⟩ :=
      error_notMem_streamReadWindows hbounds hstop (hwindows hsome) hpast.2 hcut
    obtain ⟨pre, body, post, hstream', hsegments, -⟩ :=
      (truncated_available bdtLen).streamReadWindows hstop hbounds (hwindows hsome)
    obtain rfl : stream = pre ++ body ++ post := Except.ok.inj (hstream.symm.trans hstream')
    have hlen := fun ciphertext body (h : decrypt mount.aes store id ciphertext = .ok body) => length_of_decrypt h
    rw [readAt_encrypted_of_stream hstop hid hget hreader hadd hstream]
    by_cases hnil : pre ++ body ++ post = []
    · rw [hnil, decryptLoop_nil]
      exact nofun
    · rw [hsegments.result_decryptLoop hstop hlen (hdecrypt mount.aes) hnil, polled_of_ok hok]
      exact nofun

variable (mount inode fileOffset len file bdtLen) in
/-- A request that succeeds gets all of its bytes, and it is answered with an error
    if some of them are after the end, whatever is in the BDT. -/
def NeverShort : Prop :=
  ∀ bdts : SrcId → Checked ReadManagedAt, bdts file.srcId ≠ .error .panic →
    (∀ reader, bdts file.srcId = .ok reader → Truncated reader bdtLen) →
      Complete ({ mount with bdts := bdts }.readFile inode fileOffset len) (file.readLen fileOffset len)
        (file.PastEnd bdtLen (file.readOffset fileOffset) (file.readLen fileOffset len))

variable (file bdtLen o l) in
/-- A request for bytes after the end is inside of the file, and the end cuts one of
    its reads. -/
structure Noticed (platform : Platform) : Prop where
  inBounds : file.InBounds o l
  windows : file.encryptionId.isSome = true → file.HasWindows platform o l
  cut : file.CutsRead platform bdtLen o l

/-- **A truncated archive is never short data** if and only if the end of the BDT
    cuts a read of every request that goes on after it. -/
theorem neverShort_iff (hfile : mount.IsFile inode file) (hentry : FromEntry mount.fs file entry encryption) :
    mount.NeverShort inode fileOffset len file bdtLen ↔
      (file.PastEnd bdtLen (file.readOffset fileOffset) (file.readLen fileOffset len) →
        Noticed file bdtLen (file.readOffset fileOffset) (file.readLen fileOffset len) mount.platform) := by
  have hstop := file.readEnd_lt fileOffset len
  rw [NeverShort]
  have hread : ∀ bdts : SrcId → Checked ReadManagedAt,
      { mount with bdts := bdts }.readFile inode fileOffset len = { mount with bdts := bdts }.readAt file
        (file.readOffset fileOffset) (file.readLen fileOffset len) := fun bdts => readFile_eq hfile
  simp only [hread]
  generalize file.readOffset fileOffset = o at *
  generalize file.readLen fileOffset len = l at *
  have hget : ∀ id, file.encryptionId = some id →
      ∃ store, mount.fs.encryptionStore.get file.srcId = some store := by
    intro id hid
    rcases encryption with _ | e
    · rw [hentry.plain rfl] at hid
      cases hid
    · obtain ⟨_, store, -, hstore, -⟩ := (hentry.stored e rfl).decrypt_eq
      exact ⟨store, hstore⟩
  constructor
  · intro h hpast
    have herror := (h (fun _ => .ok (available bdtLen)) nofun fun reader heq => by
      cases heq
      exact truncated_available bdtLen).error hpast
    have hpanics : ¬ (file.InBounds o l → file.encryptionId.isSome = true ∧
        ¬ file.HasWindows mount.platform o l) := by
      intro hnot
      rw [@readAt_panic { mount with bdts := fun _ => .ok (available bdtLen) } _ _ _ _ hstop rfl hget hnot] at herror
      cases herror
    rw [Classical.not_imp, not_and, not_not] at hpanics
    obtain ⟨hin, hwindows⟩ := hpanics
    refine ⟨hin, hwindows, ?_⟩
    by_contra hcut
    exact @result_ne_error { mount with bdts := fun _ => .ok (available bdtLen) } _ _ _ _ _ _ _ _ hstop hentry rfl
      hin hwindows hpast hcut herror
  · intro h bdts hopen htruncated
    rcases hreader : bdts file.srcId with s | reader
    · have hclosed : bdts file.srcId = .error .error := by
        cases s with
        | error => exact hreader
        | panic => exact absurd hreader hopen
      exact @complete_closed { mount with bdts := bdts } _ _ _ _ hstop hclosed fun hpast => (h hpast).inBounds
    · have hread := htruncated reader hreader
      by_cases hnot : file.InBounds o l → file.encryptionId.isSome = true ∧ ¬ file.HasWindows mount.platform o l
      · rw [@readAt_panic { mount with bdts := bdts } _ _ _ _ hstop hreader hget hnot]
        refine ⟨nofun, fun hpast => ?_⟩
        obtain ⟨hsome, hnot⟩ := hnot (h hpast).inBounds
        exact absurd ((h hpast).windows hsome) hnot
      · rw [Classical.not_imp, not_and, not_not] at hnot
        obtain ⟨hin, hwindows⟩ := hnot
        rcases encryption with _ | e
        · exact @complete_plain { mount with bdts := bdts } _ _ _ _ _ hstop (hentry.plain rfl) hreader hread hin
            fun hpast => (h hpast).cut
        · have hstored := hentry.stored e rfl
          have hsome : file.encryptionId.isSome = true := by
            obtain ⟨_, _, hid, -, -⟩ := hstored.decrypt_eq
            rw [hid]
            rfl
          exact @complete_stored { mount with bdts := bdts } _ _ _ _ _ _ _ _ _ hstop hstored hreader hread hin
            (hwindows hsome) fun hpast => (h hpast).cut

/-- A plain file of 48 bytes. -/
def plainFile : DvdbndFile := ⟨100, 48, 0, ⟨.replicate 12 0⟩, none⟩

theorem not_neverShort : ¬ ∀ (mount : DvdbndMount) (inode fileOffset : UInt64) (len : UInt32)
    (file : DvdbndFile) (entry : FileEntryDs) (encryption : Option Encryption) (bdtLen : ℕ),
      mount.IsFile inode file → FromEntry mount.fs file entry encryption →
        mount.NeverShort inode fileOffset len file bdtLen := by
  intro h
  have hentry : FromEntry (ofZeros .unix plainFile []).fs plainFile (⟨7, 48, 100⟩ : FileEntryDs) none :=
    ⟨rfl, fun _ => rfl, nofun⟩
  have hfile := isFile_ofZeros .unix plainFile []
  have hcomplete := h _ 1 0 48 plainFile ⟨7, 48, 100⟩ none 100 hfile hentry (fun _ => .ok (available 100)) nofun
    fun reader heq => by
      cases heq
      exact truncated_available 100
  have herror := hcomplete.error ⟨by decide, by decide⟩
  -- the BDT ends where the file starts, and the only chunk is dropped
  have hcut : ¬ plainFile.CutsRead .unix 100 (plainFile.readOffset 0) (plainFile.readLen 0 48) := by decide
  have hread : { ofZeros .unix plainFile [] with bdts := fun _ => .ok (available 100) }.readFile 1 0 48 = _ :=
    readFile_eq hfile
  rw [hread] at herror
  exact @result_ne_error { ofZeros .unix plainFile [] with bdts := fun _ => .ok (available 100) } plainFile
    FileEntryDs _ ⟨7, 48, 100⟩ none 100 _ _ (by decide) hentry rfl (by decide) nofun ⟨by decide, by decide⟩ hcut herror

theorem neverShort_fourFile : (ofZeros .unix fourFile fourStore).NeverShort 1 8 40 fourFile 120 := by
  have hwindows : fourFile.HasWindows .unix (fourFile.readOffset 8) (fourFile.readLen 8 40) := by decide
  have hcut : fourFile.CutsRead .unix 120 (fourFile.readOffset 8) (fourFile.readLen 8 40) := by decide
  have hnoticed : Noticed fourFile 120 (fourFile.readOffset 8) (fourFile.readLen 8 40) .unix :=
    ⟨by decide, fun _ => hwindows, hcut⟩
  exact (neverShort_iff (isFile_ofZeros _ _ _) (fromEntry_fourFile _)).2 fun _ => hnoticed

end DvdbndMount

end Fsvfs.Dvdbnd
