/-
  The loop of `read_and_decrypt_file` without its ring.

  `sweep` goes over the buffers of a stream, each with the one before it, which
  may be decrypted already, and the one after it.  `decryptLoop_eq`: it does what
  the loop does, if the buffers are outside of the request or inside of it.
-/
import Fsvfs.Dvdbnd.Pieces
import Fsvfs.Dvdbnd.Read

namespace Fsvfs.Dvdbnd

open Lib Lib.Checked Traced

/-- The ciphertext of a buffer between two others. -/
def AlignedBuffer.ciphertext (buf : AlignedBuffer) (prev next : List UInt8) : Ciphertext :=
  ⟨buf.bytes, lastBlock prev, firstBlock next, buf.offset.toNat.toUInt32⟩

section
variable (start stop : ℕ) (decrypt : Ciphertext → Checked (List UInt8))

/-- What the loop does to one buffer. -/
def sweepOne (prev : List UInt8) (buf : AlignedBuffer) (next : List UInt8) :
    Traced Event AlignedBuffer :=
  if buf.offset < start ∨ buf.offset ≥ stop then pure buf
  else do
    emit [.decrypt (buf.ciphertext prev next)]
    let body ← lift (decrypt (buf.ciphertext prev next))
    emit [.callback body buf.offset.toNat]
    pure ⟨body, buf.offset⟩

/-- What the loop does to a buffer and to those after it. -/
def sweep (prev : List UInt8) (buf : AlignedBuffer) : BufferStream → Traced Event Unit
  | [] => do
    let _ ← sweepOne start stop decrypt prev buf []
    pure ()
  | item :: stream => do
    let next ← lift item
    let buf ← sweepOne start stop decrypt prev buf next.bytes
    sweep buf.bytes next stream

/-- A buffer is not cut by the ends of the request. -/
def AlignedBuffer.Placed (buf : AlignedBuffer) : Prop :=
  buf.offset < start ∨ buf.offset ≥ stop ∨ buf.bytes ≠ [] ∧ buf.offset + buf.bytes.length ≤ stop

variable {start stop decrypt} {older old new : Option AlignedBuffer} {buf : AlignedBuffer}
  {cbuf : CiphertextBuffer}

/-- A buffer inside of the request is handed over as a whole. -/
theorem clip_eq {buf : AlignedBuffer} (h0 : 0 ≤ buf.offset) (hne : buf.bytes ≠ [])
    (hle : buf.offset + buf.bytes.length ≤ stop) (hstop : stop < 2 ^ 32) :
    clip stop buf = emit [.callback buf.bytes buf.offset.toNat] := by
  have hoffset : u32TryFrom buf.offset = some buf.offset.toNat.toUInt32 := if_pos ⟨h0, by omega⟩
  have hnat : buf.offset.toNat.toUInt32.toNat = buf.offset.toNat :=
    UInt32.toNat_ofNat_of_lt' (by show buf.offset.toNat < 2 ^ 32; omega)
  rw [clip, hoffset]
  dsimp only
  rw [hnat, Nat.mod_eq_of_lt (by omega), add_of_lt (by omega), lift_ok_bind,
    slice_of_le (Nat.zero_le _) (by omega), lift_ok_bind, List.drop_zero,
    List.take_of_length_le (by omega), if_neg hne]

/-- **What the loop does to the current buffer of the ring.** -/
theorem decryptCurr_eq (hview : cbuf.View older (some buf) new) (hplaced : buf.Placed start stop)
    (hstop : stop < 2 ^ 32) (hlen : ∀ ciphertext body, decrypt ciphertext = .ok body →
      body.length = ciphertext.body.length) :
    decryptCurr start stop decrypt (clip stop) cbuf =
      sweepOne start stop decrypt ((older.map AlignedBuffer.bytes).getD []) buf
        ((new.map AlignedBuffer.bytes).getD []) >>= fun buf => pure (cbuf.setCurr buf) := by
  rw [decryptCurr, hview.curr, lift_ok_bind, sweepOne]
  by_cases hskip : buf.offset < start ∨ buf.offset ≥ stop
  · rw [if_pos hskip, if_pos hskip, pure_bind, hview.setCurr_self]
  · obtain ⟨hne, hle⟩ := (hplaced.resolve_left fun h => hskip (.inl h)).resolve_left fun h =>
      hskip (.inr h)
    rw [not_or, not_lt, ge_iff_le, not_le] at hskip
    obtain ⟨n, hn⟩ := Int.eq_ofNat_of_zero_le (show 0 ≤ buf.offset by omega)
    have htrunc : ∀ k, buf.truncate (buf.bytes.length - 0 + k) = buf := fun k => by
      rw [AlignedBuffer.truncate, List.take_of_length_le (by omega)]
    rw [if_neg (by omega), if_neg (by omega)]
    dsimp only
    rw [hn] at hle hskip
    rw [hn, Int.toNat_natCast, Nat.mod_eq_of_lt (by omega), Nat.mod_eq_of_lt (by omega),
      add_of_lt (by omega), lift_ok_bind]
    -- the buffer is not longer than the request
    have hcbuf : (if stop ≤ n + buf.bytes.length then cbuf.setCurr (buf.truncate
        (buf.bytes.length - (n + buf.bytes.length - stop) + BLOCK_SIZE - 1)) else cbuf) = cbuf := by
      split_ifs with hend
      · have hzero : n + buf.bytes.length - stop = 0 := by omega
        rw [hzero, Nat.add_sub_assoc (by decide), htrunc, hview.setCurr_self]
      · rfl
    rw [hcbuf, hview.fromBuffer hn (by omega), lift_ok_bind, emit_bind, emit_bind]
    have hct : buf.ciphertext ((older.map AlignedBuffer.bytes).getD [])
        ((new.map AlignedBuffer.bytes).getD []) = ⟨buf.bytes,
          lastBlock ((older.map AlignedBuffer.bytes).getD []),
          firstBlock ((new.map AlignedBuffer.bytes).getD []), n.toUInt32⟩ := by
      rw [AlignedBuffer.ciphertext, hn, Int.toNat_natCast]
    rw [hct]
    rcases hbody : decrypt ⟨buf.bytes, lastBlock ((older.map AlignedBuffer.bytes).getD []),
      firstBlock ((new.map AlignedBuffer.bytes).getD []), n.toUInt32⟩ with s | body
    · rfl
    · have hbodyLen := hlen _ _ hbody
      have hbodyNe : body ≠ [] := fun h => hne (List.eq_nil_of_length_eq_zero (by
        rw [h] at hbodyLen
        exact hbodyLen.symm))
      have hclip : clip stop ⟨body, (n : ℤ)⟩ = emit [.callback body n] := by
        refine clip_eq (by dsimp only; omega) hbodyNe ?_ hstop
        dsimp only at hbodyLen ⊢
        omega
      rw [lift_ok_bind, lift_ok_bind, hview.setCurr.curr, lift_ok_bind, hclip]
      rfl

/-- **The loop goes over the buffers with their neighbours.** -/
theorem decryptLoop_eq {stream : BufferStream} (hstop : stop < 2 ^ 32)
    (hlen : ∀ ciphertext body, decrypt ciphertext = .ok body → body.length = ciphertext.body.length)
    (hplaced : buf.Placed start stop) (hstream : ∀ b, .ok b ∈ stream → b.Placed start stop)
    (hview : cbuf.View older old (some buf)) (hpushed : cbuf.isPushed = true) :
    decryptLoop start stop decrypt (clip stop) stream cbuf =
      sweep start stop decrypt ((old.map AlignedBuffer.bytes).getD []) buf stream := by
  induction stream generalizing cbuf older old buf with
  | nil =>
    rw [decryptLoop, sweep, CiphertextBuffer.finish,
      decryptCurr_eq (hview.doPush none) hplaced hstop hlen, Traced.bind_assoc]
    rfl
  | cons item stream ih =>
    rw [decryptLoop, sweep]
    rcases item with s | next
    · rfl
    · have hempty : cbuf.isEmpty = false := by rw [CiphertextBuffer.isEmpty, hpushed]; rfl
      have hview' := hview.doPush (some next)
      rw [lift_ok_bind, lift_ok_bind, hempty, if_neg Bool.false_ne_true, CiphertextBuffer.push,
        decryptCurr_eq hview' hplaced hstop hlen, Traced.bind_assoc]
      congr 1
      funext buf'
      exact ih (hstream _ List.mem_cons_self) (fun b hb => hstream b (List.mem_cons_of_mem _ hb))
        hview'.setCurr rfl

/-- The loop without buffers panics. -/
theorem decryptLoop_nil (f : AlignedBuffer → Traced Event Unit) :
    decryptLoop start stop decrypt f [] .default = lift (.error .panic) := rfl

/-- The loop begins with the first buffer. -/
theorem decryptLoop_cons {stream : BufferStream} {item : Checked AlignedBuffer} (hstop : stop < 2 ^ 32)
    (hlen : ∀ ciphertext body, decrypt ciphertext = .ok body → body.length = ciphertext.body.length)
    (hstream : ∀ b, .ok b ∈ item :: stream → b.Placed start stop) :
    decryptLoop start stop decrypt (clip stop) (item :: stream) .default =
      lift item >>= fun buf => sweep start stop decrypt [] buf stream := by
  rcases item with s | buf
  · rfl
  · have hplaced := hstream buf List.mem_cons_self
    rw [decryptLoop, lift_ok_bind, lift_ok_bind]
    exact decryptLoop_eq hstop hlen hplaced (fun b hb => hstream b (List.mem_cons_of_mem _ hb))
      (CiphertextBuffer.view_default.doPush (some buf)) rfl

variable (start stop decrypt) in
/-- What the loop does to some buffers. -/
def sweepAll (prev : List UInt8) : List AlignedBuffer → Traced Event Unit
  | [] => pure ()
  | buf :: bufs => sweep start stop decrypt prev buf (bufs.map .ok)

theorem sweepAll_cons (prev : List UInt8) (buf : AlignedBuffer) (bufs : List AlignedBuffer) :
    sweepAll start stop decrypt prev (buf :: bufs) =
      sweepOne start stop decrypt prev buf (firstBytesOf bufs) >>= fun buf =>
        sweepAll start stop decrypt buf.bytes bufs := by
  rcases bufs with _ | ⟨next, bufs⟩
  · rfl
  · rfl

/-- What the loop does to a buffer inside of the request. -/
theorem sweepOne_of_decrypt {prev next body : List UInt8} {n : ℕ} (hn : buf.offset = n) (hstart : start ≤ n)
    (hlt : n < stop) (hbody : decrypt (buf.ciphertext prev next) = .ok body) :
    sweepOne start stop decrypt prev buf next =
      ⟨[.decrypt (buf.ciphertext prev next), .callback body n], .ok ⟨body, n⟩⟩ := by
  have hskip : ¬ (buf.offset < start ∨ buf.offset ≥ stop) := by omega
  rw [sweepOne, if_neg hskip, hbody, hn, Int.toNat_natCast]
  rfl

/-- Buffers that are outside of the request are skipped. -/
theorem sweepAll_of_skipped {prev : List UInt8} {bufs : List AlignedBuffer}
    (h : ∀ b ∈ bufs, b.offset < start ∨ b.offset ≥ stop) :
    sweepAll start stop decrypt prev bufs = pure () := by
  induction bufs generalizing prev with
  | nil => rfl
  | cons buf bufs ih =>
    obtain ⟨hbuf, hbufs⟩ := List.forall_mem_cons.1 h
    rw [sweepAll_cons, sweepOne, if_pos hbuf, pure_bind, ih hbufs]

/-- A buffer before the request is the head of the first one. -/
theorem sweepAll_append {pre bufs : List AlignedBuffer} (hlen : pre.length ≤ 1)
    (h : ∀ b ∈ pre, b.offset < start) : sweepAll start stop decrypt [] (pre ++ bufs) =
      sweepAll start stop decrypt (firstBytesOf pre) bufs := by
  rcases pre with _ | ⟨b, _ | ⟨c, pre⟩⟩
  · rfl
  · have hskip : b.offset < start := h b List.mem_cons_self
    rw [List.singleton_append, sweepAll_cons, sweepOne, if_pos (.inl hskip), pure_bind]
    rfl
  · simp at hlen

/-- **The loop over some buffers.** -/
theorem decryptLoop_map_ok {bufs : List AlignedBuffer} (hstop : stop < 2 ^ 32)
    (hlen : ∀ ciphertext body, decrypt ciphertext = .ok body → body.length = ciphertext.body.length)
    (hbufs : ∀ b ∈ bufs, b.Placed start stop) (hne : bufs ≠ []) :
    decryptLoop start stop decrypt (clip stop) (bufs.map .ok) .default =
      sweepAll start stop decrypt [] bufs := by
  rcases bufs with _ | ⟨buf, bufs⟩
  · exact absurd rfl hne
  · rw [List.map_cons, decryptLoop_cons hstop hlen, lift_ok_bind]
    · rfl
    · intro b hb
      rcases List.mem_cons.1 hb with heq | hb
      · cases heq
        exact hbufs _ List.mem_cons_self
      · obtain ⟨b', hb', heq⟩ := List.mem_map.1 hb
        cases heq
        exact hbufs _ (List.mem_cons_of_mem _ hb')

end

end Fsvfs.Dvdbnd
