/-
  RSA decryption of a stream (`RsaDecryptor` in `src/crypto/rsa.rs`).

  A read goes on until its buffer is full; it is given some fuel, which is none of
  the code's.

  * `Holds`: what a decryptor is going to deliver;
  * `readLoop_eq`, `readToEnd_eq`: how the operations go on with it;
  * `decryptions_agree`: the ways to decrypt some blocks give the same bytes.
-/
import Fsvfs.Crypto.Rsa
import Fsvfs.Lib.Io
import Mathlib.Data.List.Forall2

namespace Fsvfs.Crypto

open Lib

/-- `io::Error`: one of the source, or a `DecryptError`. -/
inductive IoError where
  | Source
  | InvalidInput (e : DecryptError)
deriving DecidableEq

/-- `io::Read` of a slice. -/
instance : IoRead IoError (List UInt8) := IoRead.ofSlice IoError

/-- `RsaDecryptor`. -/
structure RsaDecryptor (R : Type) where
  key : RsaKey
  out : Cursor
  reader : BufReader R

namespace RsaDecryptor
variable {R : Type} [IoRead IoError R]

/-- `RsaDecryptor::new`. -/
def new (key : RsaKey) (reader : R) : RsaDecryptor R where
  key := key
  out := ⟨List.replicate key.outBlockLen 0, key.outBlockLen⟩
  reader := .withCapacity key.inBlockLen reader

/-- The loop of `read`: what is left of the length of the buffer, what has been
    written to it, and `read`.  No result means that the fuel is used up. -/
def readLoop : ℕ → RsaDecryptor R → ℕ → List UInt8 → ℕ →
    Option (Except IoError (List UInt8 × ℕ × RsaDecryptor R))
  | 0, _, _, _, _ => none
  | fuel + 1, dec, len, buf, read =>
    if len = 0 then some (.ok (buf, read, dec))
    else
      let out := dec.out.fillBuf
      if out ≠ [] then
        let amt := min len out.length
        readLoop fuel { dec with out := dec.out.consume amt } (len - amt) (buf ++ out.take amt) (read + amt)
      else match dec.reader.fillBuf with
        | .error e => some (.error e)
        | .ok (block, reader) =>
          if dec.key.outBlockLen ≤ len then match dec.key.decryptBlockIn block dec.key.outBlockLen with
            | .error e => some (.error (.InvalidInput e))
            | .ok out => readLoop fuel { dec with reader := reader.consume dec.key.inBlockLen }
                (len - dec.key.outBlockLen) (buf ++ out) (read + dec.key.outBlockLen)
          else match dec.key.decryptBlockIn block dec.out.inner.length with
            | .error e => some (.error (.InvalidInput e))
            | .ok out => readLoop fuel
                { dec with out := ⟨out, 0⟩, reader := reader.consume dec.key.inBlockLen } len buf read

/-- `read`, into a buffer of some length: what is in the buffer, and the number of
    bytes that is returned.  What an error leaves is in `Failing.read`. -/
def read (fuel : ℕ) (dec : RsaDecryptor R) (len : ℕ) :
    Option (Except IoError (List UInt8 × ℕ × RsaDecryptor R)) := readLoop fuel dec len [] 0

/-- `read_to_end`, with a vector: the vector afterwards, and the number of bytes that
    is returned.  What an error leaves, in the vector too, is in `Failing.readToEnd`. -/
def readToEnd (dec : RsaDecryptor R) (buf : List UInt8) :
    Except IoError (List UInt8 × ℕ × RsaDecryptor R) := do
  let (bytes, out) := dec.out.readToEnd
  let read := bytes.length
  let buf := buf ++ bytes
  let startAt := buf.length
  let (bytes, reader) ← dec.reader.readToEnd
  let buf := buf ++ bytes
  match dec.key.decryptBlocksInPlace (buf.drop startAt) with
  | .error e => .error (.InvalidInput e)
  | .ok (blocks, inPlaceLen) =>
    .ok ((buf.take startAt ++ blocks).take (startAt + inPlaceLen), read + inPlaceLen,
      { dec with out := out, reader := reader })

/-- Some calls of `read`, into buffers of some lengths: what is in the buffers. -/
def reads (fuel : ℕ) : RsaDecryptor R → List ℕ →
    Option (Except IoError (List (List UInt8 × ℕ) × RsaDecryptor R))
  | dec, [] => some (.ok ([], dec))
  | dec, len :: lens => match read fuel dec len with
    | none => none
    | some (.error e) => some (.error e)
    | some (.ok (buf, n, dec)) => (reads fuel dec lens).map fun r => r.map fun (bufs, dec) => ((buf, n) :: bufs, dec)

/-! ## What is delivered -/

variable {rest : R → List UInt8} {dec : RsaDecryptor R} {key : RsaKey} {plain : List UInt8}

/-- A decryptor has some bytes and the blocks of its source to deliver. -/
structure Holds (rest : R → List UInt8) (dec : RsaDecryptor R) (key : RsaKey) (plain : List UInt8) : Prop where
  key_eq : dec.key = key
  capacity : dec.reader.capacity = key.inBlockLen
  buffer : dec.reader.buffer = []
  out : dec.out.inner.length = key.outBlockLen
  blocks : ∃ blocks outs, rest dec.reader.inner = blocks.flatten ∧ (∀ b ∈ blocks, b.length = key.inBlockLen) ∧
    key.blockwise blocks = .ok outs ∧ plain = dec.out.fillBuf ++ outs.flatten

omit [IoRead IoError R] in
theorem holds_new {r : R} {blocks outs : List (List UInt8)} (hrest : rest r = blocks.flatten)
    (hlen : ∀ b ∈ blocks, b.length = key.inBlockLen) (houts : key.blockwise blocks = .ok outs) :
    Holds rest (new key r) key outs.flatten := by
  refine ⟨rfl, rfl, rfl, List.length_replicate, blocks, outs, hrest, hlen, houts, ?_⟩
  have hempty : (new key r).out.fillBuf = [] := by
    rw [new, Cursor.fillBuf]
    exact List.drop_of_length_le (Nat.le_of_eq List.length_replicate)
  rw [hempty, List.nil_append]

omit [IoRead IoError R] in
/-- Bytes of the cursor are delivered. -/
theorem Holds.consume (h : Holds rest dec key plain) {amt : ℕ} (hamt : amt ≤ dec.out.fillBuf.length) :
    plain.take amt = dec.out.fillBuf.take amt ∧
      Holds rest { dec with out := dec.out.consume amt } key (plain.drop amt) := by
  obtain ⟨hkey, hcapacity, hbuffer, hout, blocks, outs, hrest, hlen, houts, rfl⟩ := h
  refine ⟨List.take_append_of_le_length hamt, hkey, hcapacity, hbuffer, hout, blocks, outs, hrest, hlen, houts, ?_⟩
  rw [Cursor.fillBuf_consume, List.drop_append_of_le_length hamt]

section
variable (hfills : FillsReads rest)
include hfills

/-- **The next block**, when the cursor is at its end: it is decrypted into a buffer
    or into the cursor. -/
theorem Holds.next (h : Holds rest dec key plain) (hempty : dec.out.fillBuf = []) (hne : plain ≠ []) :
    ∃ block reader out, dec.reader.fillBuf = .ok (block, reader) ∧
      key.decryptBlockIn block key.outBlockLen = .ok out ∧ out.length = key.outBlockLen ∧
      plain.take key.outBlockLen = out ∧
      Holds rest { dec with reader := reader.consume key.inBlockLen } key (plain.drop key.outBlockLen) ∧
      Holds rest { dec with out := ⟨out, 0⟩, reader := reader.consume key.inBlockLen } key plain := by
  obtain ⟨key', out, capacity, buffer, inner⟩ := dec
  obtain ⟨hkey, hcapacity, hbuffer, hout, blocks, outs, hrest, hlen, houts, hplain⟩ := h
  dsimp only at hkey hcapacity hbuffer hout hrest hempty hplain
  subst hkey hcapacity hbuffer
  rw [hempty, List.nil_append] at hplain
  subst hplain
  rcases blocks with _ | ⟨block, blocks⟩
  · cases houts
    exact absurd rfl hne
  · obtain ⟨hblock, hblocks⟩ := List.forall_mem_cons.1 hlen
    obtain ⟨plainBlock, outs', rfl, hdecrypt, houts'⟩ := RsaKey.blockwise_cons_eq_ok houts
    have hlength := RsaKey.length_of_decryptBlockIn hdecrypt
    obtain ⟨r', hfill, hrest'⟩ := hfills.fillBuf key'.inBlockLen inner
    have htake : (rest inner).take key'.inBlockLen = block := by
      rw [hrest, List.flatten_cons, List.take_left' hblock]
    have hdrop : rest r' = blocks.flatten := by
      rw [hrest', hrest, List.flatten_cons, List.drop_left' hblock]
    rw [htake] at hfill
    have hconsumed : block.drop key'.inBlockLen = [] := List.drop_of_length_le (Nat.le_of_eq hblock)
    refine ⟨block, _, plainBlock, hfill, hdecrypt, hlength, ?_, ?_, ?_⟩
    · rw [List.flatten_cons, List.take_left' hlength]
    · refine ⟨rfl, rfl, hconsumed, hout, blocks, outs', hdrop, hblocks, houts', ?_⟩
      rw [List.flatten_cons, List.drop_left' hlength, hempty, List.nil_append]
    · exact ⟨rfl, rfl, hconsumed, hlength, blocks, outs', hdrop, hblocks, houts', List.flatten_cons⟩

/-- **The loop of `read` fills its buffer**, if there are enough bytes to deliver.
    Every step copies a byte, decrypts a block or fills the cursor. -/
theorem readLoop_eq (hkey : 2 ≤ key.len) {fuel len : ℕ} {buf : List UInt8} {read : ℕ}
    (h : Holds rest dec key plain) (hlen : len ≤ plain.length)
    (hfuel : 2 * len + (if dec.out.fillBuf = [] then 1 else 0) < fuel) :
    ∃ dec', readLoop fuel dec len buf read = some (.ok (buf ++ plain.take len, read + len, dec')) ∧
      Holds rest dec' key (plain.drop len) := by
  induction fuel generalizing dec len buf read plain with
  | zero => exact absurd hfuel (Nat.not_lt_zero _)
  | succ fuel ih =>
    -- a step that delivers some of the bytes
    have hstep : ∀ {dec₁ : RsaDecryptor R} {amt : ℕ}, 0 < amt → amt ≤ len → Holds rest dec₁ key (plain.drop amt) →
        ∃ dec', readLoop fuel dec₁ (len - amt) (buf ++ plain.take amt) (read + amt) =
          some (.ok (buf ++ plain.take len, read + len, dec')) ∧ Holds rest dec' key (plain.drop len) := by
      intro dec₁ amt hpos hamt h₁
      have hfuel₁ : 2 * (len - amt) + (if dec₁.out.fillBuf = [] then 1 else 0) < fuel := by
        split_ifs at hfuel ⊢ <;> omega
      obtain ⟨k, rfl⟩ := Nat.exists_eq_add_of_le hamt
      rw [Nat.add_sub_cancel_left] at hfuel₁ ⊢
      obtain ⟨dec', hloop, hholds⟩ := @ih dec₁ _ k (buf ++ plain.take amt) (read + amt) h₁
        (by rw [List.length_drop]; omega) hfuel₁
      rw [List.drop_drop] at hholds
      refine ⟨dec', ?_, hholds⟩
      rw [hloop, List.append_assoc, ← List.take_add, Nat.add_assoc]
    rw [readLoop]
    by_cases hzero : len = 0
    · subst hzero
      rw [if_pos rfl]
      refine ⟨dec, ?_, h⟩
      rw [List.take_zero, List.append_nil, Nat.add_zero]
    · rw [if_neg hzero]
      dsimp only
      obtain rfl := h.key_eq
      have houtLen : dec.key.outBlockLen = dec.key.len - 1 := rfl
      by_cases hempty : dec.out.fillBuf = []
      · have hne : plain ≠ [] := by
          rintro rfl
          exact hzero (Nat.le_zero.1 hlen)
        obtain ⟨block, reader, out, hfill, hdecrypt, hlength, htake, hinto, hcursor⟩ := h.next hfills hempty hne
        rw [if_neg (not_not.2 hempty), hfill, h.out]
        dsimp only
        rw [hdecrypt]
        dsimp only
        split_ifs with hfits
        · rw [← htake]
          exact hstep (by omega) hfits hinto
        · have hfull : out ≠ [] := List.ne_nil_of_length_pos (by omega)
          rw [if_pos hempty] at hfuel
          exact ih hcursor hlen (by rw [if_neg (show ¬ (⟨out, 0⟩ : Cursor).fillBuf = [] from hfull)]; omega)
      · obtain ⟨htake, hholds⟩ := h.consume (Nat.min_le_right len dec.out.fillBuf.length)
        have hpos := List.length_pos_of_ne_nil hempty
        rw [if_pos hempty, ← htake]
        exact hstep (by omega) (Nat.min_le_left _ _) hholds

/-- A buffer of some length has been filled. -/
structure Filled (len : ℕ) (buf : List UInt8 × ℕ) : Prop where
  length : buf.1.length = len
  returned : buf.2 = len

/-- **Some reads fill their buffers** with the next bytes. -/
theorem reads_eq (hkey : 2 ≤ key.len) {fuel : ℕ} {lens : List ℕ} (h : Holds rest dec key plain)
    (hlens : lens.sum ≤ plain.length) (hfuel : ∀ len ∈ lens, 2 * len + 1 < fuel) :
    ∃ bufs dec', reads fuel dec lens = some (.ok (bufs, dec')) ∧ List.Forall₂ Filled lens bufs ∧
      (bufs.map Prod.fst).flatten = plain.take lens.sum ∧ Holds rest dec' key (plain.drop lens.sum) := by
  induction lens generalizing dec plain with
  | nil => exact ⟨[], dec, rfl, .nil, rfl, h⟩
  | cons len lens ih =>
    rw [List.sum_cons] at hlens ⊢
    obtain ⟨hlen, hfuel⟩ := List.forall_mem_cons.1 hfuel
    obtain ⟨dec₁, hread, h₁⟩ := @readLoop_eq _ _ _ _ _ _ hfills hkey fuel len [] 0 h (by omega) (by split_ifs <;> omega)
    obtain ⟨bufs, dec', hreads, hfilled, hbufs, hholds⟩ := ih h₁ (by rw [List.length_drop]; omega) hfuel
    rw [List.drop_drop] at hholds
    refine ⟨(plain.take len, len) :: bufs, dec', ?_, .cons ⟨?_, rfl⟩ hfilled, ?_, hholds⟩
    · rw [reads, read, hread, List.nil_append, Nat.zero_add]
      dsimp only
      rw [hreads]
      rfl
    · rw [List.length_take]
      omega
    · rw [List.map_cons, List.flatten_cons, hbufs, List.take_add]

/-- **The rest is decrypted in place**, after what is left in the cursor. -/
theorem readToEnd_eq (h : Holds rest dec key plain) (buf : List UInt8) :
    ∃ dec', readToEnd dec buf = .ok (buf ++ plain, plain.length, dec') := by
  obtain ⟨key', out, capacity, buffer, inner⟩ := dec
  obtain ⟨hkey, hcapacity, hbuffer, hout, blocks, outs, hrest, hlen, houts, rfl⟩ := h
  dsimp only at hkey hcapacity hbuffer hout hrest
  subst hkey hbuffer
  obtain ⟨reader', hread⟩ := hfills.bufReadToEnd capacity inner
  have hplace := RsaKey.decryptBlocksInPlace_eq hlen
  have hlength : outs.flatten.length = blocks.length * key'.outBlockLen := RsaKey.length_flatten_outs houts
  rw [houts, Except.map] at hplace
  refine ⟨⟨key', out.consume out.fillBuf.length, reader'⟩, ?_⟩
  rw [readToEnd]
  dsimp only [Cursor.readToEnd]
  rw [hread, hrest]
  simp only [bind, Except.bind, List.drop_left, List.take_left, hplace]
  rw [← hlength, ← List.append_assoc, ← List.length_append, List.take_left, List.append_assoc, List.length_append]

end

/-- **The three ways to decrypt some blocks agree.** -/
theorem decryptions_agree (hkey : 2 ≤ key.len) {blocks : List (List UInt8)}
    (hblocks : ∀ b ∈ blocks, b.length = key.inBlockLen) :
    ((∀ b ∈ blocks, naturalFromBytesBe b < key.n) → ∃ outs,
      List.Forall₂ (fun block out => key.decryptBlockIn block key.outBlockLen = .ok out) blocks outs ∧
      outs.flatten.length = blocks.length * key.outBlockLen ∧
      (∃ left, key.decryptBlocksInPlace blocks.flatten =
        .ok (outs.flatten ++ left, blocks.length * key.outBlockLen)) ∧
      ∀ {R : Type} [IoRead IoError R] (rest : R → List UInt8), FillsReads rest →
        ∀ (r : R) (lens : List ℕ) (fuel : ℕ), rest r = blocks.flatten →
          lens.sum ≤ blocks.length * key.outBlockLen → (∀ len ∈ lens, 2 * len + 1 < fuel) →
            ∃ bufs dec, (new key r).reads fuel lens = some (.ok (bufs, dec)) ∧ List.Forall₂ Filled lens bufs ∧
              ∀ buf, ∃ bytes dec', dec.readToEnd buf = .ok (buf ++ bytes, bytes.length, dec') ∧
                (bufs.map Prod.fst).flatten ++ bytes = outs.flatten) ∧
    ((∃ b ∈ blocks, key.n ≤ naturalFromBytesBe b) →
      key.decryptBlocksInPlace blocks.flatten = .error .Base ∧
        ∃ b ∈ blocks, key.decryptBlockIn b key.outBlockLen = .error .Base) := by
  have hplace := RsaKey.decryptBlocksInPlace_eq hblocks
  constructor
  · intro hlt
    obtain ⟨outs, houts⟩ := RsaKey.exists_blockwise hblocks hlt
    have hlength := RsaKey.length_flatten_outs houts
    rw [houts] at hplace
    refine ⟨outs, RsaKey.blockwise_eq_ok houts, hlength, ⟨_, hplace⟩, ?_⟩
    intro R _ rest hfills r lens fuel hrest hlens hfuel
    rw [← hlength] at hlens
    obtain ⟨bufs, dec, hreads, hfilled, hbufs, hholds⟩ :=
      reads_eq hfills hkey (holds_new hrest hblocks houts) hlens hfuel
    refine ⟨bufs, dec, hreads, hfilled, fun buf => ?_⟩
    obtain ⟨dec', hend⟩ := readToEnd_eq hfills hholds buf
    exact ⟨_, dec', hend, by rw [hbufs, List.take_append_drop]⟩
  · intro hge
    rw [RsaKey.blockwise_of_ge hblocks hge] at hplace
    obtain ⟨b, hb, hle⟩ := hge
    exact ⟨hplace, b, hb, RsaKey.decryptBlockIn_of_ge (hblocks b hb) hle _⟩

/-- A key with two bytes for a block. -/
def twoByteKey : RsaKey := ⟨3233, 17, 2, by decide⟩

theorem decryptions_agree_twoByteKey : ∃ bufs dec,
    (new twoByteKey ([0, 65, 0, 66] : List UInt8)).reads 4 [1] = some (.ok (bufs, dec)) ∧ List.Forall₂ Filled [1] bufs ∧
      ∀ buf, ∃ bytes dec', dec.readToEnd buf = .ok (buf ++ bytes, bytes.length, dec') ∧
        (bufs.map Prod.fst).flatten ++ bytes = [230, 12] := by
  have hlen : ∀ b ∈ ([[0, 65], [0, 66]] : List (List UInt8)), b.length = twoByteKey.inBlockLen := by decide
  have hlt : ∀ b ∈ ([[0, 65], [0, 66]] : List (List UInt8)), naturalFromBytesBe b < twoByteKey.n := by
    decide +kernel
  obtain ⟨outs, -, hlength, ⟨left, hplace⟩, hreads⟩ := (decryptions_agree (by decide) hlen).1 hlt
  have hbytes : twoByteKey.decryptBlocksInPlace [0, 65, 0, 66] = .ok ([230, 12, 0, 66], 2) := by decide +kernel
  have heq : outs.flatten ++ left = [230, 12, 0, 66] :=
    congrArg Prod.fst (Except.ok.inj (hplace.symm.trans hbytes))
  have houts : outs.flatten = [230, 12] := by
    have hlength' : outs.flatten.length = 2 := hlength
    have htake := congrArg (List.take 2) heq
    rwa [List.take_left' hlength'] at htake
  rw [houts] at hreads
  exact hreads (fun bytes => bytes) (fillsReads_ofSlice IoError) [0, 65, 0, 66] [1] 4 rfl (by decide) (by decide)

end RsaDecryptor

end Fsvfs.Crypto
